import Precedence.Proofs.Scanner.Transcript
import Precedence.Proofs.Session
import Precedence.Scanner.Window

/-!
# What a window keeps

However it is used, a window stands over one stretch of the transcript of its scanner.  The
stretch is told by three positions that never go back: the oldest reading kept, the cursor, and the
number of readings that the scanner has been asked for.  Each use of a window does to the three what
its name says, and nothing that lies ahead of the cursor is lost unless the budget shrinks.
-/

namespace Precedence

/-- The oldest reading that a budget lets a window keep, once it has read up to `frontier`. -/
def Budget.floor : Budget → Nat → Nat
  | .unbounded, _ => 0
  | .max n, frontier => frontier - n

theorem Budget.floor_le (budget : Budget) (frontier : Nat) : budget.floor frontier ≤ frontier := by
  cases budget with
  | unbounded => exact Nat.zero_le frontier
  | max n => exact Nat.sub_le frontier n

/-- A use of a window. -/
inductive Call
  | next
  | move (motion : Motion)
  deriving DecidableEq

namespace Window

variable {σ : Type} [Scanner σ]

/-- What a use of a window gives, and the window afterwards. -/
def answer : Call → Window σ → Option Reading × Window σ
  | .next, window => (some window.next.1, window.next.2)
  | .move motion, window => (none, window.move motion)

end Window

/-- The stretch of a transcript that a window stands over: it keeps readings `base` to `frontier`,
its cursor is before reading `pos`, and its scanner has been asked for `frontier` readings. -/
structure Extent where
  budget : Budget
  base : Nat
  pos : Nat
  frontier : Nat
  base_le_pos : base ≤ pos
  pos_le_frontier : pos ≤ frontier

namespace Extent

def start (budget : Budget) : Extent := ⟨budget, 0, 0, 0, Nat.le_refl 0, Nat.le_refl 0⟩

/-- Lets go of the readings that the budget has no room for. -/
def trim (extent : Extent) : Extent :=
  let base := max extent.base (extent.budget.floor extent.frontier)
  have hbase : base ≤ extent.frontier :=
    Nat.max_le.mpr ⟨Nat.le_trans extent.base_le_pos extent.pos_le_frontier, Budget.floor_le _ _⟩
  { extent with
    base, pos := max extent.pos base
    base_le_pos := Nat.le_max_right _ _
    pos_le_frontier := Nat.max_le.mpr ⟨extent.pos_le_frontier, hbase⟩ }

def move : Motion → Extent → Extent
  | .backtrack, extent =>
      { extent with
        pos := extent.base
        base_le_pos := Nat.le_refl _
        pos_le_frontier := Nat.le_trans extent.base_le_pos extent.pos_le_frontier }
  | .rewind n, extent =>
      { extent with
        pos := max extent.base (extent.pos - n)
        base_le_pos := Nat.le_max_left _ _
        pos_le_frontier := Nat.le_trans
          (Nat.max_le.mpr ⟨extent.base_le_pos, Nat.sub_le _ _⟩) extent.pos_le_frontier }
  | .accept leave, extent =>
      { extent with
        base := max extent.base (extent.pos - leave)
        base_le_pos := Nat.max_le.mpr ⟨extent.base_le_pos, Nat.sub_le _ _⟩ }
  | .setBudget budget, extent => trim { extent with budget }

/-- Asks the scanner once more. -/
def extend (extent : Extent) : Extent :=
  trim
    { extent with
      pos := extent.frontier + 1, frontier := extent.frontier + 1
      base_le_pos := Nat.le_trans extent.base_le_pos (Nat.le_succ_of_le extent.pos_le_frontier)
      pos_le_frontier := Nat.le_refl _ }

/-- The reading before which the cursor is, from what is kept or from the scanner; past the first
end of the transcript, that end. -/
def next (transcript : Transcript) (extent : Extent) : Reading × Extent :=
  if hkept : extent.pos < extent.frontier then
    (transcript extent.pos, { extent with
      pos := extent.pos + 1
      base_le_pos := Nat.le_succ_of_le extent.base_le_pos
      pos_le_frontier := hkept })
  else if transcript.ended extent.frontier then (transcript (extent.frontier - 1), extent)
  else (transcript extent.pos, extent.extend)

def answer (transcript : Transcript) : Call → Extent → Option Reading × Extent
  | .next, extent => (some (extent.next transcript).1, (extent.next transcript).2)
  | .move motion, extent => (none, extent.move motion)

/-- What a window has let go of does not come back. -/
theorem base_le_answer (transcript : Transcript) (call : Call) (extent : Extent) :
    extent.base ≤ (extent.answer transcript call).2.base := by
  cases call with
  | next =>
      rw [answer, next]
      split
      · exact Nat.le_refl _
      · split
        · exact Nat.le_refl _
        · exact Nat.le_max_left _ _
  | move motion =>
      cases motion with
      | backtrack => exact Nat.le_refl _
      | rewind n => exact Nat.le_refl _
      | accept leave => exact Nat.le_max_left _ _
      | setBudget budget => exact Nat.le_max_left _ _

end Extent

namespace Window

open Scanner

variable {σ : Type} [Scanner σ] {source : σ} {extent : Extent} {window : Window σ}

/-- The window over `source` stands over the stretch of its transcript that `extent` tells. -/
structure Covers (source : σ) (extent : Extent) (window : Window σ) : Prop where
  budget_eq : window.budget = extent.budget
  behind_eq : window.behind = ((transcript source).slice extent.base extent.pos).reverse
  ahead_eq : window.ahead = (transcript source).slice extent.pos extent.frontier
  source_eq : window.source =
    if (transcript source).ended extent.frontier then none else some (take extent.frontier source).2
  last_eq : (transcript source).ended extent.frontier →
    transcript source (extent.frontier - 1) = .ok window.last
  unended : ∀ pos < extent.frontier, (transcript source).ended pos = false
  floor_le : extent.budget.floor extent.frontier ≤ extent.base

theorem covers_ofScanner (source : σ) (budget : Budget) :
    Covers source (.start budget) (ofScanner source budget) where
  budget_eq := rfl
  behind_eq := rfl
  ahead_eq := rfl
  source_eq := rfl
  last_eq := nofun
  unended _ hpos := absurd hpos (Nat.not_lt_zero _)
  floor_le := Budget.floor_le budget 0

theorem Covers.kept_eq (hcovers : Covers source extent window) :
    window.behind.reverse ++ window.ahead =
      (transcript source).slice extent.base extent.frontier := by
  rw [hcovers.behind_eq, hcovers.ahead_eq, List.reverse_reverse,
    Transcript.slice_append _ extent.base_le_pos extent.pos_le_frontier]

theorem Covers.size_eq (hcovers : Covers source extent window) :
    window.size = extent.frontier - extent.base := by
  have hbase := extent.base_le_pos
  have hpos := extent.pos_le_frontier
  rw [size, hcovers.behind_eq, hcovers.ahead_eq, List.length_reverse, Transcript.length_slice,
    Transcript.length_slice]
  omega

theorem Covers.pos?_eq (hcovers : Covers source extent window) :
    window.pos? =
      if extent.pos = extent.base then none else some (extent.pos - extent.base - 1) := by
  have hlength : window.behind.length = extent.pos - extent.base := by
    rw [hcovers.behind_eq, List.length_reverse, Transcript.length_slice]
  have hbase := extent.base_le_pos
  cases hbehind : window.behind with
  | nil =>
      rw [hbehind, List.length_nil] at hlength
      rw [pos?, hbehind, if_pos (by omega)]
  | cons reading older =>
      rw [hbehind, List.length_cons] at hlength
      rw [pos?, hbehind, if_neg (by omega), ← hlength, Nat.add_sub_cancel]

theorem Covers.size_le (hcovers : Covers source extent window) {n : Nat}
    (hbudget : window.budget = .max n) : window.size ≤ n := by
  have hfloor := hcovers.floor_le
  rw [← hcovers.budget_eq, hbudget] at hfloor
  rw [hcovers.size_eq]
  simp only [Budget.floor] at hfloor
  omega

theorem Covers.length_behind (hcovers : Covers source extent window) :
    window.behind.length = extent.pos - extent.base := by
  rw [hcovers.behind_eq, List.length_reverse, Transcript.length_slice]

theorem Covers.setBudget (hcovers : Covers source extent window) (budget : Budget) :
    Covers source (extent.move (.setBudget budget)) (window.setBudget budget) := by
  have hbase := extent.base_le_pos
  have hpos := extent.pos_le_frontier
  have hsize := hcovers.size_eq
  have hlength := hcovers.length_behind
  cases budget with
  | unbounded =>
      have hsame : extent.move (.setBudget .unbounded) = { extent with budget := .unbounded } := by
        simp [Extent.move, Extent.trim, Budget.floor, hbase]
      rw [hsame]
      exact { hcovers with budget_eq := rfl, floor_le := Nat.zero_le _ }
  | max n =>
      refine ⟨rfl, ?_, ?_, hcovers.source_eq, hcovers.last_eq, hcovers.unended,
        Nat.le_max_right _ _⟩
      · change window.behind.take (window.behind.length - (window.size - n)) =
          (Transcript.slice _ (max extent.base (extent.frontier - n))
            (max extent.pos (max extent.base (extent.frontier - n)))).reverse
        rw [hlength, hcovers.behind_eq, Transcript.take_reverse_slice]
        rcases Nat.le_total extent.pos (max extent.base (extent.frontier - n)) with hlost | hleft
        · rw [Nat.max_eq_right hlost, Transcript.slice_eq_nil _ (by omega),
            Transcript.slice_eq_nil _ (Nat.le_refl _)]
        · rw [Nat.max_eq_left hleft]
          congr 2
          omega
      · change window.ahead.drop (window.size - n - window.behind.length) =
          Transcript.slice _ (max extent.pos (max extent.base (extent.frontier - n))) _
        rw [hlength, hcovers.ahead_eq, Transcript.drop_slice]
        congr 1
        omega

theorem Covers.move (hcovers : Covers source extent window) (motion : Motion) :
    Covers source (extent.move motion) (window.move motion) := by
  have hbase := extent.base_le_pos
  have hpos := extent.pos_le_frontier
  have hfloor := hcovers.floor_le
  cases motion with
  | backtrack =>
      refine { hcovers with behind_eq := ?_, ahead_eq := hcovers.kept_eq }
      exact (congrArg List.reverse (Transcript.slice_eq_nil _ (Nat.le_refl _))).symm
  | rewind n =>
      refine { hcovers with behind_eq := ?_, ahead_eq := ?_ }
      · exact (congrArg (List.drop n) hcovers.behind_eq).trans
          (Transcript.drop_reverse_slice _ n hbase)
      · change (window.behind.take n).reverse ++ window.ahead =
          Transcript.slice _ (max extent.base (extent.pos - n)) extent.frontier
        rw [hcovers.behind_eq, Transcript.take_reverse_slice, List.reverse_reverse,
          hcovers.ahead_eq, Transcript.slice_append]
        · exact Nat.max_le.mpr ⟨hbase, Nat.sub_le _ _⟩
        · exact hpos
  | accept leave =>
      refine { hcovers with behind_eq := ?_, floor_le := Nat.le_trans hfloor (Nat.le_max_left _ _) }
      exact (congrArg (List.take leave) hcovers.behind_eq).trans
        (Transcript.take_reverse_slice _ leave _ _)
  | setBudget budget => exact hcovers.setBudget budget

omit [Scanner σ] in
/-- What is kept behind the cursor once one more reading is. -/
theorem behind_keep {transcript : Transcript} {base frontier : Nat} {window : Window σ}
    (hbehind : window.behind = (transcript.slice base frontier).reverse) (hle : base ≤ frontier) :
    (window.keep (transcript frontier)).behind =
      (transcript.slice (max base (window.budget.floor (frontier + 1)))
        (frontier + 1)).reverse := by
  have hkept : transcript frontier :: window.behind =
      (transcript.slice base (frontier + 1)).reverse := by
    rw [Transcript.slice_succ _ hle, List.reverse_concat, hbehind]
  rw [keep]
  cases hbudget : window.budget with
  | unbounded => exact hkept.trans (by rw [Budget.floor, Nat.max_eq_left (Nat.zero_le _)])
  | max n => exact (congrArg (List.take n) hkept).trans (Transcript.take_reverse_slice _ n _ _)

/-- A reader past what is kept asks the scanner and keeps what it gives. -/
theorem Covers.extend (hcovers : Covers source extent window)
    (hpos : extent.pos = extent.frontier)
    (hended : (transcript source).ended extent.frontier = false) :
    window.next.1 = transcript source extent.pos ∧
      Covers source extent.extend window.next.2 := by
  have hahead : window.ahead = [] := by
    rw [hcovers.ahead_eq, Transcript.slice_eq_nil _ (Nat.le_of_eq hpos.symm)]
  have hsource : window.source = some (take extent.frontier source).2 := by
    rw [hcovers.source_eq, hended]
    rfl
  have hbehind : window.behind =
      ((transcript source).slice extent.base extent.frontier).reverse := hpos ▸ hcovers.behind_eq
  have hnext : window.next = (transcript source extent.frontier,
      (latch (transcript source extent.frontier)
        { window with source := some (take (extent.frontier + 1) source).2 }).keep
          (transcript source extent.frontier)) := by
    simp only [Window.next, hahead, readSource, hsource, next_take]
  have hbase : extent.base ≤ extent.frontier := hpos ▸ extent.base_le_pos
  have hextend : extent.extend.pos = extent.frontier + 1 := by
    have hfloor := extent.budget.floor_le (extent.frontier + 1)
    simp only [Extent.extend, Extent.trim]
    omega
  rw [hnext, hpos]
  refine ⟨rfl, ?_⟩
  constructor
  case budget_eq =>
    rw [budget_keep, budget_latch]
    exact hcovers.budget_eq
  case behind_eq =>
    rw [behind_keep (by simpa using hbehind) hbase, budget_latch, hextend]
    dsimp only
    rw [hcovers.budget_eq]
    rfl
  case ahead_eq =>
    rw [ahead_keep, ahead_latch, hextend]
    exact hahead.trans (Transcript.slice_eq_nil _ (Nat.le_refl _)).symm
  case source_eq =>
    rw [source_keep, latch_eq]
    rfl
  case last_eq =>
    intro hend
    rw [last_keep]
    exact last_latch hend _
  case unended =>
    intro pos hlt
    rcases Nat.lt_succ_iff_lt_or_eq.mp hlt with hearlier | rfl
    · exact hcovers.unended pos hearlier
    · exact hended
  case floor_le => exact Nat.le_max_right _ _

theorem Covers.next (hcovers : Covers source extent window) :
    window.next.1 = (extent.next (transcript source)).1 ∧
      Covers source (extent.next (transcript source)).2 window.next.2 := by
  rw [Extent.next]
  split
  · next hkept =>
      have hahead := hcovers.ahead_eq
      rw [Transcript.slice_eq_cons _ hkept] at hahead
      rw [Window.next, hahead]
      refine ⟨rfl, { hcovers with behind_eq := ?_, ahead_eq := rfl }⟩
      change _ :: window.behind = _
      rw [Transcript.slice_succ _ extent.base_le_pos, List.reverse_concat, hcovers.behind_eq]
  · next hkept =>
      have hpos : extent.pos = extent.frontier :=
        Nat.le_antisymm extent.pos_le_frontier (Nat.not_lt.mp hkept)
      cases hended : (transcript source).ended extent.frontier with
      | true =>
          have hahead : window.ahead = [] := by
            rw [hcovers.ahead_eq, Transcript.slice_eq_nil _ (Nat.le_of_eq hpos.symm)]
          have hsource : window.source = none := by
            rw [hcovers.source_eq, hended]
            rfl
          have hnext : window.next = (.ok window.last, window) := by
            simp only [Window.next, hahead, readSource, hsource]
          rw [hnext, if_pos rfl]
          exact ⟨(hcovers.last_eq hended).symm, hcovers⟩
      | false => exact hcovers.extend hpos hended

theorem Covers.answer (hcovers : Covers source extent window) (call : Call) :
    (window.answer call).1 = (extent.answer (transcript source) call).1 ∧
      Covers source (extent.answer (transcript source) call).2 (window.answer call).2 := by
  cases call with
  | next =>
      obtain ⟨hreading, hrest⟩ := hcovers.next
      exact ⟨congrArg some hreading, hrest⟩
  | move motion => exact ⟨rfl, hcovers.move motion⟩

theorem Covers.more_eq (hcovers : Covers source extent window) :
    window.more =
      if extent.pos < extent.frontier then !(transcript source extent.pos).isEof
      else !(transcript source).ended extent.frontier := by
  rw [more, hcovers.ahead_eq]
  by_cases hkept : extent.pos < extent.frontier
  · rw [if_pos hkept, Transcript.slice_eq_cons _ hkept]
  · rw [if_neg hkept, Transcript.slice_eq_nil _ (Nat.not_lt.mp hkept), hcovers.source_eq]
    cases (transcript source).ended extent.frontier <;> rfl

omit [Scanner σ] in
/-- Only a budget that does not fit takes readings from ahead of the cursor. -/
theorem ahead_suffix_move (window : Window σ) {motion : Motion}
    (hfits : ∀ n, motion = .setBudget (.max n) → window.size ≤ n) :
    window.ahead <:+ (window.move motion).ahead := by
  cases motion with
  | backtrack => exact List.suffix_append _ _
  | rewind n => exact List.suffix_append _ _
  | accept leave => exact List.suffix_refl _
  | setBudget budget =>
      cases budget with
      | unbounded => exact List.suffix_refl _
      | max n =>
          have hexcess : window.size - n = 0 := Nat.sub_eq_zero_of_le (hfits n rfl)
          have hdrop : window.ahead.drop (window.size - n - window.behind.length) =
              window.ahead := by
            rw [hexcess, Nat.zero_sub, List.drop_zero]
          exact ⟨[], hdrop.symm⟩

theorem ahead_next (window : Window σ) : window.next.2.ahead = window.ahead.tail := by
  rw [next]
  cases hahead : window.ahead with
  | cons reading ahead => rfl
  | nil =>
      cases hsource : window.source with
      | none => simp [readSource, hsource, hahead]
      | some source => simp [readSource, hsource, hahead]

/-- A window shows the transcript of its scanner and nothing else.  Some uses of a new window come
to an extent by the rules of `Extent.answer`, which give the same readings; the window keeps the
readings of that extent, and has asked its scanner for them and never again after an end.  It
keeps no more than its budget, and loses a reading that is ahead of the cursor only to a budget
that is too small for what it keeps. -/
theorem answers_follow_extent (source : σ) (budget : Budget) (calls : List Call) :
    ∃ results window extent,
      answers answer calls (ofScanner source budget) = (results, window) ∧
      answers (Extent.answer (transcript source)) calls (.start budget) = (results, extent) ∧
      window.behind.reverse ++ window.ahead =
        (transcript source).slice extent.base extent.frontier ∧
      window.size = extent.frontier - extent.base ∧
      window.pos? =
        (if extent.pos = extent.base then none else some (extent.pos - extent.base - 1)) ∧
      window.source =
        (if (transcript source).ended extent.frontier then none
        else some (take extent.frontier source).2) ∧
      (∀ pos < extent.frontier, (transcript source).ended pos = false) ∧
      (∀ n, window.budget = .max n → window.size ≤ n) ∧
      window.next.2.ahead = window.ahead.tail ∧
      ∀ motion, (∀ n, motion = .setBudget (.max n) → window.size ≤ n) →
        window.ahead <:+ (window.move motion).ahead := by
  obtain ⟨hresults, hcovers⟩ := answers_alike
    (R := fun window extent => Covers source extent window)
    (fun call _ _ hcovers => hcovers.answer call) calls (covers_ofScanner source budget)
  exact ⟨_, _, _, rfl, Prod.ext hresults.symm rfl, hcovers.kept_eq, hcovers.size_eq,
    hcovers.pos?_eq, hcovers.source_eq, hcovers.unended, fun _ => hcovers.size_le,
    ahead_next _, fun _ => ahead_suffix_move _⟩

end Window

end Precedence
