import Precedence.Proofs.Lexer.Rewinding

/-!
# Whether there is more to read

A window tells whether there is more to read from the one reading after its cursor, or from whether
it still has its scanner.  That is enough, because an end is kept only as the last reading, and the
scanner is gone by then.  So the answer no is final, and after the answer yes the end comes only
from a scanner that was still there and had not been asked.
-/

namespace Precedence

open Scanner

namespace Window

variable {σ : Type} [Scanner σ] {source : σ} {extent : Extent} {window : Window σ}

/-- Whether a use of a window asks its scanner. -/
def asks (window : Window σ) : Call → Bool
  | .next => window.ahead.isEmpty && window.source.isSome
  | .move _ => false

/-- How often some uses of a window ask its scanner. -/
def reads : List Call → Window σ → Nat
  | [], _ => 0
  | call :: calls, window =>
      (if window.asks call then 1 else 0) + reads calls (window.answer call).2

/-- Everything that a window keeps, the oldest reading first. -/
def kept (window : Window σ) : List Reading := window.behind.reverse ++ window.ahead

theorem Covers.mem_kept (hcovers : Covers source extent window) {reading : Reading} :
    reading ∈ window.kept ↔
      ∃ pos, (extent.base ≤ pos ∧ pos < extent.frontier) ∧ transcript source pos = reading := by
  rw [kept, hcovers.kept_eq, Transcript.mem_slice]

theorem Covers.asks_next (hcovers : Covers source extent window) :
    window.asks .next = true ↔
      extent.frontier ≤ extent.pos ∧ (transcript source).ended extent.frontier = false := by
  rw [asks, Bool.and_eq_true, List.isEmpty_iff, hcovers.ahead_eq, hcovers.source_eq]
  refine and_congr ⟨fun hnone => ?_, Transcript.slice_eq_nil _⟩ ?_
  · by_contra hkept
    rw [Transcript.slice_eq_cons _ (Nat.not_le.mp hkept)] at hnone
    cases hnone
  · cases (transcript source).ended extent.frontier <;> simp

/-- The frontier counts the readings that the scanner is asked for. -/
theorem Covers.frontier_answer (hcovers : Covers source extent window) (call : Call) :
    (extent.answer (transcript source) call).2.frontier =
      extent.frontier + if window.asks call then 1 else 0 := by
  cases call with
  | move motion => cases motion <;> rfl
  | next =>
      simp only [hcovers.asks_next]
      rw [Extent.answer, Extent.next]
      split
      · next hkept =>
          rw [if_neg fun hasks => Nat.not_le.mpr hkept hasks.1]
          rfl
      · next hkept =>
          split
          · next hended =>
              rw [if_neg fun hasks => Bool.false_ne_true (hasks.2.symm.trans hended)]
              rfl
          · next hopen =>
              rw [if_pos ⟨Nat.not_lt.mp hkept, Bool.not_eq_true _ ▸ hopen⟩]
              rfl

theorem Covers.answers (hcovers : Covers source extent window) (calls : List Call) :
    ∃ last, Covers source last (Precedence.answers Window.answer calls window).2 ∧
      last.frontier = extent.frontier + reads calls window := by
  induction calls generalizing extent window with
  | nil => exact ⟨extent, hcovers, rfl⟩
  | cons call calls ih =>
      obtain ⟨last, hlast, hfrontier⟩ := ih (hcovers.answer call).2
      refine ⟨last, hlast, ?_⟩
      rw [hfrontier, hcovers.frontier_answer, reads, Nat.add_assoc]

/-- A window has no scanner just when the latest reading of its scanner was an end, which is the one
that it gives from then on. -/
theorem Covers.source_eq_none_iff (hcovers : Covers source extent window) :
    window.source = none ↔ (transcript source).ended extent.frontier = true := by
  rw [hcovers.source_eq]
  split
  · next hended => exact iff_of_true rfl hended
  · next hopen => exact iff_of_false nofun hopen

theorem Covers.last_isEof (hcovers : Covers source extent window) (hsource : window.source = none) :
    window.last.isEof = true := by
  have hended := hcovers.source_eq_none_iff.mp hsource
  have hlast := hcovers.last_eq hended
  cases hfrontier : extent.frontier with
  | zero =>
      rw [hfrontier] at hended
      cases hended
  | succ latest =>
      rw [hfrontier] at hended hlast
      exact (congrArg Reading.isEof hlast).symm.trans hended

/-- Among the readings of the scanner only the latest one can be an end, and with it the scanner is
dropped. -/
theorem Covers.of_isEof (hcovers : Covers source extent window) {pos : Nat}
    (hlt : pos < extent.frontier) (hend : (transcript source pos).isEof = true) :
    extent.frontier = pos + 1 ∧ window.source = none ∧ transcript source pos = .ok window.last := by
  have hended : (transcript source).ended (pos + 1) = true := hend
  have hfrontier : extent.frontier = pos + 1 := by
    by_contra hlatest
    rw [hcovers.unended (pos + 1) (by omega)] at hended
    cases hended
  refine ⟨hfrontier, ?_, ?_⟩
  · rw [hcovers.source_eq_none_iff, hfrontier]
    exact hended
  · have hlast := hcovers.last_eq (hfrontier ▸ hended)
    rwa [hfrontier, Nat.add_sub_cancel] at hlast

/-- After the answer no, at most the end is left to be given again. -/
theorem Covers.of_more_eq_false (hcovers : Covers source extent window)
    (hmore : window.more = false) :
    window.source = none ∧ (window.ahead = [] ∨ window.ahead = [.ok window.last]) := by
  have hahead := hcovers.ahead_eq
  rw [hcovers.more_eq] at hmore
  split at hmore
  · next hkept =>
      obtain ⟨hfrontier, hsource, hlast⟩ := hcovers.of_isEof hkept (by simpa using hmore)
      rw [hfrontier, Transcript.slice_succ _ (Nat.le_refl _),
        Transcript.slice_eq_nil _ (Nat.le_refl _), hlast] at hahead
      exact ⟨hsource, .inr hahead⟩
  · next hkept =>
      rw [Transcript.slice_eq_nil _ (Nat.not_lt.mp hkept)] at hahead
      exact ⟨hcovers.source_eq_none_iff.mpr (by simpa using hmore), .inl hahead⟩

/-- The answer no is final. -/
theorem Covers.take_of_more_eq_false (hcovers : Covers source extent window)
    (hmore : window.more = false) (n : Nat) :
    (take n window).1 = List.replicate n (.ok window.last) := by
  obtain ⟨hsource, hahead | hahead⟩ := hcovers.of_more_eq_false hmore
  · rw [take_of_spent ⟨hsource, hahead⟩]
  · cases n with
    | zero => rfl
    | succ n =>
        let spent := { window with behind := .ok window.last :: window.behind, ahead := [] }
        have hspent : spent.Spent := ⟨hsource, rfl⟩
        have hnext : Scanner.next window = (.ok window.last, spent) := by
          change Window.next window = _
          rw [Window.next, hahead]
        rw [take, hnext]
        dsimp only
        rw [take_of_spent hspent, List.replicate_succ]

/-- Past what is kept, a window gives what its scanner gives. -/
theorem next_of_live {live : σ} (hsource : window.source = some live) (hahead : window.ahead = []) :
    window.next.1 = (Scanner.next live).1 := by
  simp only [Window.next, hahead, readSource, hsource]

/-- After the answer yes, the end comes only from the scanner. -/
theorem isEof_next_iff (hmore : window.more = true) :
    window.next.1.isEof = true ↔
      window.ahead = [] ∧ ∃ live ∈ window.source, (Scanner.next live).1.isEof = true := by
  constructor
  · intro hend
    cases hahead : window.ahead with
    | cons reading ahead =>
        rw [more, hahead] at hmore
        rw [Window.next, hahead] at hend
        simp [hend] at hmore
    | nil =>
        rw [more, hahead] at hmore
        obtain ⟨live, hsource⟩ := Option.isSome_iff_exists.mp hmore
        rw [next_of_live hsource hahead] at hend
        exact ⟨rfl, live, hsource, hend⟩
  · rintro ⟨hahead, live, hsource, hend⟩
    rw [next_of_live hsource hahead, hend]

/-- A scanner that is still there has not given an end. -/
theorem Covers.live_eq (hcovers : Covers source extent window) {live : σ}
    (hsource : window.source = some live) :
    live = (take extent.frontier source).2 ∧
      ∀ reading ∈ (take extent.frontier source).1, reading.isEof = false := by
  have hopen : ¬ (transcript source).ended extent.frontier = true := by
    rw [← hcovers.source_eq_none_iff, hsource]
    nofun
  rw [hcovers.source_eq, if_neg hopen] at hsource
  refine ⟨(Option.some.inj hsource).symm, fun reading hmem => ?_⟩
  rw [take_eq_map] at hmem
  obtain ⟨pos, hpos, rfl⟩ := List.mem_map.mp hmem
  -- An end before would have been the latest reading, and the scanner would be gone.
  by_contra hend
  rw [Bool.not_eq_false] at hend
  exact hopen (hcovers.source_eq_none_iff.mp
    (hcovers.of_isEof (List.mem_range.mp hpos) hend).2.1)

/-- An end is kept only as the last reading. -/
theorem Covers.isEof_of_mem_dropLast (hcovers : Covers source extent window) {reading : Reading}
    (hmem : reading ∈ window.kept.dropLast) : reading.isEof = false := by
  rw [kept, hcovers.kept_eq] at hmem
  rcases Nat.lt_or_ge extent.base extent.frontier with hlt | hle
  · obtain ⟨latest, hlatest⟩ := Nat.exists_eq_add_of_lt hlt
    rw [hlatest, Transcript.slice_succ _ (Nat.le_add_right _ _), List.dropLast_concat,
      Transcript.mem_slice] at hmem
    obtain ⟨pos, ⟨-, hpos⟩, rfl⟩ := hmem
    exact hcovers.unended (pos + 1) (by omega)
  · rw [Transcript.slice_eq_nil _ hle] at hmem
    cases hmem

/-- However a window has been used, it answers no just when its scanner is gone and the end comes
next, and then that end comes as often as it is asked for.  After the answer yes the end comes only
where the window asks a scanner that has given no end, as often as it has been asked, and gives one
now.  What is kept has at most one end, which is its last reading and the one with which the scanner
was dropped. -/
theorem more_exact (source : σ) (budget : Budget) (calls : List Call) :
    let window := (answers answer calls (ofScanner source budget)).2
    (window.more = false ↔ window.source = none ∧ window.next.1.isEof = true) ∧
    (window.more = false → window.last.isEof = true ∧
      ∀ n, (take n window).1 = List.replicate n (.ok window.last)) ∧
    (window.more = true → (window.next.1.isEof = true ↔
      window.ahead = [] ∧ ∃ live ∈ window.source, (Scanner.next live).1.isEof = true)) ∧
    (∀ live ∈ window.source,
      live = (take (reads calls (ofScanner source budget)) source).2 ∧
      ∀ reading ∈ (take (reads calls (ofScanner source budget)) source).1,
        reading.isEof = false) ∧
    (∀ reading ∈ window.kept.dropLast, reading.isEof = false) ∧
    ∀ reading ∈ window.kept, reading.isEof = true →
      window.source = none ∧ reading = .ok window.last := by
  intro window
  obtain ⟨extent, hcovers, hfrontier⟩ := (covers_ofScanner source budget).answers calls
  have hreads : extent.frontier = reads calls (ofScanner source budget) :=
    hfrontier.trans (Nat.zero_add _)
  refine ⟨⟨fun hmore => ?_, fun hend => ?_⟩, fun hmore => ?_, isEof_next_iff,
    fun live => hreads ▸ hcovers.live_eq, fun reading => hcovers.isEof_of_mem_dropLast,
    fun reading hmem hend => ?_⟩
  · have hsource := (hcovers.of_more_eq_false hmore).1
    have hnext : window.next.1 = .ok window.last :=
      (List.cons.inj (hcovers.take_of_more_eq_false hmore 1)).1
    rw [hnext]
    exact ⟨hsource, hcovers.last_isEof hsource⟩
  · obtain ⟨hsource, hend⟩ := hend
    by_contra hmore
    rw [Bool.not_eq_false] at hmore
    obtain ⟨-, live, hlive, -⟩ := (isEof_next_iff hmore).mp hend
    rw [hsource] at hlive
    cases hlive
  · exact ⟨hcovers.last_isEof (hcovers.of_more_eq_false hmore).1,
      hcovers.take_of_more_eq_false hmore⟩
  · obtain ⟨pos, ⟨-, hlt⟩, rfl⟩ := hcovers.mem_kept.mp hmem
    exact (hcovers.of_isEof hlt hend).2

/-- A scanner that has not been asked may have ended already. -/
example :
    let window := ofScanner (Playback.mk []) .unbounded
    window.more = true ∧ window.next.1 = .ok .eof ∧ window.next.2.more = false :=
  ⟨rfl, rfl, rfl⟩

end Window

end Precedence
