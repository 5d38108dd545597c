import Precedence.Proofs.Lexer.Replay

/-!
# Rewinding

Going back by `n` readings and reading `n` times shows the last `n` readings that moved the cursor,
and leaves the window as it was.  An end that is given again moves no cursor.  So look-ahead can be
taken back by the number of its readings as long as it stops at the first end.
-/

namespace Precedence

open Scanner

/-- The readings up to the first end, which is one of them. -/
def Reading.throughEnd : List Reading → List Reading
  | [] => []
  | reading :: readings => if reading.isEof then [reading] else reading :: throughEnd readings

theorem Reading.throughEnd_of_open {readings : List Reading}
    (hopen : ∀ reading ∈ readings.dropLast, reading.isEof = false) :
    throughEnd readings = readings := by
  induction readings with
  | nil => rfl
  | cons reading readings ih =>
      cases readings with
      | nil =>
          rw [throughEnd]
          split <;> rfl
      | cons next readings =>
          rw [List.dropLast_cons_cons] at hopen
          rw [throughEnd, hopen reading List.mem_cons_self, if_neg Bool.false_ne_true,
            ih fun other hmem => hopen other (List.mem_cons_of_mem _ hmem)]

theorem Reading.throughEnd_of_append {before after : List Reading}
    (hself : throughEnd (before ++ after) = before ++ after) : throughEnd before = before := by
  induction before with
  | nil => rfl
  | cons reading before ih =>
      rw [List.cons_append, throughEnd] at hself
      rw [throughEnd]
      cases hend : reading.isEof with
      | true =>
          rw [hend, if_pos rfl] at hself
          have hrest := (List.append_eq_nil_iff.mp (List.cons.inj hself).2.symm).1
          rw [if_pos rfl, hrest]
      | false =>
          rw [hend, if_neg Bool.false_ne_true] at hself
          rw [if_neg Bool.false_ne_true, ih (List.cons.inj hself).2]

namespace Window

variable {σ : Type} [Scanner σ] {source : σ} {window : Window σ} {start pos n k : Nat}

/-- Nothing but the end of the scanner is left, and it has been given already. -/
def Spent (window : Window σ) : Prop := window.source = none ∧ window.ahead = []

theorem next_of_spent (hspent : window.Spent) : window.next = (.ok window.last, window) := by
  obtain ⟨hsource, hahead⟩ := hspent
  simp only [Window.next, hahead, readSource, hsource]

theorem take_of_spent (hspent : window.Spent) (n : Nat) :
    take n window = (List.replicate n (.ok window.last), window) := by
  induction n with
  | zero => rfl
  | succ n ih =>
      have hnext : Scanner.next window = (.ok window.last, window) := next_of_spent hspent
      rw [take, hnext]
      simp only [ih, List.replicate_succ]

/-- One step back is undone by one reading. -/
theorem next_rewind_succ (hlt : n < window.behind.length) :
    (window.rewind (n + 1)).next = (window.behind[n], window.rewind n) := by
  have hahead : (window.rewind (n + 1)).ahead =
      window.behind[n] :: ((window.behind.take n).reverse ++ window.ahead) := by
    rw [rewind, List.take_succ_eq_append_getElem hlt, List.reverse_append]
    rfl
  rw [Window.next, hahead]
  simp only [rewind, List.getElem_cons_drop]

omit [Scanner σ] in
theorem rewind_of_oldest (holdest : window.behind = []) (n : Nat) : window.rewind n = window := by
  obtain ⟨source, behind, ahead, budget, last⟩ := window
  cases holdest
  simp [rewind]

theorem take_rewind_of_le (hle : n ≤ window.behind.length) :
    take n (window.rewind n) = ((window.behind.take n).reverse, window) := by
  induction n with
  | zero => rfl
  | succ n ih =>
      have hnext : Scanner.next (window.rewind (n + 1)) = (window.behind[n], window.rewind n) :=
        next_rewind_succ hle
      rw [take, hnext]
      simp only [ih (Nat.le_of_succ_le hle)]
      rw [List.take_succ_eq_append_getElem hle, List.reverse_append]
      rfl

/-- The readings behind the cursor come again, and then the end as often as it is asked for. -/
theorem take_rewind (hn : n ≤ window.behind.length ∨ window.Spent) :
    take n (window.rewind n) =
      (window.behind.reverse.drop (window.behind.length - n) ++
        List.replicate (n - window.behind.length) (.ok window.last), window) := by
  by_cases hle : n ≤ window.behind.length
  · rw [take_rewind_of_le hle, List.reverse_take, Nat.sub_eq_zero_of_le hle, List.replicate_zero,
      List.append_nil]
  · obtain ⟨more, rfl⟩ := Nat.exists_eq_add_of_le (Nat.le_of_not_le hle)
    have hspent := hn.resolve_left hle
    have hall : window.rewind (window.behind.length + more) =
        window.rewind window.behind.length := by
      simp only [rewind, List.drop_of_length_le (Nat.le_add_right _ _), List.drop_length,
        List.take_of_length_le (Nat.le_add_right _ _), List.take_length]
    rw [hall, take_append, take_rewind_of_le (Nat.le_refl _), take_of_spent hspent,
      List.take_length, Nat.sub_eq_zero_of_le (Nat.le_add_right _ _), List.drop_zero,
      Nat.add_sub_cancel_left]

theorem Spans.behind_eq (hspans : window.Spans source start pos) :
    window.behind = ((transcript source).slice start pos).reverse := by
  obtain ⟨extent, hcovers, -, rfl, rfl⟩ := hspans
  exact hcovers.behind_eq

theorem Spans.spent_iff (hspans : window.Spans source start pos) :
    window.Spent ↔ (transcript source).ended pos = true := by
  obtain ⟨extent, hcovers, -, -, rfl⟩ := hspans
  rw [Spent, hcovers.source_eq, hcovers.ahead_eq]
  constructor
  · rintro ⟨hsource, hahead⟩
    have hlength := congrArg List.length hahead
    rw [Transcript.length_slice, List.length_nil] at hlength
    have hpos := extent.pos_le_frontier
    rw [show extent.pos = extent.frontier by omega]
    by_contra hopen
    rw [if_neg hopen] at hsource
    cases hsource
  · intro hended
    have hpos : extent.pos = extent.frontier := by
      by_contra hmoved
      have hlt := Nat.lt_of_le_of_ne extent.pos_le_frontier hmoved
      rw [hcovers.unended _ hlt] at hended
      cases hended
    exact ⟨if_pos (hpos ▸ hended), Transcript.slice_eq_nil _ (Nat.le_of_eq hpos.symm)⟩

/-- Where the end has not been given, the cursor moves over the readings up to the end. -/
theorem Spans.take (hspans : window.Spans source start pos)
    (hopen : (transcript source).ended pos = false) (k : Nat) :
    ∃ stop, (Scanner.take k window).2.Spans source start stop ∧ pos ≤ stop ∧
      (transcript source).slice pos stop = Reading.throughEnd (Scanner.take k window).1 ∧
      (stop = pos + k ∨ (transcript source).ended stop = true) := by
  induction k generalizing window pos with
  | zero =>
      exact ⟨pos, hspans, Nat.le_refl _, Transcript.slice_eq_nil _ (Nat.le_refl _), .inl rfl⟩
  | succ k ih =>
      obtain ⟨hreading, hrest⟩ := hspans.next
      rw [Lexer.readAt_of_unended hopen] at hreading hrest
      change ∃ stop, (Scanner.take k window.next.2).2.Spans source start stop ∧ pos ≤ stop ∧
        _ = Reading.throughEnd (window.next.1 :: (Scanner.take k window.next.2).1) ∧ _
      rw [hreading, Reading.throughEnd]
      cases hend : (transcript source pos).isEof with
      | true =>
          have hended : (transcript source).ended (pos + 1) = true := hend
          rw [take_of_spent (hrest.spent_iff.mpr hended)]
          refine ⟨pos + 1, hrest, Nat.le_succ _, ?_, .inr hended⟩
          rw [Transcript.slice_succ _ (Nat.le_refl _),
            Transcript.slice_eq_nil _ (Nat.le_refl _)]
          rfl
      | false =>
          obtain ⟨stop, hstop, hle, hslice, hcount⟩ := ih hrest hend
          refine ⟨stop, hstop, Nat.le_of_succ_le hle, ?_, hcount.imp_left (by omega)⟩
          rw [Transcript.slice_eq_cons _ hle, hslice]
          rfl

/-- A window in use, without a budget and with its cursor at the oldest reading that it keeps. -/
theorem spans_of_answers {budget : Budget} {calls : List Call}
    (hcalls : (answers answer calls (ofScanner source budget)).2 = window)
    (hbudget : window.budget = .unbounded) (holdest : window.behind = []) :
    ∃ start, window.Spans source start start := by
  obtain ⟨-, hcovers⟩ := answers_alike
    (R := fun window extent => Covers source extent window)
    (fun call _ _ hcovers => hcovers.answer call) calls (covers_ofScanner source budget)
  rw [hcalls] at hcovers
  have hlength := hcovers.length_behind
  rw [holdest, List.length_nil] at hlength
  exact ⟨_, _, hcovers, hcovers.budget_eq.symm.trans hbudget, rfl,
    Nat.le_antisymm (Nat.le_of_sub_eq_zero hlength.symm) (Extent.base_le_pos _)⟩

theorem Spans.behind_take (hspans : window.Spans source start start) (hopen : ¬ window.Spent)
    (k : Nat) :
    (Scanner.take k window).2.behind = (Reading.throughEnd (Scanner.take k window).1).reverse ∧
      ((Scanner.take k window).2.behind.length = k ∨ (Scanner.take k window).2.Spent) := by
  rw [hspans.spent_iff, Bool.not_eq_true] at hopen
  obtain ⟨stop, hstop, hle, hslice, hcount⟩ := hspans.take hopen k
  rw [hstop.spent_iff, hstop.behind_eq, hslice]
  refine ⟨rfl, hcount.imp_left ?_⟩
  rintro rfl
  rw [← hslice, List.length_reverse, Transcript.length_slice, Nat.add_sub_cancel_left]

/-- Look-ahead that stops at the first end is taken back by the number of its readings. -/
theorem Spans.unread (hspans : window.Spans source start start) (hopen : ¬ window.Spent)
    (hself : Reading.throughEnd (Scanner.take k window).1 = (Scanner.take k window).1)
    (hle : n ≤ k) :
    (Scanner.take n ((Scanner.take k window).2.rewind n)).1 =
        (Scanner.take k window).1.drop (k - n) ∧
      ((Scanner.take k window).2.rewind n).behind = (Scanner.take (k - n) window).2.behind := by
  obtain ⟨m, rfl⟩ := Nat.exists_eq_add_of_le' hle
  have hbehind := (hspans.behind_take hopen (m + n)).1
  have hlength : (Scanner.take (m + n) window).2.behind.length = m + n := by
    rw [hbehind, hself, List.length_reverse, length_take]
  rw [Nat.add_sub_cancel]
  constructor
  · have hfits := Nat.le_trans hle (Nat.le_of_eq hlength.symm)
    rw [take_rewind (.inl hfits), hlength, hbehind, hself, List.reverse_reverse,
      Nat.add_sub_cancel, Nat.sub_eq_zero_of_le hle, List.replicate_zero, List.append_nil]
  · rw [take_append] at hself hbehind ⊢
    dsimp only at hself hbehind ⊢
    rw [Window.rewind]
    dsimp only
    rw [hbehind, hself, (hspans.behind_take hopen m).1, Reading.throughEnd_of_append hself,
      List.reverse_append]
    exact List.drop_left' ((List.length_reverse).trans (length_take n _))

/-- Rewinding by some of the readings made since the cursor was at the oldest one kept, and reading
as often, always leaves the window as it was.  The readings that come again are the last ones up to
the first end, which is then given as often as it is asked for.  So they are the last readings
made, and what was read before them is left to be committed, if nothing was read past that end. -/
theorem rewind_unreads (source : σ) {budget : Budget} {calls : List Call}
    (hcalls : (answers answer calls (ofScanner source budget)).2 = window)
    (hbudget : window.budget = .unbounded) (holdest : window.behind = []) (hle : n ≤ k) :
    let results := (take k window).1
    let read := (take k window).2
    let rewound := read.move (.rewind n)
    let kept := Reading.throughEnd results
    (take n rewound).2 = read ∧
    (¬ window.Spent → (take n rewound).1 =
      kept.drop (kept.length - n) ++ List.replicate (n - kept.length) (.ok read.last)) ∧
    (window.Spent ∨ (∀ reading ∈ results.dropLast, reading.isEof = false) →
      (take n rewound).1 = results.drop (k - n) ∧
        rewound.behind = (take (k - n) window).2.behind) := by
  intro results read rewound kept
  by_cases hspent : window.Spent
  · have hrewound : rewound = window := by
      simp only [rewound, read, take_of_spent hspent, move, rewind_of_oldest holdest]
    simp only [hrewound, results, read, take_of_spent hspent, List.drop_replicate]
    simp [hspent, Nat.sub_sub_self hle]
  · obtain ⟨start, hspans⟩ := spans_of_answers hcalls hbudget holdest
    obtain ⟨hbehind, hcount⟩ := hspans.behind_take hspent k
    have hagain : take n rewound = _ :=
      take_rewind (hcount.imp_left fun hlength => Nat.le_trans hle (Nat.le_of_eq hlength.symm))
    rw [hbehind, List.reverse_reverse, List.length_reverse] at hagain
    refine ⟨by rw [hagain], fun _ => by rw [hagain], fun hopen => ?_⟩
    · exact hspans.unread hspent (Reading.throughEnd_of_open (hopen.resolve_left hspent)) hle

/-- In `12+` the sign is looked at and taken back, and the digits are left to be committed. -/
theorem rewind_unreads_sign :
    let source : Playback := ⟨[.ok ⟨.char '1', none⟩, .ok ⟨.char '2', none⟩, .ok ⟨.char '+', none⟩]⟩
    let window := ofScanner source .unbounded
    let rewound := (take 3 window).2.move (.rewind 1)
    take 1 rewound = ([.ok ⟨.char '+', none⟩], (take 3 window).2) ∧
      rewound.behind = (take 2 window).2.behind := by
  intro source window rewound
  have hcalls : (answers answer [] (ofScanner source .unbounded)).2 = window := rfl
  obtain ⟨hsame, -, hunread⟩ := rewind_unreads source hcalls rfl rfl (by decide : 1 ≤ 3)
  obtain ⟨hagain, hleft⟩ := hunread (.inr (by decide))
  exact ⟨Prod.ext hagain hsame, hleft⟩

/-- Past the end of `a`, rewinding by two readings takes back a reading that was made before them:
the letter comes again, and nothing is left to be committed. -/
theorem rewind_past_end :
    let window := ofScanner (Playback.mk [.ok ⟨.char 'a', none⟩]) .unbounded
    let read := (take 3 window).2
    let rewound := read.move (.rewind 2)
    (take 3 window).1 = [.ok ⟨.char 'a', none⟩, .ok .eof, .ok .eof] ∧
      (take 2 rewound).1 = [.ok ⟨.char 'a', none⟩, .ok .eof] ∧
      (take 2 rewound).1 ≠ (take 3 window).1.drop 1 ∧
      rewound.behind ≠ (take 1 window).2.behind :=
  ⟨rfl, rfl, by decide, by decide⟩

end Window

end Precedence
