import Precedence.Proofs.Lexer.Round
import Precedence.Proofs.Scanner.Extent

/-!
# Replaying a round

A lexer that begins a round keeps nothing from before the round, and its window replays whatever the
callbacks of the round have read.  So each callback runs as it would over the transcript, and when
the round is over the lexer keeps nothing from before the next one.
-/

namespace Precedence

variable {A C α σ : Type} [Scanner σ]

namespace Window

open Scanner

/-- The window keeps every reading from number `start` on, and its cursor is before number `pos`. -/
def Spans (source : σ) (start pos : Nat) (window : Window σ) : Prop :=
  ∃ extent : Extent, window.Covers source extent ∧ extent.budget = .unbounded ∧
    extent.base = start ∧ extent.pos = pos

variable {source : σ} {start pos : Nat} {window : Window σ}

theorem spans_ofScanner (source : σ) : Spans source 0 0 (ofScanner source .unbounded) :=
  ⟨.start .unbounded, covers_ofScanner source .unbounded, rfl, rfl, rfl⟩

theorem Spans.next (hspans : window.Spans source start pos) :
    window.next.1 = ((transcript source).readAt pos).1 ∧
      window.next.2.Spans source start ((transcript source).readAt pos).2 := by
  obtain ⟨extent, hcovers, hbudget, rfl, rfl⟩ := hspans
  obtain ⟨hreading, hrest⟩ := hcovers.next
  rw [hreading]
  rw [Extent.next] at hrest ⊢
  rw [Transcript.readAt]
  by_cases hkept : extent.pos < extent.frontier
  · rw [dif_pos hkept] at hrest ⊢
    rw [hcovers.unended extent.pos hkept]
    exact ⟨rfl, _, hrest, hbudget, rfl, rfl⟩
  · have hpos : extent.pos = extent.frontier :=
      Nat.le_antisymm extent.pos_le_frontier (Nat.not_lt.mp hkept)
    rw [dif_neg hkept] at hrest ⊢
    rw [hpos]
    cases hended : (transcript source).ended extent.frontier with
    | true =>
        rw [hended, if_pos rfl] at hrest
        exact ⟨rfl, _, hrest, hbudget, rfl, hpos⟩
    | false =>
        rw [hended, if_neg Bool.false_ne_true] at hrest
        refine ⟨rfl, _, hrest, hbudget, ?_, ?_⟩
        · simp [Extent.extend, Extent.trim, hbudget, Budget.floor]
        · have hbase := extent.base_le_pos
          simp [Extent.extend, Extent.trim, hbudget, Budget.floor]
          omega

theorem Spans.backtrack (hspans : window.Spans source start pos) :
    (window.move .backtrack).Spans source start start := by
  obtain ⟨extent, hcovers, hbudget, rfl, rfl⟩ := hspans
  exact ⟨_, hcovers.move .backtrack, hbudget, rfl, rfl⟩

theorem Spans.rewind (hspans : window.Spans source start pos) (n : Nat) :
    (window.move (.rewind n)).Spans source start (max start (pos - n)) := by
  obtain ⟨extent, hcovers, hbudget, rfl, rfl⟩ := hspans
  exact ⟨_, hcovers.move (.rewind n), hbudget, rfl, rfl⟩

theorem Spans.start_le (hspans : window.Spans source start pos) : start ≤ pos := by
  obtain ⟨extent, hcovers, hbudget, rfl, rfl⟩ := hspans
  exact extent.base_le_pos

/-- Committing forgets what is behind the cursor and nothing else. -/
theorem Spans.commit (hspans : window.Spans source start pos) :
    (window.move (.accept 0)).Spans source pos pos := by
  have hle := hspans.start_le
  obtain ⟨extent, hcovers, hbudget, rfl, rfl⟩ := hspans
  exact ⟨_, hcovers.move (.accept 0), hbudget, Nat.max_eq_right hle, rfl⟩

/-- A window without a budget keeps what it has kept so far. -/
theorem Covers.unbound {extent : Extent} (hcovers : window.Covers source extent) :
    (window.move (.setBudget .unbounded)).Spans source extent.base extent.pos := by
  have hbase := extent.base_le_pos
  refine ⟨_, hcovers.move (.setBudget .unbounded), rfl, ?_, ?_⟩
  · simp [Extent.move, Extent.trim, Budget.floor]
  · simpa [Extent.move, Extent.trim, Budget.floor] using hbase

theorem Spans.unbound (hspans : window.Spans source start pos) :
    (window.move (.setBudget .unbounded)).Spans source start pos := by
  obtain ⟨extent, hcovers, hbudget, rfl, rfl⟩ := hspans
  exact hcovers.unbound

theorem Spans.pos?_isNone (hspans : window.Spans source start pos) :
    window.pos?.isNone = decide (pos = start) := by
  obtain ⟨extent, hcovers, hbudget, rfl, rfl⟩ := hspans
  rw [hcovers.pos?_eq]
  split
  · next hsame => simp [hsame]
  · next hmoved => simp [hmoved]

theorem Spans.unended_of_lt (hspans : window.Spans source start pos) {earlier : Nat}
    (hlt : earlier < pos) : (transcript source).ended earlier = false := by
  obtain ⟨extent, hcovers, hbudget, rfl, rfl⟩ := hspans
  exact hcovers.unended earlier (Nat.lt_of_lt_of_le hlt extent.pos_le_frontier)

theorem Spans.ended_of_more_eq_false (hspans : window.Spans source start pos)
    (hmore : window.more = false) :
    (transcript source).ended pos = true ∨ (transcript source pos).isEof = true := by
  obtain ⟨extent, hcovers, hbudget, rfl, rfl⟩ := hspans
  rw [hcovers.more_eq] at hmore
  split at hmore
  · exact .inr (by simpa using hmore)
  · next hkept =>
      have hpos := Nat.le_antisymm extent.pos_le_frontier (Nat.not_lt.mp hkept)
      exact .inl (by simpa [hpos] using hmore)

/-- Where there is more to read, no end has been read. -/
theorem Covers.unended_of_more {extent : Extent} (hcovers : window.Covers source extent)
    (hmore : window.more = true) : (transcript source).ended extent.pos = false := by
  rw [hcovers.more_eq] at hmore
  split at hmore
  · next hkept => exact hcovers.unended _ hkept
  · next hkept =>
      have hpos := Nat.le_antisymm extent.pos_le_frontier (Nat.not_lt.mp hkept)
      simpa [hpos] using hmore

theorem Spans.unended_of_more (hspans : window.Spans source start pos)
    (hmore : window.more = true) : (transcript source).ended pos = false := by
  obtain ⟨extent, hcovers, hbudget, rfl, rfl⟩ := hspans
  exact hcovers.unended_of_more hmore

theorem Spans.more_of_ended (hspans : window.Spans source start pos)
    (hended : (transcript source).ended pos = true) : window.more = false := by
  cases hmore : window.more with
  | false => rfl
  | true => exact absurd (hended.symm.trans (hspans.unended_of_more hmore)) nofun

end Window

namespace Lexer

open Scanner

/-- The lexer keeps what it has read from number `start` on, its cursor is before number `pos`, and
it is in the lexical state `state`. -/
structure Stands (source : σ) (grammar : C → Classifier A C) (start pos : Nat)
    (state : LexState A C) (lexer : Lexer A C σ) : Prop where
  grammar_eq : lexer.grammar = grammar
  state_eq : lexer.state = state
  spans : lexer.window.Spans source start pos

variable {source : σ} {grammar : C → Classifier A C} {start pos : Nat} {state : LexState A C}
  {lexer : Lexer A C σ}

theorem Stands.read (hstands : lexer.Stands source grammar start pos state) :
    lexer.read.1 = ((transcript source).readAt pos).1 ∧
      lexer.read.2.Stands source grammar start ((transcript source).readAt pos).2 state := by
  obtain ⟨hreading, hrest⟩ := hstands.spans.next
  exact ⟨hreading, { hstands with spans := hrest }⟩

theorem Stands.backtrack (hstands : lexer.Stands source grammar start pos state) :
    (lexer.move .backtrack).Stands source grammar start start state :=
  { hstands with spans := hstands.spans.backtrack }

theorem Stands.commit (hstands : lexer.Stands source grammar start pos state) :
    lexer.commit.Stands source grammar pos pos state :=
  { hstands with spans := hstands.spans.commit }

theorem Stands.pop (hstands : lexer.Stands source grammar start pos state) :
    lexer.pop.2.Stands source grammar start pos { state with queue := state.queue.tail } :=
  { hstands with state_eq := by rw [Lexer.pop, hstands.state_eq] }

/-- An action reads the window of a lexer as it would read the transcript. -/
theorem Stands.run {good : α → Prop} {action : Action A C α} (hplain : action.Plain good)
    (hstands : lexer.Stands source grammar start pos state) :
    (run action lexer).1 = (action.trace (transcript source) start pos state).result ∧
      (run action lexer).2.Stands source grammar start
        (action.trace (transcript source) start pos state).stop
        (action.trace (transcript source) start pos state).state := by
  induction action generalizing lexer pos state with
  | done result => exact ⟨rfl, hstands⟩
  | read next ih =>
      obtain ⟨hreading, hrest⟩ := hstands.read
      rw [Lexer.run, Action.trace]
      dsimp only
      rw [hreading]
      exact ih _ (hplain _) hrest
  | move motion next ih =>
      cases motion with
      | backtrack => exact ih hplain hstands.backtrack
      | rewind n => exact ih hplain { hstands with spans := hstands.spans.rewind n }
      | accept leave => exact hplain.elim
      | setBudget budget => exact hplain.elim
  | look next ih =>
      rw [Lexer.run, hstands.state_eq]
      exact ih _ (hplain _) hstands
  | push token next ih =>
      rw [Lexer.run, hstands.state_eq]
      exact ih hplain { hstands with state_eq := rfl }
  | setApp app next ih =>
      rw [Lexer.run, hstands.state_eq]
      exact ih hplain { hstands with state_eq := rfl }
  | setModes modes next ih =>
      rw [Lexer.run, hstands.state_eq]
      exact ih hplain { hstands with state_eq := rfl }

theorem Stands.tryEach {candidates : List (Recognizer A C)}
    (hplain : ∀ candidate ∈ candidates, Action.Plain (fun _ => True) candidate)
    (hstands : lexer.Stands source grammar start pos state) :
    ∃ tokens stop? pos' state',
      Tried (transcript source) start candidates state tokens stop? state' ∧
      (tryEach candidates lexer).1 = stop?.isSome ∧ (∀ stop, stop? = some stop → pos' = stop) ∧
      (tryEach candidates lexer).2.Stands source grammar start pos' state' := by
  induction candidates generalizing lexer pos state with
  | nil => exact ⟨[], none, pos, state, .nil, rfl, nofun, hstands⟩
  | cons candidate rest ih =>
      obtain ⟨hresult, hran⟩ := hstands.backtrack.run (hplain candidate List.mem_cons_self)
      rcases hrun : Lexer.run candidate (lexer.move .backtrack) with ⟨success, ran⟩
      rw [hrun] at hresult hran
      rw [Lexer.tryEach, hrun]
      cases success with
      | true =>
          exact ⟨_, _, _, _, .matched hresult.symm, rfl, fun _ hstop => Option.some.inj hstop, hran⟩
      | false =>
          obtain ⟨tokens, stop?, pos', state', htried, hsuccess, hstop, hrest⟩ :=
            ih (fun other hmem => hplain other (List.mem_cons_of_mem _ hmem)) hran
          exact ⟨_, _, _, _, .failed hresult.symm htried, hsuccess, hstop, hrest⟩

theorem readAt_of_unended {transcript : Transcript} (hopen : transcript.ended pos = false) :
    transcript.readAt pos = (transcript pos, pos + 1) := by
  rw [Transcript.readAt, hopen]
  rfl

theorem Stands.skip (hopen : (transcript source).ended pos = false)
    (hstands : lexer.Stands source grammar start pos state) :
    lexer.skip.Stands source grammar start (pos + 1) state := by
  have hrest := hstands.read.2
  rw [readAt_of_unended hopen] at hrest
  exact hrest

/-- If no candidate has succeeded at the end of the input, the end is passed over. -/
theorem Stands.recover_end (hopen : (transcript source).ended start = false)
    (hend : (transcript source start).isEof = true) (onError : Action A C Unit)
    (hstands : lexer.Stands source grammar start pos state) :
    (lexer.recover onError).Stands source grammar start (start + 1) state := by
  obtain ⟨hreading, hrest⟩ := hstands.backtrack.read
  rw [readAt_of_unended hopen] at hreading hrest
  rw [Lexer.recover]
  dsimp only
  rw [hreading, if_pos hend]
  exact hrest

/-- If no candidate has succeeded elsewhere, the error action goes on from where the round began,
and at least one reading is passed over. -/
theorem Stands.recover_hook (hopen : (transcript source).ended start = false)
    (hend : (transcript source start).isEof = false) {onError : Action A C Unit}
    (hplain : onError.Plain fun _ => True)
    (hstands : lexer.Stands source grammar start pos state) :
    (lexer.recover onError).Stands source grammar start
      (max (onError.trace (transcript source) start start state).stop (start + 1))
      (onError.trace (transcript source) start start state).state := by
  obtain ⟨hreading, hahead⟩ := hstands.backtrack.read
  rw [readAt_of_unended hopen] at hreading
  obtain ⟨-, hhook⟩ := hahead.backtrack.run hplain
  have hle := Action.le_stop_trace (transcript source) start onError (Nat.le_refl start) state
  rw [Lexer.recover]
  dsimp only
  rw [hreading, if_neg (by simp [hend]), hhook.spans.pos?_isNone]
  by_cases hstayed : (onError.trace (transcript source) start start state).stop = start
  · rw [if_pos (by simp [hstayed]), hstayed, Nat.max_eq_right (Nat.le_succ start)]
    rw [hstayed] at hhook
    exact hhook.skip hopen
  · rw [if_neg (by simp [hstayed]), Nat.max_eq_left (by omega)]
    exact hhook

/-- What a round does once its candidates are named: it ends with the first one that succeeds, or
else with the error action. -/
def conclude (onError : Action A C Unit) (candidates : List (Recognizer A C))
    (lexer : Lexer A C σ) : Lexer A C σ :=
  match Lexer.tryEach candidates lexer with
  | (true, lexer) => lexer.commit
  | (false, lexer) => (lexer.recover onError).commit

theorem round_of_idle {lexer : Lexer A C σ} (hmode : lexer.state.modes.top? = none) :
    lexer.round = (lexer.move (.setBudget .unbounded)).skip.commit := by
  simp only [Lexer.round, Lexer.move, hmode]

theorem round_of_mode {lexer : Lexer A C σ} {mode : C}
    (hmode : lexer.state.modes.top? = some mode) :
    lexer.round =
      (Lexer.run (lexer.grammar mode).candidates (lexer.move (.setBudget .unbounded))).2.conclude
        (lexer.grammar mode).onError
        (Lexer.run (lexer.grammar mode).candidates (lexer.move (.setBudget .unbounded))).1 := by
  simp only [Lexer.round, Lexer.move, hmode]
  rfl

/-- Wherever the cursor is when the candidates are named, they start from where the round began. -/
theorem Stands.conclude {candidates : List (Recognizer A C)} {onError : Action A C Unit}
    (hcandidates : ∀ candidate ∈ candidates, Action.Plain (fun _ => True) candidate)
    (honError : onError.Plain fun _ => True) (hopen : (transcript source).ended start = false)
    (hstands : lexer.Stands source grammar start pos state) :
    ∃ tokens later stop? stop middle state',
      Tried (transcript source) start candidates state tokens stop? middle ∧
      Closed (transcript source) start onError middle stop? later stop state' ∧
      (lexer.conclude onError candidates).Stands source grammar stop stop state' := by
  obtain ⟨tokens, stop?, pos', middle, htried, hsuccess, hstop, hdone⟩ :=
    hstands.tryEach hcandidates
  rcases htry : Lexer.tryEach candidates lexer with ⟨success, tried⟩
  rw [htry] at hsuccess hdone
  rw [Lexer.conclude, htry]
  cases stop? with
  | some stop =>
      cases hsuccess
      cases hstop stop rfl
      exact ⟨_, _, _, _, _, _, htried, .matched, hdone.commit⟩
  | none =>
      cases hsuccess
      cases hend : (transcript source start).isEof with
      | true =>
          exact ⟨_, _, _, _, _, _, htried, .ended hend, (hdone.recover_end hopen hend _).commit⟩
      | false =>
          exact ⟨_, _, _, _, _, _, htried, .passed hend rfl,
            (hdone.recover_hook hopen hend honError).commit⟩

/-- A lexer that begins a round at `start` runs a round there, and ends it where the round
commits. -/
theorem Stands.round (hplain : ∀ mode, (grammar mode).Plain)
    (hopen : (transcript source).ended start = false)
    (hstands : lexer.Stands source grammar start start state) :
    ∃ tokens stop state', Round (transcript source) grammar start state tokens stop state' ∧
      lexer.round.Stands source grammar stop stop state' := by
  have hbegin : (lexer.move (.setBudget .unbounded)).Stands source grammar start start state :=
    { hstands with spans := hstands.spans.unbound }
  cases hmode : state.modes.top? with
  | none =>
      rw [round_of_idle (hstands.state_eq ▸ hmode)]
      exact ⟨_, _, _, .idle hmode, (hbegin.skip hopen).commit⟩
  | some mode =>
      obtain ⟨hcandidates, hchosen⟩ := hbegin.run (hplain mode).candidates
      have hgood := Action.good_trace (transcript source) start (hplain mode).candidates start state
      obtain ⟨tokens, later, stop?, stop, middle, state', htried, hclosed, hdone⟩ :=
        hchosen.conclude hgood (hplain mode).onError hopen
      rw [round_of_mode (hstands.state_eq ▸ hmode), hstands.grammar_eq, hcandidates]
      exact ⟨_, _, _, .tried hmode rfl htried hclosed, hdone⟩

end Lexer

end Precedence
