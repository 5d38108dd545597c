import Precedence.Lexer
import Precedence.Proofs.Scanner.Transcript

/-!
# Rounds over a transcript

What a round of a lexer comes to is told by the transcript of the source alone.  Every callback of
the round reads the transcript from the position where the round began, and only the callback that
ends the round says where the next one begins.  How a window replays what was read is not part of
the story.
-/

namespace Precedence

/-- Where a move leaves the cursor in a round that began at `start`. -/
def Motion.target (start pos : Nat) : Motion → Nat
  | .backtrack => start
  | .rewind n => max start (pos - n)
  | .accept _ => pos
  | .setBudget _ => pos

/-- What an action comes to.  The tokens that it pushed are listed apart from those that wait. -/
structure Outcome (A C α : Type) where
  result : α
  /-- Where the action leaves the cursor. -/
  stop : Nat
  state : LexState A C
  pushed : List Token

namespace Action

variable {A C α : Type}

/-- An action over a transcript, in a round that began at `start`. -/
def trace (transcript : Transcript) (start : Nat) :
    Action A C α → Nat → LexState A C → Outcome A C α
  | .done result, pos, state => ⟨result, pos, state, []⟩
  | .read next, pos, state =>
      trace transcript start (next (transcript.readAt pos).1) (transcript.readAt pos).2 state
  | .move motion next, pos, state => trace transcript start next (motion.target start pos) state
  | .look next, pos, state => trace transcript start (next state) pos state
  | .push token next, pos, state =>
      let outcome := trace transcript start next pos (state.push token)
      { outcome with pushed := token :: outcome.pushed }
  | .setApp app next, pos, state => trace transcript start next pos { state with app }
  | .setModes modes next, pos, state => trace transcript start next pos { state with modes }

/-- The action moves the cursor by reading, backtracking and rewinding alone, and whatever it
reads, its result is good. -/
def Plain (good : α → Prop) : Action A C α → Prop
  | .done result => good result
  | .read next => ∀ reading, (next reading).Plain good
  | .move .backtrack next => next.Plain good
  | .move (.rewind _) next => next.Plain good
  | .move (.accept _) _ => False
  | .move (.setBudget _) _ => False
  | .look next => ∀ state, (next state).Plain good
  | .push _ next => next.Plain good
  | .setApp _ next => next.Plain good
  | .setModes _ next => next.Plain good

variable (transcript : Transcript) (start : Nat)

theorem good_trace {good : α → Prop} {action : Action A C α} (hplain : action.Plain good)
    (pos : Nat) (state : LexState A C) : good (action.trace transcript start pos state).result := by
  induction action generalizing pos state with
  | done result => exact hplain
  | read next ih => exact ih _ (hplain _) _ _
  | move motion next ih =>
      cases motion with
      | backtrack => exact ih hplain _ _
      | rewind n => exact ih hplain _ _
      | accept leave => exact hplain.elim
      | setBudget budget => exact hplain.elim
  | look next ih => exact ih _ (hplain _) _ _
  | push token next ih => exact ih hplain _ _
  | setApp app next ih => exact ih hplain _ _
  | setModes modes next ih => exact ih hplain _ _

theorem le_stop_trace (action : Action A C α) {pos : Nat} (hpos : start ≤ pos)
    (state : LexState A C) : start ≤ (action.trace transcript start pos state).stop := by
  induction action generalizing pos state with
  | done result => exact hpos
  | read next ih =>
      apply ih
      rw [Transcript.readAt]
      split
      · exact hpos
      · exact Nat.le_succ_of_le hpos
  | move motion next ih =>
      apply ih
      cases motion with
      | backtrack => exact Nat.le_refl _
      | rewind n => exact Nat.le_max_left _ _
      | accept leave => exact hpos
      | setBudget budget => exact hpos
  | look next ih => exact ih _ hpos _
  | push token next ih => exact ih hpos _
  | setApp app next ih => exact ih hpos _
  | setModes modes next ih => exact ih hpos _

/-- The tokens that an action pushes wait behind those that waited before. -/
theorem queue_trace (action : Action A C α) (pos : Nat) (state : LexState A C) :
    (action.trace transcript start pos state).state.queue =
      state.queue ++ (action.trace transcript start pos state).pushed := by
  induction action generalizing pos state with
  | done result => exact (List.append_nil _).symm
  | push token next ih =>
      rw [trace]
      dsimp only
      rw [ih, LexState.push, List.append_assoc, List.singleton_append]
  | read next ih => exact ih _ _ _
  | move motion next ih => exact ih _ _
  | look next ih => exact ih _ _ _
  | setApp app next ih => exact ih _ _
  | setModes modes next ih => exact ih _ _

end Action

/-- From `start` the recognizer leaves the cursor beyond `start` whenever it succeeds. -/
def Action.Advances {A C : Type} (transcript : Transcript) (start : Nat)
    (recognizer : Recognizer A C) : Prop :=
  ∀ state, (recognizer.trace transcript start start state).result = true →
    start < (recognizer.trace transcript start start state).stop

/-- The callbacks of the mode move the cursor by reading, backtracking and rewinding alone. -/
structure Classifier.Plain {A C : Type} (classifier : Classifier A C) : Prop where
  candidates : classifier.candidates.Plain fun candidates =>
    ∀ candidate ∈ candidates, Action.Plain (fun _ => True) candidate
  onError : classifier.onError.Plain fun _ => True

namespace Lexer

variable {A C : Type}

section Relations

variable (transcript : Transcript)

/-- Candidates that are tried one after the other from `start`: the tokens they push, and where the
first one that succeeds leaves the cursor. -/
inductive Tried (start : Nat) :
    List (Recognizer A C) → LexState A C → List Token → Option Nat → LexState A C → Prop
  | nil {state : LexState A C} : Tried start [] state [] none state
  | matched {candidate : Recognizer A C} {rest : List (Recognizer A C)} {state : LexState A C}
      (hmatched : (candidate.trace transcript start start state).result = true) :
      Tried start (candidate :: rest) state (candidate.trace transcript start start state).pushed
        (some (candidate.trace transcript start start state).stop)
        (candidate.trace transcript start start state).state
  | failed {candidate : Recognizer A C} {rest : List (Recognizer A C)}
      {state state' : LexState A C} {tokens : List Token} {stop : Option Nat}
      (hfailed : (candidate.trace transcript start start state).result = false)
      (hrest : Tried start rest (candidate.trace transcript start start state).state tokens stop
        state') :
      Tried start (candidate :: rest) state
        ((candidate.trace transcript start start state).pushed ++ tokens) stop state'

/-- How a round that began at `start` ends when the candidates have been tried: with the first one
that has succeeded, or else with the error action, which is left out at the end of the input. -/
inductive Closed (start : Nat) (onError : Action A C Unit) (state : LexState A C) :
    Option Nat → List Token → Nat → LexState A C → Prop
  | matched {stop : Nat} : Closed start onError state (some stop) [] stop state
  | ended (hend : (transcript start).isEof = true) :
      Closed start onError state none [] (start + 1) state
  | passed {hook : Outcome A C Unit} (hgoes : (transcript start).isEof = false)
      (hhook : onError.trace transcript start start state = hook) :
      Closed start onError state none hook.pushed (max hook.stop (start + 1)) hook.state

/-- One round that begins at `start`: the tokens it pushes, and where it commits. -/
inductive Round (grammar : C → Classifier A C) (start : Nat) (state : LexState A C) :
    List Token → Nat → LexState A C → Prop
  | idle (hmode : state.modes.top? = none) : Round grammar start state [] (start + 1) state
  | tried {mode : C} {choice : Outcome A C (List (Recognizer A C))} {tokens later : List Token}
      {stop? : Option Nat} {stop : Nat} {middle state' : LexState A C}
      (hmode : state.modes.top? = some mode)
      (hchoice : (grammar mode).candidates.trace transcript start start state = choice)
      (htried : Tried transcript start choice.result choice.state tokens stop? middle)
      (hclosed : Closed transcript start (grammar mode).onError middle stop? later stop state') :
      Round grammar start state (choice.pushed ++ tokens ++ later) stop state'

variable {transcript} {start stop : Nat} {state state' : LexState A C} {tokens : List Token}

theorem Tried.queue_eq {candidates : List (Recognizer A C)} {stop? : Option Nat}
    (htried : Tried transcript start candidates state tokens stop? state') :
    state'.queue = state.queue ++ tokens := by
  induction htried with
  | nil => exact (List.append_nil _).symm
  | matched hmatched => exact Action.queue_trace _ _ _ _ _
  | failed hfailed hrest ih => rw [ih, Action.queue_trace, List.append_assoc]

theorem Closed.queue_eq {onError : Action A C Unit} {stop? : Option Nat}
    (hclosed : Closed transcript start onError state stop? tokens stop state') :
    state'.queue = state.queue ++ tokens := by
  cases hclosed with
  | matched => exact (List.append_nil _).symm
  | ended hend => exact (List.append_nil _).symm
  | passed hgoes hhook => rw [← hhook, Action.queue_trace]

/-- A round puts its tokens behind those that wait. -/
theorem Round.queue_eq {grammar : C → Classifier A C}
    (hround : Round transcript grammar start state tokens stop state') :
    state'.queue = state.queue ++ tokens := by
  cases hround with
  | idle hmode => exact (List.append_nil _).symm
  | tried hmode hchoice htried hclosed =>
      rw [hclosed.queue_eq, htried.queue_eq, ← hchoice, Action.queue_trace, List.append_assoc,
        List.append_assoc, List.append_assoc]

theorem Tried.le_stop {candidates : List (Recognizer A C)} {stop? : Option Nat}
    (htried : Tried transcript start candidates state tokens stop? state') :
    ∀ stop, stop? = some stop → start ≤ stop := by
  induction htried with
  | nil => exact nofun
  | matched hmatched =>
      intro stop hstop
      exact Option.some.inj hstop ▸ Action.le_stop_trace _ _ _ (Nat.le_refl start) _
  | failed hfailed hrest ih => exact ih

theorem Closed.le_stop {onError : Action A C Unit} {stop? : Option Nat}
    (hclosed : Closed transcript start onError state stop? tokens stop state')
    (hle : ∀ stop, stop? = some stop → start ≤ stop) : start ≤ stop := by
  cases hclosed with
  | matched => exact hle stop rfl
  | ended hend => exact Nat.le_succ start
  | passed hgoes hhook => exact Nat.le_trans (Nat.le_succ start) (Nat.le_max_right _ _)

theorem Tried.lt_stop {candidates : List (Recognizer A C)} {stop? : Option Nat}
    (hadvances : ∀ candidate ∈ candidates, candidate.Advances transcript start)
    (htried : Tried transcript start candidates state tokens stop? state') :
    ∀ stop, stop? = some stop → start < stop := by
  induction htried with
  | nil => exact nofun
  | matched hmatched =>
      intro stop hstop
      exact Option.some.inj hstop ▸ hadvances _ List.mem_cons_self _ hmatched
  | failed hfailed hrest ih =>
      exact ih fun candidate hmem => hadvances candidate (List.mem_cons_of_mem _ hmem)

theorem Closed.lt_stop {onError : Action A C Unit} {stop? : Option Nat}
    (hclosed : Closed transcript start onError state stop? tokens stop state')
    (hlt : ∀ stop, stop? = some stop → start < stop) : start < stop := by
  cases hclosed with
  | matched => exact hlt stop rfl
  | ended hend => exact Nat.lt_succ_self start
  | passed hgoes hhook => exact Nat.lt_of_lt_of_le (Nat.lt_succ_self start) (Nat.le_max_right _ _)

/-- No round gives back what an earlier one has committed. -/
theorem Round.le_stop {grammar : C → Classifier A C}
    (hround : Round transcript grammar start state tokens stop state') : start ≤ stop := by
  cases hround with
  | idle hmode => exact Nat.le_succ start
  | tried hmode hchoice htried hclosed => exact hclosed.le_stop htried.le_stop

theorem Tried.unique {candidates : List (Recognizer A C)} {stop? other? : Option Nat}
    {others : List Token} {state'' : LexState A C}
    (htried : Tried transcript start candidates state tokens stop? state')
    (hother : Tried transcript start candidates state others other? state'') :
    others = tokens ∧ other? = stop? ∧ state'' = state' := by
  induction htried generalizing others with
  | nil =>
      cases hother
      exact ⟨rfl, rfl, rfl⟩
  | matched hmatched =>
      cases hother with
      | matched _ => exact ⟨rfl, rfl, rfl⟩
      | failed hfailed _ => exact absurd (hmatched.symm.trans hfailed) nofun
  | failed hfailed hrest ih =>
      cases hother with
      | matched hmatched => exact absurd (hmatched.symm.trans hfailed) nofun
      | failed _ hother =>
          obtain ⟨htokens, hstop, hstate⟩ := ih hother
          exact ⟨congrArg _ htokens, hstop, hstate⟩

theorem Closed.unique {onError : Action A C Unit} {stop? : Option Nat} {other : Nat}
    {others : List Token} {state'' : LexState A C}
    (hclosed : Closed transcript start onError state stop? tokens stop state')
    (hother : Closed transcript start onError state stop? others other state'') :
    others = tokens ∧ other = stop ∧ state'' = state' := by
  cases hclosed with
  | matched =>
      cases hother
      exact ⟨rfl, rfl, rfl⟩
  | ended hend =>
      cases hother with
      | ended _ => exact ⟨rfl, rfl, rfl⟩
      | passed hgoes _ => exact absurd (hend.symm.trans hgoes) nofun
  | passed hgoes hhook =>
      cases hother with
      | ended hend => exact absurd (hend.symm.trans hgoes) nofun
      | passed _ hhook' =>
          cases hhook.symm.trans hhook'
          exact ⟨rfl, rfl, rfl⟩

/-- Where a round begins and in which state is all there is to it. -/
theorem Round.unique {grammar : C → Classifier A C} {other : Nat} {others : List Token}
    {state'' : LexState A C} (hround : Round transcript grammar start state tokens stop state')
    (hother : Round transcript grammar start state others other state'') :
    others = tokens ∧ other = stop ∧ state'' = state' := by
  cases hround with
  | idle hmode =>
      cases hother with
      | idle _ => exact ⟨rfl, rfl, rfl⟩
      | tried hmode' => exact absurd (hmode.symm.trans hmode') nofun
  | tried hmode hchoice htried hclosed =>
      cases hother with
      | idle hmode' => exact absurd (hmode'.symm.trans hmode) nofun
      | tried hmode' hchoice' htried' hclosed' =>
          cases hmode.symm.trans hmode'
          cases hchoice.symm.trans hchoice'
          obtain ⟨rfl, rfl, rfl⟩ := htried.unique htried'
          obtain ⟨rfl, rfl, rfl⟩ := hclosed.unique hclosed'
          exact ⟨rfl, rfl, rfl⟩

end Relations

end Lexer

end Precedence
