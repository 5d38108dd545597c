import Mathlib.Data.List.Forall2
import Precedence.Proofs.Lexer.Course

/-!
# Looking ahead

How far a classifier looks ahead, and how far a recognizer reads before it gives up, changes what
the window keeps but not the rounds.  It does change whether there is a round at the end of the
input: that round takes place unless the end has been read before.  So the tokens are the same as
long as none is pushed there.
-/

namespace Precedence

variable {A C σ : Type}

/-- Two attempts from `start` come to the same, except for how far the readings go if they fail. -/
structure Outcome.Alike (start : Nat) (left right : Outcome A C Bool) : Prop where
  result_eq : left.result = right.result
  state_eq : left.state = right.state
  pushed_eq : left.pushed = right.pushed
  stop_eq : left.result = true → left.stop = right.stop
  lt_stop : left.result = true → start < left.stop

/-- From `start` two recognizers do the same, except for how far they read if they fail. -/
def Action.Alike (transcript : Transcript) (start : Nat) (left right : Recognizer A C) : Prop :=
  ∀ state, (left.trace transcript start start state).Alike start
    (right.trace transcript start start state)

/-- Two classifiers do the same, except for how far they look ahead and how far their recognizers
read if they fail. -/
structure Classifier.Alike (transcript : Transcript) (left right : Classifier A C) : Prop where
  state_eq : ∀ start state, transcript.ended start = false →
    (left.candidates.trace transcript start start state).state =
      (right.candidates.trace transcript start start state).state
  pushed_eq : ∀ start state, transcript.ended start = false →
    (left.candidates.trace transcript start start state).pushed =
      (right.candidates.trace transcript start start state).pushed
  candidates : ∀ start state, transcript.ended start = false →
    List.Forall₂ (Action.Alike transcript start)
      (left.candidates.trace transcript start start state).result
      (right.candidates.trace transcript start start state).result
  onError_eq : ∀ start state, transcript.ended start = false →
    left.onError.trace transcript start start state =
      right.onError.trace transcript start start state

theorem Outcome.Alike.symm {start : Nat} {left right : Outcome A C Bool}
    (halike : left.Alike start right) : right.Alike start left where
  result_eq := halike.result_eq.symm
  state_eq := halike.state_eq.symm
  pushed_eq := halike.pushed_eq.symm
  stop_eq hresult := (halike.stop_eq (halike.result_eq.trans hresult)).symm
  lt_stop hresult := by
    have hsame := halike.result_eq.trans hresult
    exact halike.stop_eq hsame ▸ halike.lt_stop hsame

/-- A recognizer that has an alike gets on when it succeeds. -/
theorem Action.advances_of_alike {transcript : Transcript} {start : Nat}
    {candidates others : List (Recognizer A C)}
    (halike : List.Forall₂ (Action.Alike transcript start) candidates others) :
    ∀ candidate ∈ candidates, candidate.Advances transcript start := by
  induction halike with
  | nil => exact List.forall_mem_nil _
  | cons hfirst hrest ih =>
      exact List.forall_mem_cons.mpr ⟨fun state => (hfirst state).lt_stop, ih⟩

theorem Classifier.Alike.symm {transcript : Transcript} {left right : Classifier A C}
    (halike : left.Alike transcript right) : right.Alike transcript left where
  state_eq start state hopen := (halike.state_eq start state hopen).symm
  pushed_eq start state hopen := (halike.pushed_eq start state hopen).symm
  candidates start state hopen :=
    ((halike.candidates start state hopen).imp fun _ _ hsame state => (hsame state).symm).flip
  onError_eq start state hopen := (halike.onError_eq start state hopen).symm

namespace Lexer

/-- The callbacks push nothing in a round that begins at the end of the input. -/
def Quiet (transcript : Transcript) (grammar : C → Classifier A C) : Prop :=
  ∀ start state tokens stop state', transcript.ended start = false →
    (transcript start).isEof = true → state.queue = [] →
    Round transcript grammar start state tokens stop state' → tokens = []

section Relations

variable {transcript : Transcript} {left right : C → Classifier A C} {start stop : Nat}
  {state state' : LexState A C} {tokens : List Token}

theorem Tried.alike {candidates others : List (Recognizer A C)} {stop? : Option Nat}
    (halike : List.Forall₂ (Action.Alike transcript start) candidates others)
    (htried : Tried transcript start candidates state tokens stop? state') :
    Tried transcript start others state tokens stop? state' := by
  induction halike generalizing state tokens with
  | nil => exact htried
  | cons hfirst hrest ih =>
      have hsame := hfirst state
      cases htried with
      | matched hmatched =>
          rw [hsame.pushed_eq, hsame.stop_eq hmatched, hsame.state_eq]
          exact .matched (hsame.result_eq ▸ hmatched)
      | failed hfailed htried =>
          rw [hsame.pushed_eq]
          exact .failed (hsame.result_eq ▸ hfailed) (hsame.state_eq ▸ ih htried)

theorem Closed.alike {onError onError' : Action A C Unit} {stop? : Option Nat}
    (halike : ∀ state, onError.trace transcript start start state =
      onError'.trace transcript start start state)
    (hclosed : Closed transcript start onError state stop? tokens stop state') :
    Closed transcript start onError' state stop? tokens stop state' := by
  cases hclosed with
  | matched => exact .matched
  | ended hend => exact .ended hend
  | passed hgoes hhook => exact .passed hgoes ((halike state).symm.trans hhook)

/-- The rounds do not tell how far the callbacks have read. -/
theorem Round.alike (halike : ∀ mode, (left mode).Alike transcript (right mode))
    (hopen : transcript.ended start = false)
    (hround : Round transcript left start state tokens stop state') :
    Round transcript right start state tokens stop state' := by
  cases hround with
  | idle hmode => exact .idle hmode
  | @tried mode _ _ _ _ _ _ _ hmode hchoice htried hclosed =>
      have hsame := halike mode
      subst hchoice
      rw [hsame.state_eq start state hopen] at htried
      rw [hsame.pushed_eq start state hopen]
      exact .tried hmode rfl (htried.alike (hsame.candidates start state hopen))
        (hclosed.alike fun state => hsame.onError_eq start state hopen)

theorem Round.lt_stop (halike : ∀ mode, (left mode).Alike transcript (right mode))
    (hopen : transcript.ended start = false)
    (hround : Round transcript left start state tokens stop state') : start < stop := by
  cases hround with
  | idle hmode => exact Nat.lt_succ_self start
  | @tried mode _ _ _ _ _ _ _ hmode hchoice htried hclosed =>
      subst hchoice
      have hadvances := Action.advances_of_alike ((halike mode).candidates start state hopen)
      exact hclosed.lt_stop (htried.lt_stop hadvances)

theorem Quiet.alike (halike : ∀ mode, (left mode).Alike transcript (right mode))
    (hquiet : Quiet transcript left) : Quiet transcript right :=
  fun start state tokens stop state' hopen hend hqueue hround =>
    hquiet start state tokens stop state' hopen hend hqueue
      (hround.alike (fun mode => (halike mode).symm) hopen)

end Relations

variable [Scanner σ]

/-- Two lexers are at the same place, or nothing more comes of either. -/
inductive InStep (source : σ) (left right : C → Classifier A C) :
    Lexer A C σ → Lexer A C σ → Prop
  | level {one other : Lexer A C σ} {start : Nat} {state : LexState A C}
      (hone : one.Stands source left start start state)
      (hother : other.Stands source right start start state) : InStep source left right one other
  | spent {one other : Lexer A C σ} (hone : one.Over) (hother : other.Over) :
      InStep source left right one other

variable {source : σ} {left right : C → Classifier A C} {one other last : Lexer A C σ}

theorem InStep.symm (hstep : InStep source left right one other) :
    InStep source right left other one := by
  cases hstep with
  | level hone hother => exact .level hother hone
  | spent hone hother => exact .spent hother hone

theorem InStep.pop (hstep : InStep source left right one other) :
    one.pop.1 = other.pop.1 ∧ InStep source left right one.pop.2 other.pop.2 := by
  cases hstep with
  | @level start state hone hother =>
      refine ⟨?_, .level hone.pop hother.pop⟩
      rw [Lexer.pop, Lexer.pop, hone.state_eq, hother.state_eq]
  | spent hone hother =>
      refine ⟨by rw [Lexer.pop, Lexer.pop, hone.1, hother.1], .spent ⟨?_, hone.2⟩ ⟨?_, hother.2⟩⟩
      · rw [Lexer.pop, hone.1, List.tail_nil]
      · rw [Lexer.pop, hother.1, List.tail_nil]

section Runs

open Scanner

/-- A lexer that has nothing to do before an unread reading has read that reading ahead, and it is
an end. -/
theorem Stands.end_of_settled {start : Nat} {state : LexState A C}
    (hone : one.Stands source left start start state) (hqueue : state.queue = [])
    (hopen : (transcript source).ended start = false) (hsettled : one.settled = true) :
    (transcript source start).isEof = true ∧ one.Over := by
  have hempty : one.state.queue = [] := by rw [hone.state_eq, hqueue]
  have hmore : one.window.more = false := by simpa [Lexer.settled, hempty] using hsettled
  refine ⟨?_, hempty, hmore⟩
  exact (hone.spans.ended_of_more_eq_false hmore).resolve_left (by simp [hopen])

variable (hleft : ∀ mode, (left mode).Plain) (hright : ∀ mode, (right mode).Plain)
  (halike : ∀ mode, (left mode).Alike (transcript source) (right mode))
  (hquiet : Quiet (transcript source) left)

include hleft halike

section Both

include hright

/-- A round that both lexers run takes them to the same place. -/
theorem InStep.round_both (hstep : InStep source left right one other)
    (hopen : one.settled = false) : InStep source left right one.round other.round := by
  cases hstep with
  | spent hone hother => exact absurd (hopen.symm.trans hone.settled) nofun
  | level hone hother =>
      have hunended := hone.spans.unended_of_more (settled_eq_false_iff.mp hopen).2
      obtain ⟨tokens, stop, state', hround, hnext⟩ := hone.round hleft hunended
      obtain ⟨others, stop', state'', hround', hnext'⟩ := hother.round hright hunended
      obtain ⟨-, rfl, rfl⟩ := (hround.alike halike hunended).unique hround'
      exact .level hnext hnext'

end Both

include hquiet

/-- After a round at the end of the input there is nothing left to do. -/
theorem Stands.round_over {start : Nat} {state : LexState A C}
    (hopen : (transcript source).ended start = false)
    (hend : (transcript source start).isEof = true) (hqueue : state.queue = [])
    (hone : one.Stands source left start start state) : one.round.Over := by
  obtain ⟨tokens, stop, state', hround, hnext⟩ := hone.round hleft hopen
  have htokens := hquiet _ _ _ _ _ hopen hend hqueue hround
  -- The round passes over the end, since it does not commit where it began, and no reader gets
  -- beyond an end.
  have hstop : stop = start + 1 := by
    apply Nat.le_antisymm _ (hround.lt_stop halike hopen)
    apply Nat.not_lt.mp
    intro hbeyond
    exact absurd ((hnext.spans.unended_of_lt hbeyond).symm.trans hend) nofun
  constructor
  · rw [hnext.state_eq, hround.queue_eq, hqueue, htokens, List.append_nil]
  · exact hnext.spans.more_of_ended (hstop ▸ hend)

/-- A round that only one of the lexers runs is at the end of the input. -/
theorem InStep.round_one (hstep : InStep source left right one other)
    (hopen : one.settled = false) (hsettled : other.settled = true) :
    InStep source left right one.round other ∧ one.round.settled = true := by
  cases hstep with
  | spent hone hother => exact absurd (hopen.symm.trans hone.settled) nofun
  | level hone hother =>
      obtain ⟨hqueue, hmore⟩ := settled_eq_false_iff.mp hopen
      rw [hone.state_eq] at hqueue
      have hunended := hone.spans.unended_of_more hmore
      obtain ⟨hend, hover⟩ := hother.end_of_settled hqueue hunended hsettled
      have hdone := hone.round_over hleft halike hquiet hunended hend hqueue
      exact ⟨.spent hdone hover, hdone.settled⟩

include hright

/-- When one lexer settles, the other does. -/
theorem InStep.settles (hsettles : one.Settles last)
    (hstep : InStep source left right one other) :
    ∃ last', other.Settles last' ∧ InStep source left right last last' := by
  -- Along the rounds of the first lexer.  At each of them the second one takes part in the round,
  -- or only one of the two has a round left.
  induction hsettles generalizing other with
  | settled hsettled =>
      cases hopen : other.settled with
      | true => exact ⟨other, .settled hopen, hstep⟩
      | false =>
          obtain ⟨hnext, hdone⟩ := hstep.symm.round_one hright (fun mode => (halike mode).symm)
            (hquiet.alike halike) hopen hsettled
          exact ⟨other.round, .round hopen (.settled hdone), hnext.symm⟩
  | round hopen hrest ih =>
      cases hopen' : other.settled with
      | true => exact ih (hstep.round_one hleft halike hquiet hopen hopen').1
      | false =>
          obtain ⟨last', hsettles, hlast⟩ := ih (hstep.round_both hleft hright halike hopen)
          exact ⟨last', .round hopen' hsettles, hlast⟩

theorem InStep.take (n : Nat) (hstep : InStep source left right one other)
    (hreturns : one.Returns n) :
    other.Returns n ∧ (TokenStream.take n one).1 = (TokenStream.take n other).1 := by
  induction n generalizing one other with
  | zero => exact ⟨trivial, rfl⟩
  | succ n ih =>
      obtain ⟨⟨last, hsettles⟩, hrest⟩ := hreturns
      obtain ⟨last', hsettles', hlast⟩ := hstep.settles hleft hright halike hquiet hsettles
      obtain ⟨hfirst, hpopped⟩ := hlast.pop
      rw [hsettles.next_eq] at hrest
      obtain ⟨hreturns', htokens⟩ := ih hpopped hrest
      refine ⟨hsettles'.returns hreturns', ?_⟩
      rw [hsettles.take_succ, hsettles'.take_succ, hfirst, htokens]

end Runs

/-- Two grammars that differ only in how far they read ahead give the same tokens, and one of them
returns whenever the other does, if the callbacks push nothing at the end of the input. -/
theorem take_eq_of_alike {left right : C → Classifier A C} {source : σ}
    (hleft : ∀ mode, (left mode).Plain) (hright : ∀ mode, (right mode).Plain)
    (halike : ∀ mode, (left mode).Alike (Scanner.transcript source) (right mode))
    (hquiet : Quiet (Scanner.transcript source) left) (app : Stack A) (modes : Stack C) (n : Nat) :
    ((fresh left app modes source).Returns n ↔ (fresh right app modes source).Returns n) ∧
      ((fresh left app modes source).Returns n →
        (TokenStream.take n (fresh left app modes source)).1 =
          (TokenStream.take n (fresh right app modes source)).1) := by
  have hstep : InStep source left right (fresh left app modes source)
      (fresh right app modes source) :=
    .level (stands_fresh left app modes source) (stands_fresh right app modes source)
  have hforth := hstep.take hleft hright halike hquiet n
  have hback := hstep.symm.take hright hleft (fun mode => (halike mode).symm)
    (hquiet.alike halike) n
  exact ⟨⟨fun hreturns => (hforth hreturns).1, fun hreturns => (hback hreturns).1⟩,
    fun hreturns => (hforth hreturns).2⟩

theorem alike_spell {transcript : Transcript} {start : Nat} (hopen : transcript.ended start = false)
    (wanted : Symbol → Bool) : (spell wanted).Alike transcript start (spell wanted) :=
  fun state => ⟨rfl, rfl, rfl, fun _ => rfl, advances_spell hopen wanted state⟩

theorem alike_spelling (transcript : Transcript) (wanted : Symbol → Bool) (ahead ahead' : Nat)
    (mode : Unit) :
    (spelling wanted ahead mode).Alike transcript (spelling wanted ahead' mode) := by
  constructor
  case onError_eq => exact fun _ _ _ => rfl
  all_goals
    intro start state hopen
    obtain ⟨pos, hleft⟩ := trace_skim transcript start ahead
      (.done [spell wanted] : Action Unit Unit _) start state
    obtain ⟨pos', hright⟩ := trace_skim transcript start ahead'
      (.done [spell wanted] : Action Unit Unit _) start state
    rw [spelling, spelling, hleft, hright]
  case state_eq => rfl
  case pushed_eq => rfl
  case candidates => exact .cons (alike_spell hopen wanted) .nil

theorem quiet_spelling (transcript : Transcript) {wanted : Symbol → Bool}
    (hwanted : ∀ symbol : Symbol, symbol.isEof = true → wanted symbol = false) (ahead : Nat) :
    Quiet transcript (spelling wanted ahead) := by
  intro start state tokens stop state' hopen hend hqueue hround
  have hspell : (spell wanted).trace transcript start start state =
      ⟨false, start + 1, state, []⟩ := by
    rw [spell, Action.trace, readAt_of_unended hopen]
    cases hreading : transcript start with
    | error error => simp [hreading, Reading.isEof] at hend
    | ok symbol =>
        rw [hreading] at hend
        simp only [hwanted symbol hend, Bool.false_eq_true, if_false, Action.trace]
  -- There is one such round for each mode, and it fails.
  cases hmode : state.modes.top? with
  | none => exact (Round.unique (.idle hmode) hround).1
  | some mode =>
      obtain ⟨pos, hchoice⟩ := trace_skim transcript start ahead
        (.done [spell wanted] : Action Unit Unit _) start state
      have hfailed : ((spell wanted).trace transcript start start state).result = false := by
        rw [hspell]
      have htried : Tried transcript start [spell wanted] state _ none _ := .failed hfailed .nil
      rw [hspell] at htried
      exact (Round.unique (.tried hmode hchoice htried (.ended hend)) hround).1

theorem take_eq_of_alike_spelling :
    ∃ wanted : Symbol → Bool, (speller wanted 2).Returns 2 ∧
      (TokenStream.take 2 (speller wanted 1)).1 = (TokenStream.take 2 (speller wanted 2)).1 := by
  let wanted : Symbol → Bool := fun symbol => !symbol.isEof
  obtain ⟨hreturns_iff, hsame⟩ :=
    take_eq_of_alike (plain_spelling wanted 1) (plain_spelling wanted 2)
      (alike_spelling (Scanner.transcript letter) wanted 1 2)
      (quiet_spelling _ (fun symbol hend => by simp [wanted, hend]) 1) .empty (.singleton ()) 2
  have hfirst : (speller wanted 1).Settles (speller wanted 1).round := .round rfl (.settled rfl)
  have hsecond : (speller wanted 1).round.pop.2.Settles (speller wanted 1).round.pop.2.round :=
    .round rfl (.settled rfl)
  have hreturns : (speller wanted 1).Returns 2 := hfirst.returns (hsecond.returns trivial)
  exact ⟨wanted, hreturns_iff.mp hreturns, hsame hreturns⟩

/-- A round at the end of the input takes place unless the end has been read before. -/
theorem lookahead_shows_at_end :
    (∀ mode, (spelling anything 1 mode).Plain) ∧
    (∀ mode, (spelling anything 2 mode).Plain) ∧
    (∀ mode, (spelling anything 1 mode).Alike (Scanner.transcript letter)
      (spelling anything 2 mode)) ∧
    (speller anything 1).Returns 2 ∧ (speller anything 2).Returns 2 ∧
    (TokenStream.take 2 (speller anything 1)).1 = [some { kind := "a" }, some { kind := "EOF" }] ∧
    (TokenStream.take 2 (speller anything 2)).1 = [some { kind := "a" }, none] := by
  have hone : (speller anything 1).Settles (speller anything 1).round := .round rfl (.settled rfl)
  have hone' : (speller anything 1).round.pop.2.Settles (speller anything 1).round.pop.2.round :=
    .round rfl (.settled rfl)
  have htwo : (speller anything 2).Settles (speller anything 2).round := .round rfl (.settled rfl)
  have htwo' : (speller anything 2).round.pop.2.Settles (speller anything 2).round.pop.2 :=
    .settled rfl
  refine ⟨plain_spelling _ 1, plain_spelling _ 2, alike_spelling _ _ 1 2,
    hone.returns (hone'.returns trivial), htwo.returns (htwo'.returns trivial), ?_, ?_⟩
  · rw [hone.take_succ, hone'.take_succ]
    rfl
  · rw [htwo.take_succ, htwo'.take_succ]
    rfl

end Lexer

end Precedence
