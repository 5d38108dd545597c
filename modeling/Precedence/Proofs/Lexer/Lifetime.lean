import Precedence.Proofs.Lexer.Course

/-!
# The rounds in a lexer's life

Every round lets go of a reading for good: the one that a recognizer has read when it succeeds, or
else the one that is passed over.  So a lexer runs no more rounds than its source gives readings up
to its first end, that end included, and every call of `next` returns.  Others may interfere with
the lexical state and with the window between the calls.  If they do not, a lexer that has given
none once gives nothing else and runs no more rounds.
-/

namespace Precedence

open Scanner

variable {A C σ : Type}

/-- Wherever the cursor is when the candidates are named, each of them leaves it beyond the start of
the round if it succeeds. -/
def Classifier.Advances (transcript : Transcript) (classifier : Classifier A C) : Prop :=
  ∀ start pos state, transcript.ended start = false → start ≤ pos →
    ∀ candidate ∈ (classifier.candidates.trace transcript start pos state).result,
      candidate.Advances transcript start

namespace Lexer

/-- A lexer that nothing more comes of hands out nothing and stays as it is. -/
theorem Over.pop_eq {lexer : Lexer A C σ} (hover : lexer.Over) : lexer.pop = (none, lexer) := by
  obtain ⟨grammar, window, app, modes, queue⟩ := lexer
  obtain ⟨rfl, -⟩ := hover
  rfl

variable [Scanner σ]

/-- A lexer and the number of rounds it has run, at any moment of its life.  Besides running rounds
and handing out tokens, it may have its lexical state replaced and its window used from outside. -/
inductive Lived (first : Lexer A C σ) : Nat → Lexer A C σ → Prop
  | first : Lived first 0 first
  | round {rounds : Nat} {lexer : Lexer A C σ} (hlived : Lived first rounds lexer)
      (hopen : lexer.settled = false) : Lived first (rounds + 1) lexer.round
  | pop {rounds : Nat} {lexer : Lexer A C σ} (hlived : Lived first rounds lexer)
      (hsettled : lexer.settled = true) : Lived first rounds lexer.pop.2
  | replaced {rounds : Nat} {lexer : Lexer A C σ} (hlived : Lived first rounds lexer)
      (state : LexState A C) : Lived first rounds { lexer with state }
  | used {rounds : Nat} {lexer : Lexer A C σ} (hlived : Lived first rounds lexer) (call : Call) :
      Lived first rounds { lexer with window := (lexer.window.answer call).2 }

/-- A call that returns is such a moment, some rounds later. -/
theorem Lived.settles {first lexer last : Lexer A C σ} {rounds : Nat}
    (hlived : first.Lived rounds lexer) (hsettles : lexer.Settles last) :
    ∃ later, first.Lived (rounds + later) lexer.next.2 := by
  rw [hsettles.next_eq]
  induction hsettles generalizing rounds with
  | settled hsettled => exact ⟨0, .pop hlived hsettled⟩
  | round hopen hrest ih =>
      obtain ⟨later, hlast⟩ := ih (.round hlived hopen)
      rw [Nat.add_right_comm, Nat.add_assoc] at hlast
      exact ⟨later + 1, hlast⟩

section Over

variable {lexer : Lexer A C σ}

theorem Settles.settled_last {last : Lexer A C σ} (hsettles : lexer.Settles last) :
    last.settled = true := by
  induction hsettles with
  | settled hsettled => exact hsettled
  | round hopen hrest ih => exact ih

/-- A call that gives none leaves a lexer that nothing more comes of. -/
theorem Settles.over_of_none {last : Lexer A C σ} (hsettles : lexer.Settles last)
    (hnone : lexer.next.1 = none) : lexer.next.2.Over := by
  have hover : last.Over := by
    rw [hsettles.next_eq] at hnone
    have hqueue : last.state.queue = [] := List.head?_eq_none_iff.mp hnone
    exact ⟨hqueue, by simpa [Lexer.settled, hqueue] using hsettles.settled_last⟩
  rw [hsettles.next_eq, hover.pop_eq]
  exact hover

theorem Over.next_eq (hover : lexer.Over) : lexer.next = (none, lexer) := by
  have hsettles : lexer.Settles lexer := .settled hover.settled
  rw [hsettles.next_eq, hover.pop_eq]

theorem Over.take_eq (hover : lexer.Over) (n : Nat) :
    TokenStream.take n lexer = (List.replicate n none, lexer) := by
  induction n with
  | zero => rfl
  | succ n ih =>
      have hnext : TokenStream.next lexer = (none, lexer) := hover.next_eq
      simp only [TokenStream.take, hnext, ih]
      rfl

/-- No calls get a lexer that nothing more comes of to run a round. -/
theorem Over.reached (hover : lexer.Over) {rounds : Nat} {outputs : List (Option Token)}
    {last : Lexer A C σ} (hreached : lexer.Reached rounds outputs last) :
    rounds = 0 ∧ last = lexer := by
  induction hreached with
  | first => exact ⟨rfl, rfl⟩
  | round _ hopen ih =>
      rw [ih.2, hover.settled] at hopen
      cases hopen
  | pop _ _ ih =>
      obtain ⟨rfl, rfl⟩ := ih
      exact ⟨rfl, by rw [hover.pop_eq]⟩

end Over

section Rounds

variable {source : σ} {grammar : C → Classifier A C} {lexer : Lexer A C σ} {count : Nat}

/-- The lexer has let go of so many readings of the source for good. -/
structure Released (source : σ) (grammar : C → Classifier A C) (count : Nat)
    (lexer : Lexer A C σ) : Prop where
  grammar_eq : lexer.grammar = grammar
  covers : ∃ extent, lexer.window.Covers source extent ∧ extent.base = count

/-- No reading after the first end is ever let go of. -/
theorem Released.count_le {n : Nat} (hend : (transcript source n).isEof = true)
    (hreleased : lexer.Released source grammar count) : count ≤ n + 1 := by
  obtain ⟨extent, hcovers, rfl⟩ := hreleased.covers
  apply Nat.not_lt.mp
  intro hbeyond
  have hfrontier := Nat.le_trans extent.base_le_pos extent.pos_le_frontier
  have hopen := hcovers.unended (n + 1) (Nat.lt_of_lt_of_le hbeyond hfrontier)
  exact absurd (hopen.symm.trans hend) nofun

variable (hplain : ∀ mode, (grammar mode).Plain)
  (hadvances : ∀ mode, (grammar mode).Advances (transcript source))

include hplain hadvances

/-- A round commits beyond where it began, even if the cursor was further on. -/
theorem Stands.round_lt {start pos : Nat} {state : LexState A C}
    (hbegin : (lexer.move (.setBudget .unbounded)).Stands source grammar start pos state)
    (hopen : (transcript source).ended pos = false) :
    ∃ stop state', start < stop ∧ lexer.round.Stands source grammar stop stop state' := by
  have hle := hbegin.spans.start_le
  have hgrammar : lexer.grammar = grammar := hbegin.grammar_eq
  cases hmode : state.modes.top? with
  | none =>
      rw [round_of_idle (hbegin.state_eq ▸ hmode)]
      exact ⟨_, _, Nat.lt_succ_of_le hle, (hbegin.skip hopen).commit⟩
  | some mode =>
      have hunended : (transcript source).ended start = false := by
        rcases Nat.lt_or_eq_of_le hle with hlt | rfl
        · exact hbegin.spans.unended_of_lt hlt
        · exact hopen
      obtain ⟨hcandidates, hchosen⟩ := hbegin.run (hplain mode).candidates
      have hgood := Action.good_trace (transcript source) start (hplain mode).candidates pos state
      obtain ⟨tokens, later, stop?, stop, middle, state', htried, hclosed, hdone⟩ :=
        hchosen.conclude hgood (hplain mode).onError hunended
      have hlt := htried.lt_stop (hadvances mode start pos state hunended hle)
      rw [round_of_mode (hbegin.state_eq ▸ hmode), hgrammar, hcandidates]
      exact ⟨stop, state', hclosed.lt_stop hlt, hdone⟩

/-- A round lets go of a reading at least. -/
theorem Released.round (hreleased : lexer.Released source grammar count)
    (hopen : lexer.settled = false) :
    ∃ count', count < count' ∧ lexer.round.Released source grammar count' := by
  obtain ⟨extent, hcovers, rfl⟩ := hreleased.covers
  have hbegin : (lexer.move (.setBudget .unbounded)).Stands source grammar extent.base extent.pos
      lexer.state := ⟨hreleased.grammar_eq, rfl, hcovers.unbound⟩
  have hunended := hcovers.unended_of_more (settled_eq_false_iff.mp hopen).2
  obtain ⟨stop, state', hlt, hdone⟩ := hbegin.round_lt hplain hadvances hunended
  obtain ⟨extent', hcovers', -, hbase, -⟩ := hdone.spans
  exact ⟨stop, hlt, hdone.grammar_eq, extent', hcovers', hbase⟩

/-- The readings up to the end that are not let go of yet bound the rounds that are left. -/
theorem Released.settles {n : Nat} (hend : (transcript source n).isEof = true)
    (hreleased : lexer.Released source grammar count) : ∃ last, lexer.Settles last := by
  induction hleft : n + 1 - count using Nat.strong_induction_on generalizing count lexer with
  | h left ih =>
      cases hsettled : lexer.settled with
      | true => exact ⟨lexer, .settled hsettled⟩
      | false =>
          obtain ⟨count', hlt, hround⟩ := hreleased.round hplain hadvances hsettled
          have hle := hround.count_le hend
          obtain ⟨last, hlast⟩ := ih (n + 1 - count') (by omega) hround rfl
          exact ⟨last, .round hsettled hlast⟩

/-- Every round has let go of a reading, and nothing that is done from outside brings one back. -/
theorem Lived.released {app : Stack A} {modes : Stack C} {rounds : Nat}
    (hlived : (fresh grammar app modes source).Lived rounds lexer) :
    ∃ count, rounds ≤ count ∧ lexer.Released source grammar count := by
  induction hlived with
  | first => exact ⟨0, Nat.le_refl 0, rfl, _, Window.covers_ofScanner source .unbounded, rfl⟩
  | round _ hopen ih =>
      obtain ⟨count, hle, hreleased⟩ := ih
      obtain ⟨count', hlt, hround⟩ := hreleased.round hplain hadvances hopen
      exact ⟨count', Nat.succ_le_of_lt (Nat.lt_of_le_of_lt hle hlt), hround⟩
  | pop _ _ ih =>
      obtain ⟨count, hle, hreleased⟩ := ih
      exact ⟨count, hle, hreleased.grammar_eq, hreleased.covers⟩
  | replaced _ state ih =>
      obtain ⟨count, hle, hreleased⟩ := ih
      exact ⟨count, hle, hreleased.grammar_eq, hreleased.covers⟩
  | used _ call ih =>
      obtain ⟨count, hle, hreleased⟩ := ih
      obtain ⟨extent, hcovers, rfl⟩ := hreleased.covers
      obtain ⟨-, hrest⟩ := hcovers.answer call
      exact ⟨_, Nat.le_trans hle (extent.base_le_answer _ call), hreleased.grammar_eq, _, hrest,
        rfl⟩

end Rounds

/-- Let the source come to an end after `n` readings at the latest, and let recognizers get on when
they succeed.  Then a lexer runs `n + 1` rounds at most in its life, whatever is done to its state
and its window from outside; every call of `next` returns; and once a call has given none, later
calls give none and run no round. -/
theorem calls_return {grammar : C → Classifier A C} {source : σ} {n : Nat}
    (hplain : ∀ mode, (grammar mode).Plain)
    (hadvances : ∀ mode, (grammar mode).Advances (transcript source))
    (hend : (transcript source n).isEof = true) (app : Stack A) (modes : Stack C) {rounds : Nat}
    {lexer : Lexer A C σ} (hlived : (fresh grammar app modes source).Lived rounds lexer) :
    rounds ≤ n + 1 ∧ (∃ last, lexer.Settles last) ∧
      (∃ later, (fresh grammar app modes source).Lived (rounds + later) lexer.next.2) ∧
      (lexer.next.1 = none →
        (∀ k, TokenStream.take k lexer.next.2 = (List.replicate k none, lexer.next.2)) ∧
          ∀ more outputs last, lexer.next.2.Reached more outputs last → more = 0) := by
  obtain ⟨count, hle, hreleased⟩ := hlived.released hplain hadvances
  obtain ⟨last, hsettles⟩ := hreleased.settles hplain hadvances hend
  refine ⟨Nat.le_trans hle (hreleased.count_le hend), ⟨last, hsettles⟩, hlived.settles hsettles,
    fun hnone => ?_⟩
  have hover := hsettles.over_of_none hnone
  exact ⟨hover.take_eq, fun more outputs last hreached => (hover.reached hreached).1⟩

theorem advances_spelling (transcript : Transcript) (wanted : Symbol → Bool) (ahead : Nat)
    (mode : Unit) : (spelling wanted ahead mode).Advances transcript := by
  intro start pos state hopen _ candidate hmem
  obtain ⟨pos', hchoice⟩ := trace_skim transcript start ahead
    (.done [spell wanted] : Action Unit Unit _) pos state
  rw [spelling, hchoice] at hmem
  exact List.mem_singleton.mp hmem ▸ advances_spell hopen wanted

/-- After two rounds, of which the second one is at the end of the input, the lexer has others move
its cursor and put a mode on its stack. -/
theorem calls_return_spelling :
    ∃ lexer : Lexer Unit Unit Playback, (speller anything 1).Lived 2 lexer ∧
      lexer.state.modes.size = 2 ∧ 2 ≤ 1 + 1 ∧ (∃ last, lexer.Settles last) ∧
      lexer.next.1 = none ∧
      ∀ k, TokenStream.take k lexer.next.2 = (List.replicate k none, lexer.next.2) := by
  have htwo : (speller anything 1).Lived 2 (speller anything 1).round.pop.2.round.pop.2 :=
    .pop (.round (.pop (.round .first rfl) rfl) rfl) rfl
  obtain ⟨lexer, hlived, hmodes, hover⟩ : ∃ lexer, (speller anything 1).Lived 2 lexer ∧
      lexer.state.modes.size = 2 ∧ lexer.Over :=
    ⟨_, (htwo.used (.move .backtrack)).replaced ⟨.empty, (Stack.singleton ()).push (), []⟩,
      rfl, rfl, rfl⟩
  have hend : (transcript letter 1).isEof = true := rfl
  obtain ⟨hrounds, hreturns, -, hnone⟩ := calls_return (plain_spelling anything 1)
    (advances_spelling _ anything 1) hend .empty (.singleton ()) hlived
  have hnext : lexer.next.1 = none := by rw [hover.next_eq]
  exact ⟨lexer, hlived, hmodes, hrounds, hreturns, hnext, (hnone hnext).1⟩

end Lexer

end Precedence
