import Precedence.Proofs.Lexer.Replay

/-!
# The course of a lexer

The rounds of a lexer lie end to end on the transcript of its source: each begins where the one
before it committed.  The tokens that the rounds push are handed out one for each call, in the order
in which they were pushed, and a call that is given none comes after all of them.
-/

namespace Precedence

variable {A C σ : Type}

namespace Lexer

/-- Rounds that follow one another from the start of a transcript: where they commit, the latest
first, the lexical state after them, and the tokens pushed in all.  Every token has been handed out
before the next round begins. -/
inductive Course (transcript : Transcript) (grammar : C → Classifier A C) (app : Stack A)
    (modes : Stack C) : List Nat → LexState A C → List Token → Prop
  | begins : Course transcript grammar app modes [0] ⟨app, modes, []⟩ []
  | round {start stop : Nat} {earlier : List Nat} {state state' : LexState A C}
      {pushed tokens : List Token}
      (hcourse : Course transcript grammar app modes (start :: earlier) state pushed)
      (hopen : transcript.ended start = false)
      (hround : Round transcript grammar start { state with queue := [] } tokens stop state') :
      Course transcript grammar app modes (stop :: start :: earlier) state' (pushed ++ tokens)

theorem Course.commits_le {transcript : Transcript} {grammar : C → Classifier A C} {app : Stack A}
    {modes : Stack C} {commits : List Nat} {state : LexState A C} {pushed : List Token}
    (hcourse : Course transcript grammar app modes commits state pushed) :
    commits.IsChain (· ≥ ·) := by
  induction hcourse with
  | begins => exact .singleton 0
  | round hcourse hopen hround ih => exact .cons_cons hround.le_stop ih

/-- A lexer that has not read anything. -/
def fresh (grammar : C → Classifier A C) (app : Stack A) (modes : Stack C) (source : σ) :
    Lexer A C σ :=
  ⟨grammar, .ofScanner source .unbounded, ⟨app, modes, []⟩⟩

example (grammar : C → Classifier A C) (mode : C) (source : σ) :
    Lexer.new grammar mode source = fresh grammar .empty (.singleton mode) source := rfl

theorem settled_eq_false_iff {lexer : Lexer A C σ} :
    lexer.settled = false ↔ lexer.state.queue = [] ∧ lexer.window.more = true := by
  simp [settled]

/-- Nothing more comes of the lexer. -/
def Over (lexer : Lexer A C σ) : Prop := lexer.state.queue = [] ∧ lexer.window.more = false

theorem Over.settled {lexer : Lexer A C σ} (hover : lexer.Over) : lexer.settled = true := by
  simp [Lexer.settled, hover.2]

variable [Scanner σ]

/-- Rounds lead from one lexer to another one that is settled. -/
inductive Settles : Lexer A C σ → Lexer A C σ → Prop
  | settled {lexer : Lexer A C σ} (hsettled : lexer.settled = true) : Settles lexer lexer
  | round {lexer last : Lexer A C σ} (hopen : lexer.settled = false)
      (hrest : Settles lexer.round last) : Settles lexer last

/-- Each of the next `n` calls returns. -/
def Returns : Nat → Lexer A C σ → Prop
  | 0, _ => True
  | n + 1, lexer => (∃ last, lexer.Settles last) ∧ lexer.next.2.Returns n

/-- How many rounds calls of `next` have run, what they have given, and the lexer at any moment of
them. -/
inductive Reached (first : Lexer A C σ) : Nat → List (Option Token) → Lexer A C σ → Prop
  | first : Reached first 0 [] first
  | round {rounds : Nat} {outputs : List (Option Token)} {lexer : Lexer A C σ}
      (hreached : Reached first rounds outputs lexer) (hopen : lexer.settled = false) :
      Reached first (rounds + 1) outputs lexer.round
  | pop {rounds : Nat} {outputs : List (Option Token)} {lexer : Lexer A C σ}
      (hreached : Reached first rounds outputs lexer) (hsettled : lexer.settled = true) :
      Reached first rounds (outputs ++ [lexer.pop.1]) lexer.pop.2

theorem Settles.settle_eq {lexer last : Lexer A C σ} (hsettles : lexer.Settles last) :
    lexer.settle = last := by
  induction hsettles with
  | settled hsettled => rw [settle_eq_ite, if_pos hsettled]
  | round hopen hrest ih => rw [settle_eq_ite, if_neg (by simp [hopen]), ih]

theorem Settles.next_eq {lexer last : Lexer A C σ} (hsettles : lexer.Settles last) :
    lexer.next = last.pop := by
  rw [next, hsettles.settle_eq]

theorem Settles.returns {lexer last : Lexer A C σ} (hsettles : lexer.Settles last) {n : Nat}
    (hrest : last.pop.2.Returns n) : lexer.Returns (n + 1) :=
  ⟨⟨last, hsettles⟩, hsettles.next_eq ▸ hrest⟩

theorem Settles.take_succ {lexer last : Lexer A C σ} (hsettles : lexer.Settles last) (n : Nat) :
    (TokenStream.take (n + 1) lexer).1 = last.pop.1 :: (TokenStream.take n last.pop.2).1 := by
  rw [← hsettles.next_eq]
  rfl

theorem Reached.settles {first lexer last : Lexer A C σ} {rounds : Nat}
    {outputs : List (Option Token)} (hreached : first.Reached rounds outputs lexer)
    (hsettles : lexer.Settles last) :
    ∃ rounds', first.Reached rounds' (outputs ++ [lexer.next.1]) lexer.next.2 := by
  rw [hsettles.next_eq]
  induction hsettles generalizing rounds with
  | settled hsettled => exact ⟨rounds, .pop hreached hsettled⟩
  | round hopen hrest ih => exact ih (.round hreached hopen)

/-- Calls that return go through such moments. -/
theorem Reached.take {first : Lexer A C σ} (n : Nat) {lexer : Lexer A C σ} {rounds : Nat}
    {outputs : List (Option Token)} (hreached : first.Reached rounds outputs lexer)
    (hreturns : lexer.Returns n) :
    ∃ rounds', first.Reached rounds' (outputs ++ (TokenStream.take n lexer).1)
      (TokenStream.take n lexer).2 := by
  induction n generalizing lexer rounds outputs with
  | zero =>
      rw [TokenStream.take, List.append_nil]
      exact ⟨rounds, hreached⟩
  | succ n ih =>
      obtain ⟨⟨last, hsettles⟩, hrest⟩ := hreturns
      obtain ⟨rounds', hfirst⟩ := hreached.settles hsettles
      have hnext := ih hfirst hrest
      rw [List.append_assoc] at hnext
      exact hnext

/-- Handing out some tokens in order, one for each of `n` calls. -/
def handOut (tokens : List Token) (n : Nat) : List (Option Token) :=
  (List.range n).map (tokens[·]?)

theorem handOut_succ (tokens : List Token) (n : Nat) :
    handOut tokens (n + 1) = handOut tokens n ++ [tokens[n]?] := by
  rw [handOut, List.range_succ, List.map_append]
  rfl

theorem handOut_append {tokens : List Token} {n : Nat} (hle : n ≤ tokens.length)
    (later : List Token) : handOut (tokens ++ later) n = handOut tokens n := by
  apply List.map_congr_left
  intro i hi
  exact List.getElem?_append_left (Nat.lt_of_lt_of_le (List.mem_range.mp hi) hle)

/-- If every call has been handed a token and no token is left, there were as many calls. -/
theorem length_eq_of_handOut {tokens : List Token} {n : Nat} (hall : none ∉ handOut tokens n)
    (hleft : tokens.drop n = []) : n = tokens.length := by
  apply Nat.le_antisymm _ (List.drop_eq_nil_iff.mp hleft)
  apply Nat.not_lt.mp
  intro hlt
  apply hall
  exact List.mem_map.mpr ⟨tokens.length, List.mem_range.mpr hlt,
    List.getElem?_eq_none (Nat.le_refl _)⟩

theorem stands_fresh (grammar : C → Classifier A C) (app : Stack A) (modes : Stack C) (source : σ) :
    (fresh grammar app modes source).Stands source grammar 0 0 ⟨app, modes, []⟩ where
  grammar_eq := rfl
  state_eq := rfl
  spans := Window.spans_ofScanner source

/-- What the calls of `next` have given so far, against the tokens pushed so far. -/
theorem Reached.follows {grammar : C → Classifier A C} {app : Stack A} {modes : Stack C}
    {source : σ} (hplain : ∀ mode, (grammar mode).Plain) {rounds : Nat}
    {outputs : List (Option Token)} {lexer : Lexer A C σ}
    (hreached : (fresh grammar app modes source).Reached rounds outputs lexer) :
    ∃ start earlier state pushed, earlier.length = rounds ∧
      Course (Scanner.transcript source) grammar app modes (start :: earlier) state pushed ∧
      lexer.Stands source grammar start start
        { state with queue := pushed.drop outputs.length } ∧
      outputs = handOut pushed outputs.length ∧
      (none ∈ outputs → lexer.window.more = false) := by
  induction hreached with
  | first =>
      exact ⟨0, [], ⟨app, modes, []⟩, [], rfl, .begins, stands_fresh grammar app modes source, rfl,
        nofun⟩
  | @round rounds outputs lexer hreached hopen ih =>
      obtain ⟨start, earlier, state, pushed, hrounds, hcourse, hstands, houtputs, hnone⟩ := ih
      obtain ⟨hqueue, hmore⟩ := settled_eq_false_iff.mp hopen
      -- There is more to read, so no call has been given none, and every token pushed so far has
      -- been handed out.
      have hall : none ∉ outputs := fun hmem => absurd ((hnone hmem).symm.trans hmore) nofun
      have hleft : pushed.drop outputs.length = [] := by
        rw [hstands.state_eq] at hqueue
        exact hqueue
      have hlength := length_eq_of_handOut (houtputs ▸ hall) hleft
      have hunended := hstands.spans.unended_of_more hmore
      rw [hleft] at hstands
      obtain ⟨tokens, stop, state', hround, hnext⟩ := hstands.round hplain hunended
      have hwaiting : (pushed ++ tokens).drop outputs.length = state'.queue := by
        rw [hlength, List.drop_left, hround.queue_eq]
        rfl
      refine ⟨stop, start :: earlier, state', pushed ++ tokens, congrArg (· + 1) hrounds,
        hcourse.round hunended hround, ?_, ?_, fun hmem => absurd hmem hall⟩
      · rw [hwaiting]
        exact hnext
      · rw [handOut_append (Nat.le_of_eq hlength)]
        exact houtputs
  | @pop rounds outputs lexer hreached hsettled ih =>
      obtain ⟨start, earlier, state, pushed, hrounds, hcourse, hstands, houtputs, hnone⟩ := ih
      have hqueue : lexer.state.queue = pushed.drop outputs.length := by rw [hstands.state_eq]
      have hfirst : lexer.pop.1 = pushed[outputs.length]? := by
        rw [Lexer.pop, hqueue, List.head?_drop]
      have hlength : (outputs ++ [lexer.pop.1]).length = outputs.length + 1 := List.length_append
      refine ⟨start, earlier, state, pushed, hrounds, hcourse, ?_, ?_, ?_⟩
      · rw [hlength, ← List.tail_drop]
        exact hstands.pop
      · rw [hlength, handOut_succ, ← houtputs, hfirst]
      · intro hmem
        rcases List.mem_append.mp hmem with hearlier | hlast
        · exact hnone hearlier
        · have hempty : lexer.state.queue = [] :=
            List.head?_eq_none_iff.mp (List.mem_singleton.mp hlast).symm
          change lexer.window.more = false
          simpa [settled, hempty] using hsettled

/-- At any moment of any calls of `next`, the rounds so far lie end to end from the start of the
transcript, the lexer keeps what it has read since the last commit, the calls have given the tokens
pushed in these rounds in order, and the others wait.  A call gives none only at the end of the
input.  And the calls that return are such moments. -/
theorem rounds_hand_out {grammar : C → Classifier A C} (hplain : ∀ mode, (grammar mode).Plain)
    (app : Stack A) (modes : Stack C) (source : σ) :
    (∀ rounds outputs lexer, (fresh grammar app modes source).Reached rounds outputs lexer →
      ∃ start earlier state pushed, earlier.length = rounds ∧
        Course (Scanner.transcript source) grammar app modes (start :: earlier) state pushed ∧
        (start :: earlier).IsChain (· ≥ ·) ∧
        lexer.Stands source grammar start start
          { state with queue := pushed.drop outputs.length } ∧
        outputs = handOut pushed outputs.length ∧
        (none ∈ outputs → (Scanner.transcript source).ended start = true ∨
          (Scanner.transcript source start).isEof = true)) ∧
    ∀ n, (fresh grammar app modes source).Returns n →
      ∃ rounds, (fresh grammar app modes source).Reached rounds
        (TokenStream.take n (fresh grammar app modes source)).1
        (TokenStream.take n (fresh grammar app modes source)).2 := by
  constructor
  · intro rounds outputs lexer hreached
    obtain ⟨start, earlier, state, pushed, hrounds, hcourse, hstands, houtputs, hnone⟩ :=
      hreached.follows hplain
    exact ⟨start, earlier, state, pushed, hrounds, hcourse, hcourse.commits_le, hstands, houtputs,
      fun hmem => hstands.spans.ended_of_more_eq_false (hnone hmem)⟩
  · exact fun n hreturns => Reached.take n .first hreturns

/-- Looks at the next `n` readings and goes on. -/
def skim {α : Type} : Nat → Action A C α → Action A C α
  | 0, action => action
  | n + 1, action => .read fun _ => skim n action

theorem plain_skim {α : Type} {good : α → Prop} (n : Nat) {action : Action A C α}
    (hplain : action.Plain good) : (skim n action).Plain good := by
  induction n with
  | zero => exact hplain
  | succ n ih => exact fun _ => ih

omit [Scanner σ] in
theorem trace_skim {α : Type} (transcript : Transcript) (start ahead : Nat)
    (action : Action A C α) (pos : Nat) (state : LexState A C) :
    ∃ pos', (skim ahead action).trace transcript start pos state =
      action.trace transcript start pos' state := by
  induction ahead generalizing pos with
  | zero => exact ⟨pos, rfl⟩
  | succ ahead ih => exact ih _

/-- A token for a symbol that is wanted. -/
def spell (wanted : Symbol → Bool) : Recognizer Unit Unit :=
  .read fun
    | .ok symbol =>
        if wanted symbol then .push { kind := symbol.rune.describe } (.done true) else .done false
    | .error _ => .done false

/-- Spells the input, symbol by symbol, with a look at the next `ahead` readings before each. -/
def spelling (wanted : Symbol → Bool) (ahead : Nat) (_ : Unit) : Classifier Unit Unit :=
  { candidates := skim ahead (.done [spell wanted]) }

theorem plain_spell (wanted : Symbol → Bool) : (spell wanted).Plain fun _ => True := by
  intro reading
  cases reading with
  | error error => trivial
  | ok symbol =>
      dsimp only
      split <;> trivial

theorem advances_spell {transcript : Transcript} {start : Nat}
    (hopen : transcript.ended start = false) (wanted : Symbol → Bool) :
    (spell wanted).Advances transcript start := by
  intro state hresult
  rw [spell, Action.trace, readAt_of_unended hopen] at hresult ⊢
  dsimp only at hresult ⊢
  cases hreading : transcript start with
  | error error => simp [hreading, Action.trace] at hresult
  | ok symbol =>
      dsimp only
      split <;> exact Nat.lt_succ_self start

theorem plain_spelling (wanted : Symbol → Bool) (ahead : Nat) (mode : Unit) :
    (spelling wanted ahead mode).Plain where
  candidates := plain_skim ahead fun _ hmem => List.mem_singleton.mp hmem ▸ plain_spell wanted
  onError _ := trivial

def letter : Playback := ⟨[.ok ⟨.char 'a', none⟩]⟩

def anything (_ : Symbol) : Bool := true

/-- A lexer that spells one letter. -/
def speller (wanted : Symbol → Bool) (ahead : Nat) : Lexer Unit Unit Playback :=
  fresh (spelling wanted ahead) .empty (.singleton ()) letter

theorem returns_speller : (speller anything 1).Returns 2 := by
  have hfirst : (speller anything 1).Settles (speller anything 1).round := .round rfl (.settled rfl)
  have hsecond : (speller anything 1).round.pop.2.Settles (speller anything 1).round.pop.2.round :=
    .round rfl (.settled rfl)
  exact hfirst.returns (hsecond.returns trivial)

/-- The second round begins at the end of the input, which its candidate spells; there is no third
one. -/
theorem rounds_hand_out_spelling :
    (∃ last start earlier state pushed, earlier.length = 2 ∧
      (speller anything 1).Reached 2 [some { kind := "a" }, some { kind := "EOF" }, none] last ∧
      Course (Scanner.transcript letter) (spelling anything 1) .empty (.singleton ())
        (start :: earlier) state pushed ∧
      [some { kind := "a" }, some { kind := "EOF" }, none] = handOut pushed 3) ∧
    ∃ rounds, (speller anything 1).Reached rounds (TokenStream.take 2 (speller anything 1)).1
      (TokenStream.take 2 (speller anything 1)).2 := by
  obtain ⟨hmoments, hcalls⟩ := rounds_hand_out (plain_spelling anything 1) .empty
    (.singleton ()) letter
  have hreached : (speller anything 1).Reached 2
      [some { kind := "a" }, some { kind := "EOF" }, none] _ :=
    .pop (.pop (.round (.pop (.round .first rfl) rfl) rfl) rfl) rfl
  obtain ⟨start, earlier, state, pushed, hrounds, hcourse, -, -, houtputs, -⟩ :=
    hmoments _ _ _ hreached
  exact ⟨⟨_, start, earlier, state, pushed, hrounds, hreached, hcourse, houtputs⟩,
    hcalls 2 returns_speller⟩

end Lexer

end Precedence
