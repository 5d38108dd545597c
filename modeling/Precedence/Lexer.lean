import Precedence.Lexer.Action
import Precedence.TokenStream

/-!
# Lexers

A lexer turns symbols into tokens round by round.  In a round the mode on top of the stack names
its candidates, each candidate starts from where the round began, and the first one that succeeds
keeps what it has read.  If none succeeds, the mode's error action keeps what it has read, but at
least one reading is passed over.  The end of the input is left to the candidates alone.
-/

namespace Precedence

structure Lexer (A C σ : Type) where
  grammar : C → Classifier A C
  window : Window σ
  state : LexState A C

namespace Lexer

variable {A C σ α : Type}

def new (grammar : C → Classifier A C) (mode : C) (source : σ) : Lexer A C σ :=
  ⟨grammar, .ofScanner source .unbounded, ⟨.empty, .singleton mode, []⟩⟩

def move (motion : Motion) (lexer : Lexer A C σ) : Lexer A C σ :=
  { lexer with window := lexer.window.move motion }

def commit (lexer : Lexer A C σ) : Lexer A C σ := lexer.move (.accept 0)

/-- Whether `next` has nothing left to do: a token waits, or the input has ended. -/
def settled (lexer : Lexer A C σ) : Bool :=
  !lexer.state.queue.isEmpty || !lexer.window.more

def inspect (lexer : Lexer A C σ) : String :=
  Text.record "Lexer" [("buffered", toString lexer.window.size), ("state", lexer.state.inspect)]

variable [Scanner σ]

def read (lexer : Lexer A C σ) : Reading × Lexer A C σ :=
  let (reading, window) := lexer.window.next
  (reading, { lexer with window })

def skip (lexer : Lexer A C σ) : Lexer A C σ := lexer.read.2

def run : Action A C α → Lexer A C σ → α × Lexer A C σ
  | .done result, lexer => (result, lexer)
  | .read next, lexer =>
      let (reading, lexer) := lexer.read
      run (next reading) lexer
  | .move motion next, lexer => run next (lexer.move motion)
  | .look next, lexer => run (next lexer.state) lexer
  | .push token next, lexer => run next { lexer with state := lexer.state.push token }
  | .setApp app next, lexer => run next { lexer with state := { lexer.state with app } }
  | .setModes modes next, lexer => run next { lexer with state := { lexer.state with modes } }

/-- Tries the candidates one after the other until one succeeds. -/
def tryEach : List (Recognizer A C) → Lexer A C σ → Bool × Lexer A C σ
  | [], lexer => (false, lexer)
  | candidate :: rest, lexer =>
      match run candidate (lexer.move .backtrack) with
      | (true, lexer) => (true, lexer)
      | (false, lexer) => tryEach rest lexer

/-- What a round does when no candidate has succeeded. -/
def recover (onError : Action A C Unit) (lexer : Lexer A C σ) : Lexer A C σ :=
  let (reading, ahead) := (lexer.move .backtrack).read
  if reading.isEof then ahead
  else
    let lexer := (run onError (ahead.move .backtrack)).2
    if lexer.window.pos?.isNone then lexer.skip else lexer

def round (lexer : Lexer A C σ) : Lexer A C σ :=
  let lexer := lexer.move (.setBudget .unbounded)
  match lexer.state.modes.top? with
  | none => lexer.skip.commit
  | some mode =>
      let classifier := lexer.grammar mode
      let (candidates, lexer) := run classifier.candidates lexer
      match tryEach candidates lexer with
      | (true, lexer) => lexer.commit
      | (false, lexer) => (lexer.recover classifier.onError).commit

/-- Runs rounds until the lexer is settled.  There is no last round if a recognizer succeeds again
and again without reading and without pushing a token. -/
def settle (lexer : Lexer A C σ) : Lexer A C σ :=
  have : Nonempty (Lexer A C σ) := ⟨lexer⟩
  Id.run <| repeatM (fun lexer => return if lexer.settled then .inr lexer else .inl lexer.round)
    lexer

theorem settle_eq_ite (lexer : Lexer A C σ) :
    lexer.settle = if lexer.settled then lexer else lexer.round.settle := by
  have : Nonempty (Lexer A C σ) := ⟨lexer⟩
  rw [settle, repeatM_eq_of_monadTail, repeatM.body]
  cases lexer.settled <;> rfl

/-- Hands out the first of the tokens that wait. -/
def pop (lexer : Lexer A C σ) : Option Token × Lexer A C σ :=
  (lexer.state.queue.head?,
    { lexer with state := { lexer.state with queue := lexer.state.queue.tail } })

def next (lexer : Lexer A C σ) : Option Token × Lexer A C σ := lexer.settle.pop

instance : TokenStream (Lexer A C σ) := ⟨next⟩

end Lexer

end Precedence
