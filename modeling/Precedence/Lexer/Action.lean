import Precedence.Stack
import Precedence.Token
import Precedence.Scanner.Window

/-!
# Lexical actions

The callbacks of a lexer are actions: they read symbols, move within the readings that are kept,
push tokens, and look at the lexical state and change its stacks.  Every action ends, whatever it
reads, and no action can take back a token.
-/

namespace Precedence

/-- What classifiers and recognizers share: a stack of the grammar's own state, the stack of the
names of lexical modes, and the tokens that wait to be handed out. -/
structure LexState (A C : Type) where
  app : Stack A
  modes : Stack C
  queue : List Token

namespace LexState

variable {A C : Type}

def push (token : Token) (state : LexState A C) : LexState A C :=
  { state with queue := state.queue ++ [token] }

def pending (state : LexState A C) : Nat := state.queue.length

def inspect (state : LexState A C) : String :=
  Text.record "LexerState" [("app_state_depth", toString state.app.size),
    ("classifier_depth", toString state.modes.size),
    ("queue", Text.listing (state.queue.map Token.inspect))]

end LexState

/-- What a callback does, as a tree that branches on what it learns.  A callback with a loop in it
(reading on while the characters are digits) is no one tree for all inputs.  But where it comes to
an end it has taken finitely many steps, and there it runs as the action that has its loop unrolled
that far, so what holds of every action holds of it on that input. -/
inductive Action (A C α : Type) where
  | done (result : α)
  | read (next : Reading → Action A C α)
  | move (motion : Motion) (next : Action A C α)
  | look (next : LexState A C → Action A C α)
  | push (token : Token) (next : Action A C α)
  | setApp (app : Stack A) (next : Action A C α)
  | setModes (modes : Stack C) (next : Action A C α)

namespace Action

variable {A C α β : Type}

def bind (action : Action A C α) (f : α → Action A C β) : Action A C β :=
  match action with
  | .done result => f result
  | .read next => .read fun reading => (next reading).bind f
  | .move motion next => .move motion (next.bind f)
  | .look next => .look fun state => (next state).bind f
  | .push token next => .push token (next.bind f)
  | .setApp app next => .setApp app (next.bind f)
  | .setModes modes next => .setModes modes (next.bind f)

instance : Monad (Action A C) where
  pure := .done
  bind := bind

def readNext : Action A C Reading := .read .done

def perform (motion : Motion) : Action A C Unit := .move motion (.done ())

def emit (token : Token) : Action A C Unit := .push token (.done ())

/-- Applies a function to the stack of the grammar's own state and gives its result. -/
def withApp (f : Stack A → α × Stack A) : Action A C α :=
  .look fun state =>
    let (result, app) := f state.app
    .setApp app (.done result)

/-- Applies a function to the stack of lexical modes and gives its result. -/
def withModes (f : Stack C → α × Stack C) : Action A C α :=
  .look fun state =>
    let (result, modes) := f state.modes
    .setModes modes (.done result)

end Action

/-- Reads some of the input and pushes tokens for it.  Without success, what it has read is given
back. -/
abbrev Recognizer (A C : Type) := Action A C Bool

/-- A lexical mode: which recognizers to try where the cursor is, and what to do when none of
them succeeds. -/
structure Classifier (A C : Type) where
  candidates : Action A C (List (Recognizer A C))
  onError : Action A C Unit := .read fun _ => .done ()

end Precedence
