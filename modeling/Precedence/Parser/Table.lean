import Precedence.Tree
import Precedence.Text.Record

/-!
# Parse tables

A parse table says, for each kind of token it knows, how tightly the token binds what stands to
its left and what it does at the start of an operand, after an operand, and at the start of a
statement.  What it does is a program over the state `S` of a parser: besides looking at the
state and changing it, a program asks for binding powers, expressions and statements.
-/

namespace Precedence

/-- What a callback of a table does, as a tree that branches on what it learns.  A callback with a
loop in it (statements up to the end of the input) is no one tree for all inputs.  But where it
comes to an end it has taken finitely many steps, and there it runs as the program that has its
loop unrolled that far, so what holds of every program holds of it on that input. -/
inductive Program (S α : Type) where
  | done (result : α)
  | look (next : S → Program S α)
  | change (state : S) (next : Program S α)
  | powerOf (token : Token) (next : Except Error Int → Program S α)
  | expression (rbp : Int) (next : Except Error Node → Program S α)
  | statement (next : Except Error (Option Node) → Program S α)

namespace Program

variable {S α β : Type}

def bind (program : Program S α) (f : α → Program S β) : Program S β :=
  match program with
  | .done result => f result
  | .look next => .look fun state => (next state).bind f
  | .change state next => .change state (next.bind f)
  | .powerOf token next => .powerOf token fun result => (next result).bind f
  | .expression rbp next => .expression rbp fun result => (next result).bind f
  | .statement next => .statement fun result => (next result).bind f

instance : Monad (Program S) where
  pure := .done
  bind := bind

end Program

/-- A program that may fail. -/
abbrev Parse (S α : Type) := ExceptT Error (Program S) α

namespace Parse

variable {S α : Type}

/-- Applies a function to the state and gives its result. -/
def modifyGet (f : S → α × S) : Parse S α :=
  ExceptT.mk <| .look fun state =>
    let (result, state) := f state
    .change state (.done (.ok result))

def powerOf (token : Token) : Parse S Int := ExceptT.mk (.powerOf token .done)

/-- An expression whose operators all bind more tightly than `rbp`. -/
def expression (rbp : Int) : Parse S Node := ExceptT.mk (.expression rbp .done)

/-- A statement, or none at the end of the input. -/
def statement : Parse S (Option Node) := ExceptT.mk (.statement .done)

end Parse

/-- What a parser does with one kind of token.  A token without a program for the place where it
stands is unexpected there. -/
structure Entry (S : Type) where
  power : Int
  first : Option (Token → Parse S Node) := none
  next : Option (Node → Token → Parse S Node) := none
  statement : Option (Token → Parse S Node) := none

/-- No kind occurs twice among the entries of a table that is built with `Table.insert`. -/
structure Table (S : Type) where
  entries : List (String × Entry S)

namespace Entry

def inspect {S : Type} (entry : Entry S) : String :=
  Text.record "ParseEntry" [("power", toString entry.power),
    ("first", Text.truth entry.first.isSome), ("next", Text.truth entry.next.isSome),
    ("stmt", Text.truth entry.statement.isSome)]

end Entry

namespace Table

variable {S : Type}

def empty : Table S := ⟨[]⟩

def get? (kind : String) (table : Table S) : Option (Entry S) := table.entries.lookup kind

def contains (kind : String) (table : Table S) : Bool := (table.get? kind).isSome

def erase (kind : String) (table : Table S) : Table S :=
  ⟨table.entries.filter fun entry => entry.1 != kind⟩

/-- A later entry for the same kind takes the place of an earlier one. -/
def insert (kind : String) (entry : Entry S) (table : Table S) : Table S :=
  ⟨(kind, entry) :: (table.erase kind).entries⟩

def ofList (entries : List (String × Entry S)) : Table S :=
  entries.foldl (fun table (kind, entry) => table.insert kind entry) empty

def size (table : Table S) : Nat := table.entries.length

def kinds (table : Table S) : List String :=
  (table.entries.map Prod.fst).mergeSort fun a b => decide (a ≤ b)

def inspect (table : Table S) : String :=
  Text.record "ParseTable" [("kinds", Text.listing (table.kinds.map Text.quoted))]

end Table

end Precedence
