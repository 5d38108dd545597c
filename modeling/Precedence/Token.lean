import Precedence.Error

/-!
# Tokens

A token is what a lexer hands to a parser: a kind, by which parse tables are looked up, and
optionally a place, a semantic value and the text it was read from.
-/

namespace Precedence

inductive Value
  | int (n : Int)
  | str (s : String)
  | bool (b : Bool)
  deriving DecidableEq, Inhabited

structure Token where
  kind : String
  location : Option Location := none
  value : Option Value := none
  text : Option String := none
  deriving DecidableEq, Inhabited

namespace Value

def describe : Value → String
  | .int n => toString n
  | .str s => s
  | .bool b => Text.truth b

def inspect : Value → String
  | .int n => toString n
  | .str s => Text.quoted s
  | .bool b => Text.truth b

def int? : Value → Option Int
  | .int n => some n
  | _ => none

def str? : Value → Option String
  | .str s => some s
  | _ => none

def bool? : Value → Option Bool
  | .bool b => some b
  | _ => none

end Value

namespace Token

def describe (token : Token) : String :=
  let place := (token.location.map fun location => location.describe ++ ": ").getD ""
  let value := (token.value.map fun value => ": " ++ value.describe).getD ""
  place ++ token.kind ++ " token" ++ value

def inspect (token : Token) : String :=
  Text.record "Token" [("kind", Text.quoted token.kind),
    ("location", Text.optional (token.location.map Location.inspect)),
    ("value", Text.optional (token.value.map Value.inspect)),
    ("text", Text.optional (token.text.map Text.quoted))]

/-- The token's shortest name: its text, else its value, else its kind. -/
def name (token : Token) : String :=
  match token.text, token.value with
  | some text, _ => text
  | none, some value => value.describe
  | none, none => token.kind

end Token

end Precedence
