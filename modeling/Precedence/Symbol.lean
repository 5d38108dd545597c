import Precedence.Error

/-!
# Symbols and readings

A symbol is a rune with the span it occupies; a reading is what asking a source for its next
symbol gives.
-/

namespace Precedence

structure Symbol where
  rune : Rune
  /-- Missing only in symbols made without a source. -/
  location : Option Location
  deriving DecidableEq, Inhabited

namespace Symbol

/-- The end of an input that has no place. -/
def eof : Symbol := ⟨.eof, none⟩

def isEof (symbol : Symbol) : Bool := symbol.rune.isEof

def describe (symbol : Symbol) : String :=
  match symbol.location with
  | some location => location.describe ++ ": " ++ symbol.rune.inspect
  | none => symbol.rune.inspect

end Symbol

abbrev Reading := Except Error Symbol

namespace Reading

def isEof : Reading → Bool
  | .ok symbol => symbol.isEof
  | .error _ => false

/-- The character that was read, if it was one. -/
def char? : Reading → Option Char
  | .ok symbol => symbol.rune.char?
  | .error _ => none

end Reading

end Precedence
