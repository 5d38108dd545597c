import Precedence.Text.Quoted

/-!
# Runes

A rune is a Unicode scalar value or one of three marks that no input can contain: the end of the
input, a byte that could not be decoded, and "no rune".  The marks are numbered just above the
last scalar value, so `Rune.value` keeps them apart from every character.
-/

namespace Precedence

inductive Rune
  | char (c : Char)
  | eof
  | undecodable
  | sentinel
  deriving DecidableEq, Inhabited

namespace Rune

def newline : Rune := .char '\n'

def carriageReturn : Rune := .char '\r'

def tab : Rune := .char '\t'

def formFeed : Rune := .char '\x0c'

def space : Rune := .char ' '

/-- U+FFFD, which stands in for a byte whose encoding error was swallowed. -/
def replacement : Rune := .char '\uFFFD'

def char? : Rune → Option Char
  | .char c => some c
  | _ => none

def value : Rune → Nat
  | .char c => c.toNat
  | .eof => 0x110000
  | .undecodable => 0x110001
  | .sentinel => 0x110002

def isEof : Rune → Bool
  | .eof => true
  | _ => false

def isSentinel : Rune → Bool
  | .char _ => false
  | _ => true

/-- The name of a mark, and for a character whatever `ofChar` makes of it. -/
def textWith (ofChar : Char → String) : Rune → String
  | .char c => ofChar c
  | .eof => "EOF"
  | .undecodable => "ERR"
  | .sentinel => "SENTINEL"

def describe : Rune → String := textWith Char.toString

def inspect : Rune → String := textWith Text.quotedChar

end Rune

end Precedence
