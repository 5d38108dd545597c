import Precedence.Text.Unprintable

/-!
# Quoted text

Text between quotation marks as diagnostics show it: the mark itself and the backslash are
escaped, the usual controls have a letter each, and every other character without a glyph is
given by its number in lower-case hexadecimal.
-/

namespace Precedence.Text

def escape (mark c : Char) : String :=
  if c = '\x00' then "\\0"
  else if c = '\t' then "\\t"
  else if c = '\r' then "\\r"
  else if c = '\n' then "\\n"
  else if c = '\\' || c = mark then "\\".push c
  else if ' ' ≤ c && c ≤ '~' then c.toString
  else if isUnprintable c then
    "\\u\x7b" ++ String.ofList (Nat.toDigits 16 c.toNat) ++ "\x7d"
  else c.toString

def quoted (s : String) : String :=
  "\"" ++ String.join (s.toList.map (escape '"')) ++ "\""

def quotedChar (c : Char) : String :=
  "'" ++ escape '\'' c ++ "'"

end Precedence.Text
