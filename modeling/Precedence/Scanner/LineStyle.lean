import Precedence.Rune

/-!
# Line endings

A line style says what ends a line.  It is shown a carriage return or line feed, alone or with
the rune after it, and answers what the run stands for and which style applies from then on:
`LineStyle.unknown` turns into the style of the first line ending it is shown.
-/

namespace Precedence

/-- What a run that starts with a carriage return or line feed stands for. -/
inductive Disposition
  | newline
  /-- A newline, and the second rune of the run is still to be read. -/
  | newlineSave
  /-- A space, and the second rune of the run, if there is one, is still to be read. -/
  | space
  /-- It takes one more rune to tell. -/
  | more
  deriving DecidableEq

inductive LineStyle
  | unix
  | mac
  | dos
  | unknown
  /-- No rune ends a line. -/
  | none
  deriving DecidableEq

namespace Disposition

def describe : Disposition → String
  | .newline => "Newline"
  | .newlineSave => "NewlineSave"
  | .space => "Space"
  | .more => "More"

end Disposition

namespace LineStyle

def accept (style : LineStyle) (run : List Rune) : Disposition × LineStyle :=
  match style, run with
  | .unknown, [.char '\n'] => (.newline, .unix)
  | .unknown, [.char '\r'] => (.more, .unknown)
  | .unknown, [.char '\r', .char '\n'] => (.newline, .dos)
  | .unknown, [.char '\r', _] => (.newlineSave, .mac)
  | .unix, [.char '\n'] => (.newline, .unix)
  | .mac, [.char '\r'] => (.newline, .mac)
  | .dos, [.char '\r'] => (.more, .dos)
  | .dos, [.char '\r', .char '\n'] => (.newline, .dos)
  | style, _ => (.space, style)

def describe : LineStyle → String
  | .unix => "Unix"
  | .mac => "Mac"
  | .dos => "Dos"
  | .unknown => "Unknown"
  | .none => "None"

end LineStyle

end Precedence
