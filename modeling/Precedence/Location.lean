import Precedence.Rune
import Precedence.Text.Record

/-!
# Source locations

A location is a span: `start` is where it begins and `stop` is just past its end.  It lies in a
named file (lines and columns), in a list of arguments (argument and character number, argument 0
being the text between the arguments), or it is a mark that the caller keeps account of.  Two
spans are joined only within one source.

Lines, columns and tab stops are words of 32 bits.  A sum of them that is too large wraps around, as
in a build that does not check its arithmetic; one that does stops the program there.
-/

namespace Precedence

structure Position where
  line : UInt32
  col : UInt32
  deriving DecidableEq, Inhabited

structure FileSpan where
  file : String
  start : Position
  stop : Position
  deriving DecidableEq, Inhabited

structure ArgPosition where
  arg : Nat
  char : Nat
  deriving DecidableEq, Inhabited

structure ArgSpan where
  start : ArgPosition
  stop : ArgPosition
  deriving DecidableEq, Inhabited

/-- A span in a source of the caller's own.  Marks with different serial numbers are different
locations, whatever their ends. -/
structure Mark where
  serial : Nat
  start : Nat
  stop : Nat
  deriving DecidableEq, Inhabited

inductive Location
  | file (span : FileSpan)
  | arg (span : ArgSpan)
  | mark (span : Mark)
  deriving DecidableEq, Inhabited

namespace Position

def inspect (p : Position) : String :=
  Text.record "Position" [("line", toString p.line), ("col", toString p.col)]

end Position

namespace FileSpan

/-- The empty span at the first column of the first line. -/
def ofFile (file : String) : FileSpan := ⟨file, ⟨1, 1⟩, ⟨1, 1⟩⟩

/-- The span of the next character, if that character is `rune`.  A tab ends just past the first
multiple of the tab stop above the column where it begins; a form feed leaves a span that begins
in the first column as it is. -/
def advance (rune : Rune) (tabStop : UInt32) (span : FileSpan) : FileSpan :=
  let ⟨line, col⟩ := span.stop
  if rune = .eof then ⟨span.file, span.stop, span.stop⟩
  else if rune = .newline then ⟨span.file, span.stop, ⟨line + 1, 1⟩⟩
  else if rune = .tab then
    let stop := max tabStop 1
    ⟨span.file, span.stop, ⟨line, col + (1 + stop - col % stop)⟩⟩
  else if rune = .formFeed ∧ span.start.col ≤ 1 then span
  else ⟨span.file, span.stop, ⟨line, col + 1⟩⟩

/-- A span of at most one column is shown by its start alone. -/
def describe (span : FileSpan) : String :=
  let ⟨line, col⟩ := span.start
  let ⟨lastLine, lastCol⟩ := span.stop
  let start := span.file ++ ":" ++ toString line ++ ":" ++ toString col
  if span.start = span.stop ∨ (line = lastLine ∧ lastCol = col + 1) then start
  else if line = lastLine then start ++ "-" ++ toString lastCol
  else start ++ "-" ++ toString lastLine ++ ":" ++ toString lastCol

def inspect (span : FileSpan) : String :=
  Text.record "FileLocation" [("file", Text.quoted span.file),
    ("begin", span.start.inspect), ("end", span.stop.inspect)]

end FileSpan

namespace ArgPosition

def inspect (p : ArgPosition) : String :=
  Text.record "ArgPosition" [("arg", toString p.arg), ("char", toString p.char)]

end ArgPosition

namespace ArgSpan

/-- The empty span at the first character of an argument. -/
def ofArg (arg : Nat) : ArgSpan := ⟨⟨arg, 1⟩, ⟨arg, 1⟩⟩

/-- Newlines and tabs are ordinary characters inside an argument. -/
def advance (rune : Rune) (span : ArgSpan) : ArgSpan :=
  if rune = .eof then ⟨span.stop, span.stop⟩
  else ⟨span.stop, ⟨span.stop.arg, span.stop.char + 1⟩⟩

def describe (span : ArgSpan) : String :=
  let ⟨arg, char⟩ := span.start
  let ⟨lastArg, lastChar⟩ := span.stop
  let start := toString arg ++ ":" ++ toString char
  if span.start = span.stop ∨ (arg = lastArg ∧ lastChar = char + 1) then start
  else if arg = lastArg then start ++ "-" ++ toString lastChar
  else start ++ "-" ++ toString lastArg ++ ":" ++ toString lastChar

def inspect (span : ArgSpan) : String :=
  Text.record "ArgLocation" [("begin", span.start.inspect), ("end", span.stop.inspect)]

end ArgSpan

namespace Mark

def advance (rune : Rune) (tabStop : UInt32) (mark : Mark) : Mark :=
  let width := if rune = .eof then 0 else if rune = .tab then tabStop.toNat else 1
  ⟨mark.serial, mark.stop, mark.stop + width⟩

def describe (mark : Mark) : String :=
  "@" ++ toString mark.start ++ "-" ++ toString mark.stop

end Mark

namespace Location

def ofFile (file : String) : Location := .file (.ofFile file)

def ofArg (arg : Nat) : Location := .arg (.ofArg arg)

def advance (rune : Rune) (tabStop : UInt32) : Location → Location
  | .file span => .file (span.advance rune tabStop)
  | .arg span => .arg (span.advance rune)
  | .mark span => .mark (span.advance rune tabStop)

/-- From the start of the first location to the start of the second one, if they lie in one
source. -/
def thru? : Location → Location → Option Location
  | .file a, .file b => if a.file = b.file then some (.file ⟨a.file, a.start, b.start⟩) else none
  | .arg a, .arg b => some (.arg ⟨a.start, b.start⟩)
  | .mark a, .mark b => some (.mark ⟨a.serial, a.start, b.start⟩)
  | _, _ => none

/-- From the start of the first location to the end of the second one, if they lie in one
source. -/
def thruEnd? : Location → Location → Option Location
  | .file a, .file b => if a.file = b.file then some (.file ⟨a.file, a.start, b.stop⟩) else none
  | .arg a, .arg b => some (.arg ⟨a.start, b.stop⟩)
  | .mark a, .mark b => some (.mark ⟨a.serial, a.start, b.stop⟩)
  | _, _ => none

def describe : Location → String
  | .file span => span.describe
  | .arg span => span.describe
  | .mark span => span.describe

def inspect : Location → String
  | .file span => "File(" ++ span.inspect ++ ")"
  | .arg span => "Arg(" ++ span.inspect ++ ")"
  | .mark span => "Custom(" ++ span.describe ++ ")"

end Location

end Precedence
