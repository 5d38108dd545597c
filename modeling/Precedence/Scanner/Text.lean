import Precedence.Scanner
import Precedence.Scanner.LineStyle
import Precedence.Scanner.Intake

/-!
# Text scanners

A text scanner turns bytes into located symbols.  It decodes them, reads line endings in the
line style of the text, so that a newline is the only rune that ends a line, and moves its
location over each rune.  A byte that cannot be decoded is an error unless the handler swallows
it, and takes one column either way.
-/

namespace Precedence

/-- Decides whether an encoding error is reported, and as what. -/
abbrev EncodingHandler := Error → Option Error

structure TextOptions where
  tabStop : UInt32 := 8
  lineStyle : LineStyle := .unknown
  onBadEncoding : Option EncodingHandler := none

namespace TextOptions

def inspect (options : TextOptions) : String :=
  Text.record "FileScannerOptions" [("tab_stop", toString options.tabStop),
    ("line_style", options.lineStyle.describe),
    ("encoding_error_handler", Text.truth options.onBadEncoding.isSome)]

end TextOptions

structure TextScanner where
  intake : Intake
  /-- A failure met while a line was being ended; it comes before anything else. -/
  deferred : Option Error := none
  /-- A rune that was read to end a line but is not part of the line ending. -/
  saved : Option Rune := none
  lineStyle : LineStyle
  /-- The location of the last symbol. -/
  location : Location
  tabStop : UInt32
  onBadEncoding : Option EncodingHandler

namespace TextScanner

def new (source : List Delivery) (location : Location) (options : TextOptions) : TextScanner where
  intake := .ofDeliveries source
  lineStyle := options.lineStyle
  location := location
  tabStop := options.tabStop
  onBadEncoding := options.onBadEncoding

/-- The saved rune, or else the next one of the input. -/
def takeRune (scanner : TextScanner) : Except Error Rune × TextScanner :=
  match scanner.saved with
  | some rune => (.ok rune, { scanner with saved := none })
  | none =>
      let (result, intake) := scanner.intake.decode
      (result, { scanner with intake })

/-- The rune that a whole line-ending run stands for. -/
def lineRune : Disposition → Rune
  | .newline | .newlineSave => .newline
  | .space | .more => .space

/-- Whether the second rune of a run is still to be read. -/
def keepsSecond : Disposition → Bool
  | .newlineSave | .space => true
  | .newline | .more => false

/-- Reads a line ending that starts with `first`.  Where a failure keeps the second rune from
being read, the line ends as at the end of the input and the failure comes next. -/
def endLine (first : Rune) (scanner : TextScanner) : Rune × TextScanner :=
  match scanner.lineStyle.accept [first] with
  | (.more, style) =>
      match scanner.intake.decode with
      | (.ok second, intake) =>
          let (disposition, style) := style.accept [first, second]
          let saved := if keepsSecond disposition then some second else none
          (lineRune disposition, { scanner with intake, saved, lineStyle := style })
      | (.error error, intake) =>
          let (disposition, style) := style.accept [first, .eof]
          (lineRune disposition,
            { scanner with intake, deferred := some error, lineStyle := style })
  | (disposition, style) => (lineRune disposition, { scanner with lineStyle := style })

/-- Moves over a rune and gives it. -/
def emit (rune : Rune) (scanner : TextScanner) : Reading × TextScanner :=
  let location := scanner.location.advance rune scanner.tabStop
  (.ok ⟨rune, some location⟩, { scanner with location })

/-- Moves over a byte that could not be decoded and lets the handler decide what comes of it. -/
def reject (scanner : TextScanner) : Reading × TextScanner :=
  let location := scanner.location.advance .undecodable scanner.tabStop
  let error := Error.badEncoding.place (some location)
  let reported :=
    match scanner.onBadEncoding with
    | some handler => handler error
    | none => some error
  match reported with
  | some error => (.error error, { scanner with location })
  | none => (.ok ⟨.replacement, some location⟩, { scanner with location })

def next (scanner : TextScanner) : Reading × TextScanner :=
  match scanner.deferred with
  | some error => (.error error, { scanner with deferred := none })
  | none =>
      match scanner.takeRune with
      | (.error error, scanner) => (.error error, scanner)
      | (.ok rune, scanner) =>
          let (rune, scanner) :=
            if rune = .carriageReturn ∨ rune = .newline then scanner.endLine rune
            else (rune, scanner)
          if rune = .undecodable then scanner.reject else scanner.emit rune

instance : Scanner TextScanner := ⟨next⟩

end TextScanner

end Precedence
