import Precedence.Scanner.Chain
import Precedence.Scanner.Recording
import Precedence.Scanner.Text

/-!
# Argument lists

The text of an argument list is its arguments with a joiner between each two.  Argument `i`
counts from 1 and has locations of its own; the joiner is argument 0, has no line structure, and
is scanned once: each of its places reads the same recording.
-/

namespace Precedence

structure ArgumentOptions where
  joiner : String := " "
  onBadEncoding : Option EncodingHandler := none

namespace ArgumentOptions

def inspect (options : ArgumentOptions) : String :=
  Text.record "ArgumentScannerOptions" [("joiner", Text.quoted options.joiner),
    ("encoding_error_handler", Text.truth options.onBadEncoding.isSome)]

end ArgumentOptions

/-- A piece of an argument list: an argument, or a reader of the recorded joiner. -/
inductive ArgumentPart
  | argument (scanner : TextScanner)
  | joiner (index : Nat)

structure ArgumentScanner where
  joiner : Recording TextScanner
  parts : Chain ArgumentPart

namespace ArgumentPart

def read : ArgumentPart → StateM (Recording TextScanner) (Reading × ArgumentPart)
  | .argument scanner =>
      let (reading, scanner) := scanner.next
      pure (reading, .argument scanner)
  | .joiner index => fun recording =>
      let (reading, index, recording) := recording.next index
      ((reading, .joiner index), recording)

end ArgumentPart

namespace ArgumentScanner

private def textOf (s : String) (arg : Nat) (options : TextOptions) : TextScanner :=
  .new [.bytes s.toUTF8.toList] (.ofArg arg) options

def new (args : List String) (options : ArgumentOptions) : ArgumentScanner :=
  let text : TextOptions := { onBadEncoding := options.onBadEncoding }
  let arguments := args.zipIdx.map fun (s, i) => ArgumentPart.argument (textOf s (i + 1) text)
  { joiner := .ofScanner (textOf options.joiner 0 { text with lineStyle := .none })
    parts := .ofList (arguments.intersperse (.joiner 0)) }

def next (scanner : ArgumentScanner) : Reading × ArgumentScanner :=
  let ((reading, parts), joiner) := (scanner.parts.readWith ArgumentPart.read).run scanner.joiner
  (reading, ⟨joiner, parts⟩)

instance : Scanner ArgumentScanner := ⟨next⟩

end ArgumentScanner

end Precedence
