/-!
# Decimal numerals

Reading whole numbers of ASCII digits, with or without a sign, that fit 64 bits.
-/

namespace Precedence.Text

def natural? (digits : List Char) : Option Nat :=
  if digits.isEmpty || !digits.all Char.isDigit then none
  else some (digits.foldl (fun n c => 10 * n + (c.toNat - '0'.toNat)) 0)

def integer? : List Char → Option Int
  | '-' :: digits => (natural? digits).map fun n => -(n : Int)
  | '+' :: digits => (natural? digits).map fun n => (n : Int)
  | digits => (natural? digits).map fun n => (n : Int)

/-- The number that the text denotes, if it is one and fits a signed 64-bit integer. -/
def int64? (text : String) : Option Int :=
  (integer? text.toList).filter fun n => Int64.minValue.toInt ≤ n && n ≤ Int64.maxValue.toInt

end Precedence.Text
