import Precedence.Parser.Table

/-!
# Operators

Programs for parse tables, ready-made: literals, prefix operators, and infix operators that group
to the left or to the right.  An operator parses its operand and leaves it to `build` to make a
node; `unaryNode` and `binaryNode` make the plain operator nodes.
-/

namespace Precedence.Parse

variable {S : Type}

def literal (token : Token) : Parse S Node := pure (.leaf token)

def prefixOp (build : Token → Node → Parse S Node) (power : Int) (op : Token) : Parse S Node := do
  build op (← expression power)

/-- The right operand takes only operators that bind more tightly, so `a - b - c` groups as
`(a - b) - c`. -/
def infixLeft (build : Node → Node → Token → Parse S Node) (left : Node) (op : Token) :
    Parse S Node := do
  let power ← powerOf op
  build left (← expression power) op

/-- The right operand takes operators of the same power too, so `a ^ b ^ c` groups as
`a ^ (b ^ c)`. -/
def infixRight (build : Node → Node → Token → Parse S Node) (left : Node) (op : Token) :
    Parse S Node := do
  let power ← powerOf op
  build left (← expression (power - 1)) op

def unaryNode (op : Token) (operand : Node) : Parse S Node :=
  ExceptT.mk (pure (Node.unaryOf op operand))

def binaryNode (left right : Node) (op : Token) : Parse S Node :=
  ExceptT.mk (pure (Node.binaryOf op left right))

end Precedence.Parse
