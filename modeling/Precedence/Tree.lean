import Precedence.Token
import Precedence.Tree.Outline

/-!
# Syntax trees

The nodes that the ready-made operator callbacks build (leaves, prefix and infix operators),
labels, which change nothing but how a node is shown, and nodes of a grammar's own.  A tree is
shown in two ways: its names in brackets, labels left out, or drawn line by line with every label.
-/

namespace Precedence

inductive Node
  | leaf (token : Token)
  /-- A token that stands for itself, not wrapped as a leaf. -/
  | atom (token : Token)
  | labelled (label : String) (inner : Node)
  | unary (op : Token) (operand : Node) (location : Option Location)
  | binary (op : Token) (left right : Node) (location : Option Location)
  /-- A node of a grammar's own, by what it answers once it is built; `Shape` says how the answers
  come about. -/
  | custom (text : String) (location : Option Location) (token : Option Token)
      (children : List Node)
  deriving Inhabited

/-- A shape of nodes of a grammar's own.  What such a node shows, where it is and which token names
it are up to the grammar, and may depend on its children in any way, on their labels too. -/
structure Shape where
  text : List Node → String
  location : List Node → Option Location
  token : List Node → Option Token

def Shape.node (shape : Shape) (children : List Node) : Node :=
  .custom (shape.text children) (shape.location children) (shape.token children) children

namespace Node

/-- Where the tree was read from, if that is known. -/
def location? : Node → Option Location
  | .leaf token | .atom token => token.location
  | .labelled _ inner => inner.location?
  | .unary _ _ location | .binary _ _ _ location => location
  | .custom _ location _ _ => location

/-- The token that names the node: a leaf's own, an operator node's operator. -/
def token? : Node → Option Token
  | .leaf token | .atom token => some token
  | .labelled _ inner => inner.token?
  | .unary op _ _ | .binary op _ _ _ => some op
  | .custom _ _ token _ => token

/-- The operands of an operator come with labels that say which is which. -/
def children : Node → List Node
  | .leaf _ | .atom _ => []
  | .labelled _ inner => inner.children
  | .unary _ operand _ => [.labelled "Exp" operand]
  | .binary _ left right _ => [.labelled "L" left, .labelled "R" right]
  | .custom _ _ _ children => children

/-- Writes the description of a node, its labels first, after `text`. -/
def describeOnto (text : String) : Node → String
  | .leaf token | .atom token => text ++ token.describe
  | .labelled label inner => inner.describeOnto (text ++ label ++ ": ")
  | .unary op _ _ | .binary op _ _ _ => text ++ op.describe
  | .custom shown _ _ _ => text ++ shown

def describe (node : Node) : String := node.describeOnto ""

/-- The node inside every label. -/
def strip : Node → Node
  | .labelled _ inner => inner.strip
  | node => node

def isLeaf : Node → Bool
  | .leaf _ => true
  | _ => false

/-- A prefix operator applied to its operand; it spans both. -/
def unaryOf (op : Token) (operand : Node) : Except Error Node := do
  let location ← Location.span op.location operand.location?
  return .unary op operand location

/-- An infix operator between its operands; it spans them, and has no location if one of the
three has none. -/
def binaryOf (op : Token) (left right : Node) : Except Error Node := do
  let location ← Location.span left.location? right.location?
  return .binary op left right (if op.location.isSome then location else none)

mutual

/-- The names of the tree, labels left out. -/
def heads : Node → Outline
  | .leaf token => .node token.name []
  | .atom token => .node token.name []
  | .labelled _ inner => inner.heads
  | .unary op operand _ => .node op.name [operand.heads]
  | .binary op left right _ => .node op.name [left.heads, right.heads]
  | .custom _ _ (some token) children => .node token.name (headsAll children)
  | .custom text _ none children => .node text (headsAll children)

def headsAll : List Node → List Outline
  | [] => []
  | node :: rest => node.heads :: headsAll rest

end

mutual

/-- The descriptions below a node, labels included. -/
def displaysBelow : Node → List Outline
  | .leaf _ => []
  | .atom _ => []
  | .labelled _ inner => inner.displaysBelow
  | .unary _ operand _ => [.node ("Exp: " ++ operand.describe) operand.displaysBelow]
  | .binary _ left right _ =>
      [.node ("L: " ++ left.describe) left.displaysBelow,
        .node ("R: " ++ right.describe) right.displaysBelow]
  | .custom _ _ _ children => displaysAll children

def displaysAll : List Node → List Outline
  | [] => []
  | node :: rest => .node node.describe node.displaysBelow :: displaysAll rest

end

/-- The descriptions of the tree, labels included. -/
def displays (node : Node) : Outline := .node node.describe node.displaysBelow

def bracketed (node : Node) : String := node.heads.bracketed

def drawn (glyphs : Glyphs) (node : Node) : String := node.displays.drawn glyphs

end Node

end Precedence
