import Precedence.Proofs.Tree.Views

/-!
# Labels change nothing but descriptions

A tree without its labels is built with the same errors, and it has the same locations and tokens
at every depth and the same form in brackets.  So all of these are the same for any two trees that
differ in their labels only, however many there are and wherever they stand.  Nodes of a grammar's
own must do their part: their answers may not depend on the labels below them.
-/

namespace Precedence

namespace Node

mutual

/-- The tree without any labels.  Nodes of a grammar's own keep the answers that they have. -/
def bare : Node → Node
  | .leaf token => .leaf token
  | .atom token => .atom token
  | .labelled _ inner => inner.bare
  | .unary op operand location => .unary op operand.bare location
  | .binary op left right location => .binary op left.bare right.bare location
  | .custom text location token children => .custom text location token (bareAll children)

def bareAll : List Node → List Node
  | [] => []
  | node :: rest => node.bare :: bareAll rest

end

/-- The node inside these labels, the outermost first. -/
def wrap (labels : List String) (node : Node) : Node := labels.foldr .labelled node

theorem bareAll_eq_map (nodes : List Node) : bareAll nodes = nodes.map bare := by
  induction nodes with
  | nil => rfl
  | cons node nodes ih => rw [bareAll, ih, List.map_cons]

theorem bare_bare (node : Node) : node.bare.bare = node.bare := by
  induction node with
  | leaf token => rfl
  | atom token => rfl
  | labelled label inner ih => exact ih
  | unary op operand location ih => rw [bare, bare, ih]
  | binary op left right location ihLeft ihRight => rw [bare, bare, ihLeft, ihRight]
  | custom text location token children ih =>
      rw [bare, bare, bareAll_eq_map, bareAll_eq_map, List.map_map]
      exact congrArg (custom text location token) (List.map_congr_left ih)

@[simp] theorem location?_bare (node : Node) : node.bare.location? = node.location? := by
  induction node with
  | labelled label inner ih => exact ih
  | _ => rfl

theorem unaryOf_bare (op : Token) (operand : Node) :
    unaryOf op operand.bare = bare <$> unaryOf op operand := by
  rw [unaryOf, unaryOf, location?_bare]
  cases Location.span op.location operand.location? <;> rfl

theorem binaryOf_bare (op : Token) (left right : Node) :
    binaryOf op left.bare right.bare = bare <$> binaryOf op left right := by
  rw [binaryOf, binaryOf, location?_bare, location?_bare]
  cases Location.span left.location? right.location? <;> rfl

end Node

/-- The nodes of the shape do not let labels show: children that differ in labels only get them the
same answers. -/
structure Shape.LabelBlind (shape : Shape) : Prop where
  text_eq {children others : List Node} (hsame : children.map Node.bare = others.map Node.bare) :
    shape.text children = shape.text others
  location_eq {children others : List Node} (hsame : children.map Node.bare = others.map Node.bare) :
    shape.location children = shape.location others
  token_eq {children others : List Node} (hsame : children.map Node.bare = others.map Node.bare) :
    shape.token children = shape.token others

theorem Shape.LabelBlind.node_bareAll {shape : Shape} (hblind : shape.LabelBlind)
    (children : List Node) :
    shape.node (Node.bareAll children) = (shape.node children).bare := by
  have hsame : (Node.bareAll children).map Node.bare = children.map Node.bare := by
    rw [Node.bareAll_eq_map, List.map_map]
    exact List.map_congr_left fun child _ => child.bare_bare
  rw [node, node, Node.bare, hblind.text_eq hsame, hblind.location_eq hsame, hblind.token_eq hsame]

/-- A tree that is still to be built.  Operator nodes get their locations from their operands or are
placed by hand, and what a node of a grammar's own answers comes from its shape. -/
inductive Draft
  | leaf (token : Token)
  | atom (token : Token)
  | labelled (label : String) (inner : Draft)
  | unary (op : Token) (operand : Draft)
  | placedUnary (op : Token) (operand : Draft) (location : Option Location)
  | binary (op : Token) (left right : Draft)
  | placedBinary (op : Token) (left right : Draft) (location : Option Location)
  | custom (shape : Shape) (children : List Draft)

namespace Draft

mutual

/-- Builds the tree from the leaves up, operands from left to right. -/
def build : Draft → Except Error Node
  | .leaf token => .ok (.leaf token)
  | .atom token => .ok (.atom token)
  | .labelled label inner => do return .labelled label (← inner.build)
  | .unary op operand => do Node.unaryOf op (← operand.build)
  | .placedUnary op operand location => do return .unary op (← operand.build) location
  | .binary op left right => do Node.binaryOf op (← left.build) (← right.build)
  | .placedBinary op left right location => do
      return .binary op (← left.build) (← right.build) location
  | .custom shape children => do return shape.node (← buildAll children)

def buildAll : List Draft → Except Error (List Node)
  | [] => .ok []
  | draft :: rest => do return (← draft.build) :: (← buildAll rest)

end

mutual

/-- The draft without any labels. -/
def bare : Draft → Draft
  | .leaf token => .leaf token
  | .atom token => .atom token
  | .labelled _ inner => inner.bare
  | .unary op operand => .unary op operand.bare
  | .placedUnary op operand location => .placedUnary op operand.bare location
  | .binary op left right => .binary op left.bare right.bare
  | .placedBinary op left right location => .placedBinary op left.bare right.bare location
  | .custom shape children => .custom shape (bareAll children)

def bareAll : List Draft → List Draft
  | [] => []
  | draft :: rest => draft.bare :: bareAll rest

end

mutual

/-- The shapes of the nodes of a grammar's own. -/
def shapes : Draft → List Shape
  | .leaf _ | .atom _ => []
  | .labelled _ inner => inner.shapes
  | .unary _ operand | .placedUnary _ operand _ => operand.shapes
  | .binary _ left right | .placedBinary _ left right _ => left.shapes ++ right.shapes
  | .custom shape children => shape :: shapesAll children

def shapesAll : List Draft → List Shape
  | [] => []
  | draft :: rest => draft.shapes ++ shapesAll rest

end

mutual

theorem shapes_bare : (draft : Draft) → draft.bare.shapes = draft.shapes
  | .leaf _ => rfl
  | .atom _ => rfl
  | .labelled _ inner => shapes_bare inner
  | .unary _ operand => shapes_bare operand
  | .placedUnary _ operand _ => shapes_bare operand
  | .binary _ left right => by rw [bare, shapes, shapes, shapes_bare left, shapes_bare right]
  | .placedBinary _ left right _ => by
      rw [bare, shapes, shapes, shapes_bare left, shapes_bare right]
  | .custom shape children => congrArg (shape :: ·) (shapesAll_bareAll children)

theorem shapesAll_bareAll : (drafts : List Draft) → shapesAll (bareAll drafts) = shapesAll drafts
  | [] => rfl
  | draft :: rest => by
      rw [bareAll, shapesAll, shapesAll, shapes_bare draft, shapesAll_bareAll rest]

end

mutual

/-- Labels have no part in whether a tree can be built, nor in what goes wrong. -/
theorem build_bare : (draft : Draft) → (∀ shape ∈ draft.shapes, shape.LabelBlind) →
    draft.bare.build = Node.bare <$> draft.build
  | .leaf _, _ => rfl
  | .atom _, _ => rfl
  | .labelled label inner, hblind => by
      rw [bare, build_bare inner hblind, build]
      cases inner.build <;> rfl
  | .unary op operand, hblind => by
      rw [bare, build, build_bare operand hblind, build]
      cases operand.build with
      | error error => rfl
      | ok operand => exact Node.unaryOf_bare op operand
  | .placedUnary op operand location, hblind => by
      rw [bare, build, build_bare operand hblind, build]
      cases operand.build <;> rfl
  | .binary op left right, hblind => by
      obtain ⟨hleft, hright⟩ := List.forall_mem_append.mp hblind
      rw [bare, build, build_bare left hleft, build_bare right hright, build]
      cases left.build with
      | error error => rfl
      | ok left =>
          cases right.build with
          | error error => rfl
          | ok right => exact Node.binaryOf_bare op left right
  | .placedBinary op left right location, hblind => by
      obtain ⟨hleft, hright⟩ := List.forall_mem_append.mp hblind
      rw [bare, build, build_bare left hleft, build_bare right hright, build]
      cases left.build with
      | error error => rfl
      | ok left => cases right.build <;> rfl
  | .custom shape children, hblind => by
      obtain ⟨hshape, hchildren⟩ := List.forall_mem_cons.mp hblind
      rw [bare, build, buildAll_bareAll children hchildren, build]
      cases buildAll children with
      | error error => rfl
      | ok nodes => exact congrArg Except.ok (hshape.node_bareAll nodes)

theorem buildAll_bareAll : (drafts : List Draft) →
    (∀ shape ∈ shapesAll drafts, shape.LabelBlind) →
    buildAll (bareAll drafts) = Node.bareAll <$> buildAll drafts
  | [], _ => rfl
  | draft :: rest, hblind => by
      obtain ⟨hdraft, hrest⟩ := List.forall_mem_append.mp hblind
      rw [bareAll, buildAll, build_bare draft hdraft, buildAll_bareAll rest hrest, buildAll]
      cases draft.build with
      | error error => rfl
      | ok node => cases buildAll rest <;> rfl

end

theorem build_eq_error_iff {draft : Draft} (hblind : ∀ shape ∈ draft.shapes, shape.LabelBlind)
    {error : Error} : draft.build = .error error ↔ draft.bare.build = .error error := by
  rw [build_bare draft hblind]
  cases draft.build with
  | error other => exact Iff.rfl
  | ok node => exact iff_of_false nofun nofun

/-- Labels show in brackets where a node without a token shows the description of its child. -/
example :
    let paren : Shape :=
      ⟨fun children => "paren " ++ (children.map Node.describe).getLastD "", fun _ => none,
        fun _ => none⟩
    let x : Draft := .leaf { kind := "x" }
    Node.bracketed <$> (custom paren [x]).build = .ok "(paren x token x)" ∧
      Node.bracketed <$> (custom paren [.labelled "note" x]).build =
        .ok "(paren note: x token x)" := by
  decide

end Draft

end Precedence
