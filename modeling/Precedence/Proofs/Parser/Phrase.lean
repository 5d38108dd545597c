import Precedence.Proofs.Parser.ReadyMade

/-!
# Phrases and their normal form

A phrase is an expression over ready-made operators as its tokens group it.  It is normal for a
binding power if every operator stands where its power and its grouping put it.  Whether the
token after a phrase goes on with it depends on the powers at which the operands on the right
edge of the phrase were parsed: the phrase is over where that token binds none of them.
-/

namespace Precedence

inductive Phrase
  | literal (token : Token)
  | prefixed (op : Token) (operand : Phrase)
  | infixed (left : Phrase) (op : Token) (right : Phrase)
  deriving DecidableEq

def Operator.prefixPower? (op : Operator) : Option Int :=
  match op.opening with
  | some (.prefixOp power) => some power
  | _ => none

def Operator.rightPower? (op : Operator) : Option Int :=
  op.grouping.map (·.operandPower op.power)

/-- A token of the kind in one column of a line. -/
def Token.inColumn (kind : String) (col : UInt32) : Token :=
  { kind, location := some (.file ⟨"line", ⟨1, col⟩, ⟨1, col + 1⟩⟩) }

/-- The rest is empty, or it starts with a known token that binds at none of the powers. -/
def Operators.Stop (ops : Operators) (powers : List Int) (rest : List Token) : Prop :=
  ∀ token ∈ rest.head?, ∃ op, ops token.kind = some op ∧ ∀ power ∈ powers, op.power ≤ power

/-- The first token, if it is known, binds at none of the powers. -/
def Operators.Bounded (ops : Operators) (powers : List Int) (tokens : List Token) : Prop :=
  ∀ token ∈ tokens.head?, ∀ op, ops token.kind = some op → ∀ power ∈ powers, op.power ≤ power

theorem Operators.Stop.bounded {ops : Operators} {powers : List Int} {rest : List Token}
    (hstop : ops.Stop powers rest) : ops.Bounded powers rest := by
  intro token htoken op hkind
  obtain ⟨op', hkind', hpowers⟩ := hstop token htoken
  cases hkind.symm.trans hkind'
  exact hpowers

theorem Operators.Stop.tail {ops : Operators} {power : Int} {powers : List Int}
    {rest : List Token} (hstop : ops.Stop (power :: powers) rest) : ops.Stop powers rest := by
  intro token htoken
  obtain ⟨op, hkind, hpowers⟩ := hstop token htoken
  exact ⟨op, hkind, fun power hpower => hpowers power (List.mem_cons_of_mem _ hpower)⟩

theorem Operators.stop_cons {ops : Operators} {powers : List Int} {token : Token} {op : Operator}
    (hkind : ops token.kind = some op) (hpowers : ∀ power ∈ powers, op.power ≤ power)
    (rest : List Token) : ops.Stop powers (token :: rest) := by
  intro first hfirst
  cases hfirst
  exact ⟨op, hkind, hpowers⟩

theorem Node.eq_of_unaryOf {op : Token} {operand node : Node}
    (hbuild : unaryOf op operand = .ok node) :
    ∃ location, Location.span op.location operand.location? = .ok location ∧
      node = .unary op operand location := by
  cases hspan : Location.span op.location operand.location? with
  | error error => rw [unaryOf, hspan] at hbuild; cases hbuild
  | ok location => rw [unaryOf, hspan] at hbuild; cases hbuild; exact ⟨location, rfl, rfl⟩

theorem Node.eq_of_binaryOf {op : Token} {left right node : Node}
    (hbuild : binaryOf op left right = .ok node) :
    ∃ location, Location.span left.location? right.location? = .ok location ∧
      node = .binary op left right (if op.location.isSome then location else none) := by
  cases hspan : Location.span left.location? right.location? with
  | error error => rw [binaryOf, hspan] at hbuild; cases hbuild
  | ok location => rw [binaryOf, hspan] at hbuild; cases hbuild; exact ⟨location, rfl, rfl⟩

namespace Phrase

/-- The tokens of the phrase in order. -/
def tokens : Phrase → List Token
  | .literal token => [token]
  | .prefixed op operand => op :: operand.tokens
  | .infixed left op right => left.tokens ++ op :: right.tokens

/-- The syntax tree of the phrase. -/
def node : Phrase → Except Error Node
  | .literal token => .ok (.leaf token)
  | .prefixed op operand => operand.node.bind (Node.unaryOf op)
  | .infixed left op right => left.node.bind fun left => right.node.bind (Node.binaryOf op left)

/-- The binding powers at which the operands on the right edge are parsed, the outermost first. -/
def rightEdge (ops : Operators) : Phrase → List Int
  | .literal _ => []
  | .prefixed op operand =>
      ((ops op.kind).bind Operator.prefixPower?).toList ++ operand.rightEdge ops
  | .infixed _ op right =>
      ((ops op.kind).bind Operator.rightPower?).toList ++ right.rightEdge ops

/-- Operators of the phrase outside its operands bind more tightly than `rbp`, and none of them
would have been taken by an operand to its left. -/
inductive Normal (ops : Operators) : Int → Phrase → Prop
  | literal {rbp : Int} {token : Token} {op : Operator} (hkind : ops token.kind = some op)
      (hopening : op.opening = some .literal) : Normal ops rbp (.literal token)
  | prefixed {rbp power : Int} {token : Token} {op : Operator} {operand : Phrase}
      (hkind : ops token.kind = some op) (hopening : op.opening = some (.prefixOp power))
      (hoperand : Normal ops power operand) : Normal ops rbp (.prefixed token operand)
  | infixed {rbp : Int} {token : Token} {op : Operator} {grouping : Grouping}
      {left right : Phrase} (hkind : ops token.kind = some op)
      (hgrouping : op.grouping = some grouping) (hbinds : rbp < op.power)
      (hleft : Normal ops rbp left) (hedge : ∀ power ∈ left.rightEdge ops, op.power ≤ power)
      (hright : Normal ops (grouping.operandPower op.power) right) :
      Normal ops rbp (.infixed left token right)

/-- The phrase is what an expression at binding power `rbp` takes of the tokens, and `rest` is
what it leaves. -/
structure IsParse (ops : Operators) (rbp : Int) (tokens : List Token) (phrase : Phrase)
    (rest : List Token) : Prop where
  tokens_eq : tokens = phrase.tokens ++ rest
  normal : phrase.Normal ops rbp
  stop : ops.Stop (rbp :: phrase.rightEdge ops) rest

variable {ops : Operators} {token : Token} {op : Operator}

theorem rightEdge_prefixed {power : Int} (hkind : ops token.kind = some op)
    (hopening : op.opening = some (.prefixOp power)) (operand : Phrase) :
    (prefixed token operand).rightEdge ops = power :: operand.rightEdge ops := by
  simp [rightEdge, hkind, Operator.prefixPower?, hopening]

theorem rightEdge_infixed {grouping : Grouping} (hkind : ops token.kind = some op)
    (hgrouping : op.grouping = some grouping) (left right : Phrase) :
    (infixed left token right).rightEdge ops =
      grouping.operandPower op.power :: right.rightEdge ops := by
  simp [rightEdge, hkind, Operator.rightPower?, hgrouping]

theorem node_prefixed {operand : Phrase} {tree : Node}
    (hnode : (prefixed token operand).node = .ok tree) :
    ∃ inner, operand.node = .ok inner ∧ Node.unaryOf token inner = .ok tree := by
  cases hinner : operand.node with
  | error error => simp [node, hinner, Except.bind] at hnode
  | ok inner => exact ⟨inner, rfl, by simpa [node, hinner, Except.bind] using hnode⟩

theorem node_infixed {left right : Phrase} {tree : Node}
    (hnode : (infixed left token right).node = .ok tree) :
    ∃ leftTree rightTree, left.node = .ok leftTree ∧ right.node = .ok rightTree ∧
      Node.binaryOf token leftTree rightTree = .ok tree := by
  cases hleft : left.node with
  | error error => simp [node, hleft, Except.bind] at hnode
  | ok leftTree =>
      cases hright : right.node with
      | error error => simp [node, hleft, hright, Except.bind] at hnode
      | ok rightTree =>
          exact ⟨leftTree, rightTree, rfl, rfl,
            by simpa [node, hleft, hright, Except.bind] using hnode⟩

theorem node_unique {phrase other : Phrase} {tree : Node} (hnode : phrase.node = .ok tree)
    (hother : other.node = .ok tree) : phrase = other := by
  induction phrase generalizing other tree with
  | literal token =>
      cases hnode
      cases other with
      | literal token' => cases hother; rfl
      | prefixed op operand =>
          obtain ⟨inner, -, hbuild⟩ := node_prefixed hother
          obtain ⟨location, -, hshape⟩ := Node.eq_of_unaryOf hbuild
          cases hshape
      | infixed left op right =>
          obtain ⟨leftTree, rightTree, -, -, hbuild⟩ := node_infixed hother
          obtain ⟨location, -, hshape⟩ := Node.eq_of_binaryOf hbuild
          cases hshape
  | prefixed op operand ih =>
      obtain ⟨inner, hinner, hbuild⟩ := node_prefixed hnode
      obtain ⟨location, -, rfl⟩ := Node.eq_of_unaryOf hbuild
      cases other with
      | literal token => cases hother
      | prefixed op' operand' =>
          obtain ⟨inner', hinner', hbuild'⟩ := node_prefixed hother
          obtain ⟨location', -, hshape⟩ := Node.eq_of_unaryOf hbuild'
          cases hshape
          rw [ih hinner hinner']
      | infixed left op' right =>
          obtain ⟨leftTree, rightTree, -, -, hbuild'⟩ := node_infixed hother
          obtain ⟨location', -, hshape⟩ := Node.eq_of_binaryOf hbuild'
          cases hshape
  | infixed left op right ihLeft ihRight =>
      obtain ⟨leftTree, rightTree, hleft, hright, hbuild⟩ := node_infixed hnode
      obtain ⟨location, -, rfl⟩ := Node.eq_of_binaryOf hbuild
      cases other with
      | literal token => cases hother
      | prefixed op' operand =>
          obtain ⟨inner, -, hbuild'⟩ := node_prefixed hother
          obtain ⟨location', -, hshape⟩ := Node.eq_of_unaryOf hbuild'
          cases hshape
      | infixed left' op' right' =>
          obtain ⟨leftTree', rightTree', hleft', hright', hbuild'⟩ := node_infixed hother
          obtain ⟨location', -, hshape⟩ := Node.eq_of_binaryOf hbuild'
          obtain ⟨rfl, rfl, rfl, -⟩ := Node.binary.inj hshape
          rw [ihLeft hleft hleft', ihRight hright hright']

end Phrase

end Precedence
