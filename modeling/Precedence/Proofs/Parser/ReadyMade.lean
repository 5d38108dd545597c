import Precedence.Parser.Operators
import Precedence.Proofs.Parser.Fuel

/-!
# Tables of ready-made operators

An entry that uses only the ready-made programs is described by data: its power, whether a token
of its kind is a literal or a prefix operator where an operand starts, and how it groups as an
infix operator.  Under a table of such entries the engine asks for nothing but these data.
-/

namespace Precedence

/-- What a token does at the start of an operand. -/
inductive Opening
  | literal
  | prefixOp (power : Int)
  deriving DecidableEq

/-- How an infix operator groups with operators of its own power. -/
inductive Grouping
  | left
  | right
  deriving DecidableEq

/-- What an entry says about expressions. -/
structure Operator where
  power : Int
  opening : Option Opening := none
  grouping : Option Grouping := none
  deriving DecidableEq

/-- The operators of a table by the kinds of their tokens. -/
abbrev Operators := String → Option Operator

variable {S : Type}

def Opening.program : Opening → Token → Parse S Node
  | .literal => Parse.literal
  | .prefixOp power => Parse.prefixOp Parse.unaryNode power

def Grouping.program : Grouping → Node → Token → Parse S Node
  | .left => Parse.infixLeft Parse.binaryNode
  | .right => Parse.infixRight Parse.binaryNode

/-- The binding power at which an operator of power `power` parses its right operand. -/
def Grouping.operandPower : Grouping → Int → Int
  | .left, power => power
  | .right, power => power - 1

/-- The entry is made of the ready-made programs; what it does with a statement is left open. -/
structure Entry.Follows (entry : Entry S) (op : Operator) : Prop where
  power : entry.power = op.power
  first : entry.first = op.opening.map Opening.program
  next : entry.next = op.grouping.map Grouping.program

/-- The table has an entry for exactly the kinds of `ops`, and each is ready-made. -/
def Table.Follows (table : Table S) (ops : Operators) : Prop :=
  ∀ kind, Option.Rel Entry.Follows (table.get? kind) (ops kind)

def Operator.entry (op : Operator) : Entry S where
  power := op.power
  first := op.opening.map Opening.program
  next := op.grouping.map Grouping.program

/-- The table of the given operators. -/
def Table.ofOperators (ops : List (String × Operator)) : Table S :=
  ⟨ops.map fun (kind, op) => (kind, op.entry)⟩

theorem Table.follows_ofOperators (ops : List (String × Operator)) :
    (ofOperators ops : Table S).Follows fun kind => ops.lookup kind := by
  intro kind
  induction ops with
  | nil => exact .none
  | cons head ops ih =>
      obtain ⟨name, op⟩ := head
      simp only [get?, ofOperators, List.map_cons, List.lookup_cons] at ih ⊢
      cases kind == name with
      | false => exact ih
      | true => exact .some ⟨rfl, rfl, rfl⟩

/-- Names, a product, and a minus sign that as a prefix takes a whole difference, although it may
stand inside a product; a closing bracket ends all of them. -/
def Operators.arithmetic : List (String × Operator) :=
  [("x", { power := 0, opening := some .literal }),
    ("*", { power := 20, grouping := some .left }),
    ("-", { power := 10, opening := some (.prefixOp 5), grouping := some .left }),
    ("^", { power := 30, grouping := some .right }),
    (")", { power := 0 })]

section Runs

variable {powerOf : Token → S → Except Error Int}
variable {expression : Int → S → Option (Except Error Node × S)}
variable {statement : S → Option (Except Error (Option Node) × S)}

theorem Opening.run_literal (token : Token) (s : S) :
    (Opening.literal.program token).run.run powerOf expression statement s =
      some (.ok (.leaf token), s) := rfl

/-- A prefix operator parses its operand and makes a node of it. -/
theorem Opening.run_prefixOp (power : Int) (op : Token) (s : S) :
    ((Opening.prefixOp power).program op).run.run powerOf expression statement s =
      (expression power s).map fun given => (given.1.bind (Node.unaryOf op), given.2) := by
  change (Program.expression power _).run powerOf expression statement s = _
  rw [Program.run]
  rcases expression power s with _ | ⟨error | operand, s'⟩ <;> rfl

/-- An infix operator of power `power` parses its right operand and makes a node of both. -/
theorem Grouping.run_program (grouping : Grouping) (left : Node) {op : Token} {s : S}
    {power : Int} (hpower : powerOf op s = .ok power) :
    (grouping.program left op).run.run powerOf expression statement s =
      (expression (grouping.operandPower power) s).map fun given =>
        (given.1.bind (Node.binaryOf op left), given.2) := by
  cases grouping with
  | left =>
      change (Program.powerOf op _).run powerOf expression statement s = _
      rw [Program.run, hpower]
      change (Program.expression power _).run powerOf expression statement s = _
      rw [Program.run, operandPower]
      rcases expression power s with _ | ⟨error | right, s'⟩ <;> rfl
  | right =>
      change (Program.powerOf op _).run powerOf expression statement s = _
      rw [Program.run, hpower]
      change (Program.expression (power - 1) _).run powerOf expression statement s = _
      rw [Program.run, operandPower]
      rcases expression (power - 1) s with _ | ⟨error | right, s'⟩ <;> rfl

end Runs

namespace Parser

variable {A T τ : Type} {grammar : Grammar A T τ} {ops : Operators}

/-- The table in effect is made of the ready-made operators `ops`. -/
def Uses (grammar : Grammar A T τ) (ops : Operators) (parser : Parser A T τ) : Prop :=
  ∃ table, parser.table grammar = .ok table ∧ table.Follows ops

theorem Uses.of_tables {parser parser' : Parser A T τ} (huses : parser.Uses grammar ops)
    (htables : parser'.tables = parser.tables) : parser'.Uses grammar ops := by
  obtain ⟨table, htable, hfollows⟩ := huses
  refine ⟨table, ?_, hfollows⟩
  rw [← htable, Parser.table, Parser.table, htables]

variable {parser : Parser A T τ} {token : Token} {op : Operator}

theorem Uses.entry_none (huses : parser.Uses grammar ops) (hkind : ops token.kind = none) :
    parser.entry grammar token = .error (unknownToken token) := by
  obtain ⟨table, htable, hfollows⟩ := huses
  have hentry := hfollows token.kind
  rw [hkind] at hentry
  simp only [entry, htable]
  cases hget : table.get? token.kind with
  | none => rfl
  | some entry => rw [hget] at hentry; cases hentry

theorem Uses.entry_some (huses : parser.Uses grammar ops) (hkind : ops token.kind = some op) :
    ∃ entry, parser.entry grammar token = .ok entry ∧ entry.Follows op := by
  obtain ⟨table, htable, hfollows⟩ := huses
  have hentry := hfollows token.kind
  rw [hkind] at hentry
  simp only [entry, htable]
  cases hget : table.get? token.kind with
  | none => rw [hget] at hentry; cases hentry
  | some entry =>
      rw [hget] at hentry
      cases hentry with
      | some hentry => exact ⟨entry, rfl, hentry⟩

theorem Uses.powerOf (huses : parser.Uses grammar ops) (hkind : ops token.kind = some op) :
    parser.powerOf grammar token = .ok op.power := by
  obtain ⟨entry, hentry, hfollows⟩ := huses.entry_some hkind
  rw [Parser.powerOf, hentry, ← hfollows.power]
  rfl

/-- Where an operand starts, only the token's opening counts. -/
theorem Uses.starting (huses : parser.Uses grammar ops) (token : Token) :
    parser.starting grammar Entry.first token =
      match ops token.kind with
      | none => .error (unknownToken token)
      | some op =>
          match op.opening with
          | none => .error (unexpectedToken token)
          | some opening => .ok (opening.program token) := by
  cases hkind : ops token.kind with
  | none => rw [Parser.starting, huses.entry_none hkind]
  | some op =>
      obtain ⟨entry, hentry, hfollows⟩ := huses.entry_some hkind
      rw [Parser.starting, hentry]
      simp only [hfollows.first]
      cases op.opening <;> rfl

/-- After an operand, only the token's power and grouping count. -/
theorem Uses.following (huses : parser.Uses grammar ops) (rbp : Int) (left : Node)
    (token : Token) :
    parser.following grammar rbp left token =
      match ops token.kind with
      | none => .error (unknownToken token)
      | some op =>
          if op.power ≤ rbp then .ok none
          else
            match op.grouping with
            | none => .error (unexpectedToken token)
            | some grouping => .ok (some (grouping.program left token)) := by
  cases hkind : ops token.kind with
  | none => rw [Parser.following, huses.entry_none hkind]
  | some op =>
      obtain ⟨entry, hentry, hfollows⟩ := huses.entry_some hkind
      rw [Parser.following, hentry]
      simp only [hfollows.power, hfollows.next]
      cases op.grouping <;> rfl

end Parser

end Precedence
