import Precedence.Parser
import Precedence.Parser.Table

/-!
# Expressions and statements

An expression starts with a token that can start an operand.  Then each token that binds its left
side more tightly than `rbp` takes the operand so far and makes a new one of it; the first token
that does not is pushed back and ends the expression.  Evaluation is bounded by fuel, and
`Option.none` stands for running out of it; a result that was reached is not changed by more fuel.
-/

namespace Precedence

/-- What the names on the table stack stand for. -/
abbrev Grammar (A T τ : Type) := T → Table (Parser A T τ)

/-- Runs a program, given what expressions and statements do. -/
def Program.run {S α : Type} (powerOf : Token → S → Except Error Int)
    (expression : Int → S → Option (Except Error Node × S))
    (statement : S → Option (Except Error (Option Node) × S)) :
    Program S α → S → Option (α × S)
  | .done result, s => some (result, s)
  | .look next, s => run powerOf expression statement (next s) s
  | .change s next, _ => run powerOf expression statement next s
  | .powerOf token next, s => run powerOf expression statement (next (powerOf token s)) s
  | .expression rbp next, s =>
      match expression rbp s with
      | none => none
      | some (result, s) => run powerOf expression statement (next result) s
  | .statement next, s =>
      match statement s with
      | none => none
      | some (result, s) => run powerOf expression statement (next result) s

namespace Parser

variable {A T τ : Type}

def unknownToken (token : Token) : Error :=
  (Error.unknownTokenType token.kind).place token.location

def unexpectedToken (token : Token) : Error :=
  (Error.unexpectedToken token.kind).place token.location

def table (grammar : Grammar A T τ) (parser : Parser A T τ) :
    Except Error (Table (Parser A T τ)) :=
  match parser.tables.top? with
  | none => .error .noTable
  | some name => .ok (grammar name)

/-- The entry for the kind of a token in the table on top of the stack. -/
def entry (grammar : Grammar A T τ) (token : Token) (parser : Parser A T τ) :
    Except Error (Entry (Parser A T τ)) :=
  match parser.table grammar with
  | .error error => .error error
  | .ok table =>
      match table.get? token.kind with
      | none => .error (unknownToken token)
      | some entry => .ok entry

def powerOf (grammar : Grammar A T τ) (token : Token) (parser : Parser A T τ) : Except Error Int :=
  (parser.entry grammar token).map Entry.power

variable [TokenStream τ] (grammar : Grammar A T τ)

mutual

def expression : Nat → Int → Parser A T τ → Option (Except Error Node × Parser A T τ)
  | 0, _, _ => none
  | fuel + 1, rbp, parser =>
      match parser.nextToken with
      | (none, next) => some (.error (Error.expectedToken.place parser.currentLocation), next)
      | (some token, parser) =>
          match parser.entry grammar token with
          | .error error => some (.error error, parser)
          | .ok entry =>
              match entry.first with
              | none => some (.error (unexpectedToken token), parser)
              | some first =>
                  match (first token).run.run (powerOf grammar) (expression fuel)
                      (statement fuel) parser with
                  | none => none
                  | some (.error error, parser) => some (.error error, parser)
                  | some (.ok left, parser) => operators fuel rbp left parser

/-- Goes on from an operand with the operators that bind more tightly than `rbp`. -/
def operators : Nat → Int → Node → Parser A T τ → Option (Except Error Node × Parser A T τ)
  | 0, _, _, _ => none
  | fuel + 1, rbp, left, parser =>
      match parser.nextToken with
      | (none, parser) => some (.ok left, parser)
      | (some token, parser) =>
          match parser.entry grammar token with
          | .error error => some (.error error, parser)
          | .ok entry =>
              if entry.power ≤ rbp then some (.ok left, parser.pushBack token)
              else
                match entry.next with
                | none => some (.error (unexpectedToken token), parser)
                | some next =>
                    match (next left token).run.run (powerOf grammar) (expression fuel)
                        (statement fuel) parser with
                    | none => none
                    | some (.error error, parser) => some (.error error, parser)
                    | some (.ok left, parser) => operators fuel rbp left parser

/-- One statement, or none at the end of the input. -/
def statement : Nat → Parser A T τ → Option (Except Error (Option Node) × Parser A T τ)
  | 0, _ => none
  | fuel + 1, parser =>
      match parser.nextToken with
      | (none, parser) => some (.ok none, parser)
      | (some token, parser) =>
          match parser.entry grammar token with
          | .error error => some (.error error, parser)
          | .ok entry =>
              match entry.statement with
              | none => some (.error (unexpectedToken token), parser)
              | some statementOf =>
                  match (statementOf token).run.run (powerOf grammar) (expression fuel)
                      (statement fuel) parser with
                  | none => none
                  | some (result, parser) => some (result.map some, parser)

end

/-- Statements up to the end of the input or the first error. -/
def statements : Nat → Parser A T τ → Option (Except Error (List Node) × Parser A T τ)
  | 0, _ => none
  | fuel + 1, parser =>
      match statement grammar fuel parser with
      | none => none
      | some (.error error, parser) => some (.error error, parser)
      | some (.ok none, parser) => some (.ok [], parser)
      | some (.ok (some node), parser) =>
          match statements fuel parser with
          | none => none
          | some (result, parser) => some (result.map (node :: ·), parser)

end Parser

end Precedence
