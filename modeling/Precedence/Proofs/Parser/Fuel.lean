import Precedence.Parser.Expression

/-!
# Evaluation without fuel

One step of an evaluation depends on the token that is taken and on what the table says of it:
`starting` and `following` put that into one place, and the equations below are all that other
proofs use of the engine.  More fuel never changes a result that an evaluation has reached.  So
`Evaluates` and `Continues` speak of results alone, and each is a partial function.
-/

namespace Precedence

section Programs

variable {S α : Type} {powerOf : Token → S → Except Error Int}
variable {expression expression' : Int → S → Option (Except Error Node × S)}
variable {statement statement' : S → Option (Except Error (Option Node) × S)}

/-- A run that has a result keeps it where expressions and statements have results at least as
often. -/
theorem Program.run_mono
    (hexpression : ∀ rbp s result, expression rbp s = some result →
      expression' rbp s = some result)
    (hstatement : ∀ s result, statement s = some result → statement' s = some result)
    (program : Program S α) (s : S) (result : α × S)
    (hrun : program.run powerOf expression statement s = some result) :
    program.run powerOf expression' statement' s = some result := by
  induction program generalizing s with
  | done value => exact hrun
  | look next ih => exact ih s s hrun
  | change state next ih => exact ih state hrun
  | powerOf token next ih => exact ih _ s hrun
  | expression rbp next ih =>
      simp only [run] at hrun ⊢
      cases hgiven : expression rbp s with
      | none => rw [hgiven] at hrun; cases hrun
      | some given =>
          rw [hgiven] at hrun
          rw [hexpression rbp s given hgiven]
          exact ih given.1 given.2 hrun
  | statement next ih =>
      simp only [run] at hrun ⊢
      cases hgiven : statement s with
      | none => rw [hgiven] at hrun; cases hrun
      | some given =>
          rw [hgiven] at hrun
          rw [hstatement s given hgiven]
          exact ih given.1 given.2 hrun

end Programs

namespace Parser

variable {A T τ : Type} (grammar : Grammar A T τ)

/-- The program with which a token starts an operand or a statement, whichever `place` stands
for. -/
def starting (place : Entry (Parser A T τ) → Option (Token → Parse (Parser A T τ) Node))
    (token : Token) (parser : Parser A T τ) : Except Error (Parse (Parser A T τ) Node) :=
  match parser.entry grammar token with
  | .error error => .error error
  | .ok entry =>
      match place entry with
      | none => .error (unexpectedToken token)
      | some start => .ok (start token)

/-- The program with which a token takes the operand to its left, or none if it does not bind it
more tightly than `rbp`. -/
def following (rbp : Int) (left : Node) (token : Token) (parser : Parser A T τ) :
    Except Error (Option (Parse (Parser A T τ) Node)) :=
  match parser.entry grammar token with
  | .error error => .error error
  | .ok entry =>
      if entry.power ≤ rbp then .ok none
      else
        match entry.next with
        | none => .error (unexpectedToken token)
        | some next => .ok (some (next left token))

variable [TokenStream τ]

/-- What an expression does with the operand that a program gave. -/
def resume (fuel : Nat) (rbp : Int) :
    Except Error Node × Parser A T τ → Option (Except Error Node × Parser A T τ)
  | (.error error, parser) => some (.error error, parser)
  | (.ok left, parser) => operators grammar fuel rbp left parser

section Equations

variable {grammar} {rbp : Int} {left : Node} {parser next : Parser A T τ} {token : Token}
variable {error : Error} {program : Parse (Parser A T τ) Node}

theorem expression_none (fuel : Nat) (hnext : parser.nextToken = (none, next)) :
    expression grammar (fuel + 1) rbp parser =
      some (.error (Error.expectedToken.place parser.currentLocation), next) := by
  rw [expression, hnext]

theorem expression_error (fuel : Nat) (hnext : parser.nextToken = (some token, next))
    (hstarting : next.starting grammar Entry.first token = .error error) :
    expression grammar (fuel + 1) rbp parser = some (.error error, next) := by
  rw [expression, hnext]
  grind [starting]

theorem expression_starting (fuel : Nat) (hnext : parser.nextToken = (some token, next))
    (hstarting : next.starting grammar Entry.first token = .ok program) :
    expression grammar (fuel + 1) rbp parser =
      (program.run.run (powerOf grammar) (expression grammar fuel) (statement grammar fuel)
        next).bind (resume grammar fuel rbp) := by
  rw [expression, hnext]
  grind [starting, resume]

theorem operators_none (fuel : Nat) (hnext : parser.nextToken = (none, next)) :
    operators grammar (fuel + 1) rbp left parser = some (.ok left, next) := by
  rw [operators, hnext]

theorem operators_error (fuel : Nat) (hnext : parser.nextToken = (some token, next))
    (hfollowing : next.following grammar rbp left token = .error error) :
    operators grammar (fuel + 1) rbp left parser = some (.error error, next) := by
  rw [operators, hnext]
  grind [following]

theorem operators_stop (fuel : Nat) (hnext : parser.nextToken = (some token, next))
    (hfollowing : next.following grammar rbp left token = .ok none) :
    operators grammar (fuel + 1) rbp left parser = some (.ok left, next.pushBack token) := by
  rw [operators, hnext]
  grind [following]

theorem operators_following (fuel : Nat) (hnext : parser.nextToken = (some token, next))
    (hfollowing : next.following grammar rbp left token = .ok (some program)) :
    operators grammar (fuel + 1) rbp left parser =
      (program.run.run (powerOf grammar) (expression grammar fuel) (statement grammar fuel)
        next).bind (resume grammar fuel rbp) := by
  rw [operators, hnext]
  grind [following, resume]

theorem statement_none (fuel : Nat) (hnext : parser.nextToken = (none, next)) :
    statement grammar (fuel + 1) parser = some (.ok none, next) := by
  rw [statement, hnext]

theorem statement_error (fuel : Nat) (hnext : parser.nextToken = (some token, next))
    (hstarting : next.starting grammar Entry.statement token = .error error) :
    statement grammar (fuel + 1) parser = some (.error error, next) := by
  rw [statement, hnext]
  grind [starting]

theorem statement_starting (fuel : Nat) (hnext : parser.nextToken = (some token, next))
    (hstarting : next.starting grammar Entry.statement token = .ok program) :
    statement grammar (fuel + 1) parser =
      (program.run.run (powerOf grammar) (expression grammar fuel) (statement grammar fuel)
        next).map fun given => (given.1.map some, given.2) := by
  rw [statement, hnext]
  grind [starting]

end Equations

/-- One more unit of fuel changes no result. -/
structure FuelStable (fuel : Nat) : Prop where
  expression : ∀ rbp (parser : Parser A T τ) result,
    expression grammar fuel rbp parser = some result →
      expression grammar (fuel + 1) rbp parser = some result
  operators : ∀ rbp left (parser : Parser A T τ) result,
    operators grammar fuel rbp left parser = some result →
      operators grammar (fuel + 1) rbp left parser = some result
  statement : ∀ (parser : Parser A T τ) result,
    statement grammar fuel parser = some result →
      statement grammar (fuel + 1) parser = some result

namespace FuelStable

variable {grammar} {fuel : Nat}

theorem run_resume (hstable : FuelStable (τ := τ) grammar fuel)
    (program : Parse (Parser A T τ) Node) (rbp : Int) (next : Parser A T τ)
    (result : Except Error Node × Parser A T τ)
    (hrun : (program.run.run (powerOf grammar) (Parser.expression grammar fuel)
      (Parser.statement grammar fuel) next).bind (resume grammar fuel rbp) = some result) :
    (program.run.run (powerOf grammar) (Parser.expression grammar (fuel + 1))
      (Parser.statement grammar (fuel + 1)) next).bind (resume grammar (fuel + 1) rbp) =
        some result := by
  obtain ⟨given, hgiven, hresume⟩ := Option.bind_eq_some_iff.mp hrun
  rw [program.run.run_mono hstable.expression hstable.statement next given hgiven]
  rcases given with ⟨error | left, parser⟩
  · exact hresume
  · exact hstable.operators rbp left parser result hresume

theorem expression_succ (hstable : FuelStable (τ := τ) grammar fuel) (rbp : Int)
    (parser : Parser A T τ) (result : Except Error Node × Parser A T τ)
    (hrun : Parser.expression grammar (fuel + 1) rbp parser = some result) :
    Parser.expression grammar (fuel + 2) rbp parser = some result := by
  rcases hnext : parser.nextToken with ⟨_ | token, next⟩
  · rw [expression_none fuel hnext] at hrun
    rw [expression_none (fuel + 1) hnext, hrun]
  cases hstarting : next.starting grammar Entry.first token with
  | error error =>
      rw [expression_error fuel hnext hstarting] at hrun
      rw [expression_error (fuel + 1) hnext hstarting, hrun]
  | ok program =>
      rw [expression_starting fuel hnext hstarting] at hrun
      rw [expression_starting (fuel + 1) hnext hstarting]
      exact hstable.run_resume program rbp next result hrun

theorem operators_succ (hstable : FuelStable (τ := τ) grammar fuel) (rbp : Int) (left : Node)
    (parser : Parser A T τ) (result : Except Error Node × Parser A T τ)
    (hrun : Parser.operators grammar (fuel + 1) rbp left parser = some result) :
    Parser.operators grammar (fuel + 2) rbp left parser = some result := by
  rcases hnext : parser.nextToken with ⟨_ | token, next⟩
  · rw [operators_none fuel hnext] at hrun
    rw [operators_none (fuel + 1) hnext, hrun]
  rcases hfollowing : next.following grammar rbp left token with error | _ | program
  · rw [operators_error fuel hnext hfollowing] at hrun
    rw [operators_error (fuel + 1) hnext hfollowing, hrun]
  · rw [operators_stop fuel hnext hfollowing] at hrun
    rw [operators_stop (fuel + 1) hnext hfollowing, hrun]
  · rw [operators_following fuel hnext hfollowing] at hrun
    rw [operators_following (fuel + 1) hnext hfollowing]
    exact hstable.run_resume program rbp next result hrun

theorem statement_succ (hstable : FuelStable (τ := τ) grammar fuel) (parser : Parser A T τ)
    (result : Except Error (Option Node) × Parser A T τ)
    (hrun : Parser.statement grammar (fuel + 1) parser = some result) :
    Parser.statement grammar (fuel + 2) parser = some result := by
  rcases hnext : parser.nextToken with ⟨_ | token, next⟩
  · rw [statement_none fuel hnext] at hrun
    rw [statement_none (fuel + 1) hnext, hrun]
  cases hstarting : next.starting grammar Entry.statement token with
  | error error =>
      rw [statement_error fuel hnext hstarting] at hrun
      rw [statement_error (fuel + 1) hnext hstarting, hrun]
  | ok program =>
      rw [statement_starting fuel hnext hstarting] at hrun
      rw [statement_starting (fuel + 1) hnext hstarting]
      obtain ⟨given, hgiven, rfl⟩ := Option.map_eq_some_iff.mp hrun
      rw [program.run.run_mono hstable.expression hstable.statement next given hgiven]
      rfl

end FuelStable

theorem fuelStable (fuel : Nat) : FuelStable (τ := τ) grammar fuel := by
  induction fuel with
  | zero =>
      constructor
      · intro rbp parser result hrun
        rw [expression] at hrun
        cases hrun
      · intro rbp left parser result hrun
        rw [operators] at hrun
        cases hrun
      · intro parser result hrun
        rw [statement] at hrun
        cases hrun
  | succ fuel ih => exact ⟨ih.expression_succ, ih.operators_succ, ih.statement_succ⟩

variable {grammar} {rbp : Int} {left : Node} {parser : Parser A T τ}
variable {result result' : Except Error Node × Parser A T τ}

theorem expression_fuel_le {fuel fuel' : Nat} (hle : fuel ≤ fuel')
    (hrun : expression grammar fuel rbp parser = some result) :
    expression grammar fuel' rbp parser = some result := by
  induction hle with
  | refl => exact hrun
  | step _ ih => exact (fuelStable grammar _).expression rbp parser result ih

theorem operators_fuel_le {fuel fuel' : Nat} (hle : fuel ≤ fuel')
    (hrun : operators grammar fuel rbp left parser = some result) :
    operators grammar fuel' rbp left parser = some result := by
  induction hle with
  | refl => exact hrun
  | step _ ih => exact (fuelStable grammar _).operators rbp left parser result ih

theorem statement_fuel_le {result : Except Error (Option Node) × Parser A T τ} {fuel fuel' : Nat}
    (hle : fuel ≤ fuel') (hrun : statement grammar fuel parser = some result) :
    statement grammar fuel' parser = some result := by
  induction hle with
  | refl => exact hrun
  | step _ ih => exact (fuelStable grammar _).statement parser result ih

theorem statements_succ {fuel : Nat} {parser : Parser A T τ}
    {result : Except Error (List Node) × Parser A T τ}
    (hrun : statements grammar fuel parser = some result) :
    statements grammar (fuel + 1) parser = some result := by
  induction fuel generalizing parser result with
  | zero => cases hrun
  | succ fuel ih =>
      rw [statements] at hrun ⊢
      rcases hgiven : statement grammar fuel parser with _ | ⟨error | _ | node, between⟩
      · rw [hgiven] at hrun
        cases hrun
      · rw [statement_fuel_le (Nat.le_succ fuel) hgiven]
        rwa [hgiven] at hrun
      · rw [statement_fuel_le (Nat.le_succ fuel) hgiven]
        rwa [hgiven] at hrun
      · rw [statement_fuel_le (Nat.le_succ fuel) hgiven]
        simp only [hgiven] at hrun ⊢
        cases hrest : statements grammar fuel between with
        | none => rw [hrest] at hrun; cases hrun
        | some rest =>
            rw [ih hrest]
            rwa [hrest] at hrun

theorem statements_fuel_le {result : Except Error (List Node) × Parser A T τ} {fuel fuel' : Nat}
    (hle : fuel ≤ fuel') (hrun : statements grammar fuel parser = some result) :
    statements grammar fuel' parser = some result := by
  induction hle with
  | refl => exact hrun
  | step _ ih => exact statements_succ ih

/-- A program that a grammar runs keeps its result. -/
theorem run_fuel_le {α : Type} {program : Program (Parser A T τ) α} {given : α × Parser A T τ}
    {fuel fuel' : Nat} (hle : fuel ≤ fuel')
    (hrun : program.run (powerOf grammar) (expression grammar fuel) (statement grammar fuel)
      parser = some given) :
    program.run (powerOf grammar) (expression grammar fuel') (statement grammar fuel')
      parser = some given :=
  program.run_mono (fun _ _ _ => expression_fuel_le hle) (fun _ _ => statement_fuel_le hle)
    parser given hrun

variable (grammar)

/-- A program that the grammar runs has the result, for some amount of fuel. -/
def Returns {α : Type} (program : Program (Parser A T τ) α) (parser : Parser A T τ)
    (given : α × Parser A T τ) : Prop :=
  ∃ fuel, program.run (powerOf grammar) (expression grammar fuel) (statement grammar fuel)
    parser = some given

/-- An expression has the result, for some amount of fuel. -/
def Evaluates (rbp : Int) (parser : Parser A T τ)
    (result : Except Error Node × Parser A T τ) : Prop :=
  ∃ fuel, expression grammar fuel rbp parser = some result

/-- An expression whose operand so far is `left` has the result, for some amount of fuel. -/
def Continues (rbp : Int) (left : Node) (parser : Parser A T τ)
    (result : Except Error Node × Parser A T τ) : Prop :=
  ∃ fuel, operators grammar fuel rbp left parser = some result

variable {grammar}

theorem Evaluates.unique (hresult : Evaluates grammar rbp parser result)
    (hresult' : Evaluates grammar rbp parser result') : result = result' := by
  obtain ⟨fuel, hrun⟩ := hresult
  obtain ⟨fuel', hrun'⟩ := hresult'
  have hmost := expression_fuel_le (Nat.le_max_left fuel fuel') hrun
  have hmost' := expression_fuel_le (Nat.le_max_right fuel fuel') hrun'
  exact Option.some.inj (hmost.symm.trans hmost')

end Parser

end Precedence
