import Precedence.Proofs.Parser.Input
import Precedence.Proofs.Parser.ReadyMade

/-!
# Steps under ready-made tables

Under a table of ready-made operators, the first token decides what an expression, or the loop over
the operators after an operand, does next.  The relations below list all the ways in which either
comes to its result, and what that leaves to smaller amounts of fuel.
-/

namespace Precedence.Parser

variable {A T τ : Type} [TokenStream τ] (grammar : Grammar A T τ) (ops : Operators)

/-- An operand is parsed at `power` and built on, and the operators after it are gone through. -/
inductive Builds (fuel : Nat) (rbp power : Int) (build : Node → Except Error Node)
    (next : Parser A T τ) : Except Error Node × Parser A T τ → Prop
  | fails {error : Error} {last : Parser A T τ}
      (hoperand : expression grammar fuel power next = some (.error error, last)) :
      Builds fuel rbp power build next (.error error, last)
  | breaks {operand : Node} {error : Error} {last : Parser A T τ}
      (hoperand : expression grammar fuel power next = some (.ok operand, last))
      (hbuild : build operand = .error error) :
      Builds fuel rbp power build next (.error error, last)
  | loops {operand left : Node} {between : Parser A T τ} {result : Except Error Node × Parser A T τ}
      (hoperand : expression grammar fuel power next = some (.ok operand, between))
      (hbuild : build operand = .ok left)
      (hloop : operators grammar fuel rbp left between = some result) :
      Builds fuel rbp power build next result

/-- What an expression makes of the tokens. -/
inductive Starts (fuel : Nat) (rbp : Int) :
    List Token → Except Error Node × Parser A T τ → Prop
  | missing {location : Option Location} {last : Parser A T τ} :
      Starts fuel rbp [] (.error (Error.expectedToken.place location), last)
  | unknown {token : Token} {tokens : List Token} {last : Parser A T τ}
      (hkind : ops token.kind = none) :
      Starts fuel rbp (token :: tokens) (.error (unknownToken token), last)
  | unexpected {token : Token} {tokens : List Token} {op : Operator} {last : Parser A T τ}
      (hkind : ops token.kind = some op) (hopening : op.opening = none) :
      Starts fuel rbp (token :: tokens) (.error (unexpectedToken token), last)
  | literal {token : Token} {tokens : List Token} {op : Operator} {next : Parser A T τ}
      {result : Except Error Node × Parser A T τ} (hkind : ops token.kind = some op)
      (hopening : op.opening = some .literal) (hreads : next.Reads tokens)
      (huses : next.Uses grammar ops)
      (hloop : operators grammar fuel rbp (.leaf token) next = some result) :
      Starts fuel rbp (token :: tokens) result
  | prefixed {token : Token} {tokens : List Token} {op : Operator} {power : Int}
      {next : Parser A T τ} {result : Except Error Node × Parser A T τ}
      (hkind : ops token.kind = some op) (hopening : op.opening = some (.prefixOp power))
      (hreads : next.Reads tokens) (huses : next.Uses grammar ops)
      (hbuilds : Builds grammar fuel rbp power (Node.unaryOf token) next result) :
      Starts fuel rbp (token :: tokens) result

/-- What becomes of the operand `left` before the tokens. -/
inductive GoesOn (fuel : Nat) (rbp : Int) (left : Node) :
    List Token → Except Error Node × Parser A T τ → Prop
  | ended {last : Parser A T τ} (hreads : last.Reads []) (huses : last.Uses grammar ops) :
      GoesOn fuel rbp left [] (.ok left, last)
  | unknown {token : Token} {tokens : List Token} {last : Parser A T τ}
      (hkind : ops token.kind = none) :
      GoesOn fuel rbp left (token :: tokens) (.error (unknownToken token), last)
  | stopped {token : Token} {tokens : List Token} {op : Operator} {last : Parser A T τ}
      (hkind : ops token.kind = some op) (hbinds : op.power ≤ rbp)
      (hreads : last.Reads (token :: tokens)) (huses : last.Uses grammar ops) :
      GoesOn fuel rbp left (token :: tokens) (.ok left, last)
  | unexpected {token : Token} {tokens : List Token} {op : Operator} {last : Parser A T τ}
      (hkind : ops token.kind = some op) (hgrouping : op.grouping = none) :
      GoesOn fuel rbp left (token :: tokens) (.error (unexpectedToken token), last)
  | infixed {token : Token} {tokens : List Token} {op : Operator} {grouping : Grouping}
      {next : Parser A T τ} {result : Except Error Node × Parser A T τ}
      (hkind : ops token.kind = some op) (hgrouping : op.grouping = some grouping)
      (hbinds : rbp < op.power) (hreads : next.Reads tokens) (huses : next.Uses grammar ops)
      (hbuilds : Builds grammar fuel rbp (grouping.operandPower op.power)
        (Node.binaryOf token left) next result) :
      GoesOn fuel rbp left (token :: tokens) result

variable {grammar ops} {fuel : Nat} {rbp power : Int} {tokens : List Token}
variable {parser next : Parser A T τ} {result : Except Error Node × Parser A T τ}

theorem builds_of_resume {build : Node → Except Error Node}
    (hresume : ((expression grammar fuel power next).map fun given =>
      (given.1.bind build, given.2)).bind (resume grammar fuel rbp) = some result) :
    Builds grammar fuel rbp power build next result := by
  rcases hgiven : expression grammar fuel power next with _ | ⟨error | operand, between⟩
  · rw [hgiven] at hresume
    cases hresume
  · rw [hgiven] at hresume
    cases hresume
    exact .fails hgiven
  · simp only [hgiven, Option.map_some, Option.bind_some, Except.bind] at hresume
    cases hbuild : build operand with
    | error error =>
        rw [hbuild] at hresume
        cases hresume
        exact .breaks hgiven hbuild
    | ok left =>
        rw [hbuild] at hresume
        exact .loops hgiven hbuild hresume

theorem starts_of_expression (huses : parser.Uses grammar ops) (hreads : parser.Reads tokens)
    (hrun : expression grammar (fuel + 1) rbp parser = some result) :
    Starts grammar ops fuel rbp tokens result := by
  cases tokens with
  | nil =>
      obtain ⟨next, hnext, -, -⟩ := nextToken_nil hreads
      rw [expression_none fuel hnext] at hrun
      cases hrun
      exact .missing
  | cons token tokens =>
      obtain ⟨next, hnext, hrest, htables⟩ := nextToken_cons hreads
      have husesNext := huses.of_tables htables
      have hstarting := husesNext.starting token
      cases hkind : ops token.kind with
      | none =>
          rw [hkind] at hstarting
          rw [expression_error fuel hnext hstarting] at hrun
          cases hrun
          exact .unknown hkind
      | some op =>
          simp only [hkind] at hstarting
          rcases hopening : op.opening with _ | _ | power
          · rw [hopening] at hstarting
            rw [expression_error fuel hnext hstarting] at hrun
            cases hrun
            exact .unexpected hkind hopening
          · rw [hopening] at hstarting
            rw [expression_starting fuel hnext hstarting, Opening.run_literal] at hrun
            exact .literal hkind hopening hrest husesNext hrun
          · rw [hopening] at hstarting
            rw [expression_starting fuel hnext hstarting, Opening.run_prefixOp] at hrun
            exact .prefixed hkind hopening hrest husesNext (builds_of_resume hrun)

theorem goesOn_of_operators {left : Node} (huses : parser.Uses grammar ops)
    (hreads : parser.Reads tokens)
    (hrun : operators grammar (fuel + 1) rbp left parser = some result) :
    GoesOn grammar ops fuel rbp left tokens result := by
  cases tokens with
  | nil =>
      obtain ⟨next, hnext, hrest, htables⟩ := nextToken_nil hreads
      rw [operators_none fuel hnext] at hrun
      cases hrun
      exact .ended hrest (huses.of_tables htables)
  | cons token tokens =>
      obtain ⟨next, hnext, hrest, htables⟩ := nextToken_cons hreads
      have husesNext := huses.of_tables htables
      have hfollowing := husesNext.following rbp left token
      cases hkind : ops token.kind with
      | none =>
          rw [hkind] at hfollowing
          rw [operators_error fuel hnext hfollowing] at hrun
          cases hrun
          exact .unknown hkind
      | some op =>
          simp only [hkind] at hfollowing
          by_cases hbinds : op.power ≤ rbp
          · rw [if_pos hbinds] at hfollowing
            rw [operators_stop fuel hnext hfollowing] at hrun
            cases hrun
            exact .stopped hkind hbinds (reads_pushBack token hrest) (husesNext.of_tables rfl)
          · rw [if_neg hbinds] at hfollowing
            cases hgrouping : op.grouping with
            | none =>
                rw [hgrouping] at hfollowing
                rw [operators_error fuel hnext hfollowing] at hrun
                cases hrun
                exact .unexpected hkind hgrouping
            | some grouping =>
                rw [hgrouping] at hfollowing
                rw [operators_following fuel hnext hfollowing,
                  grouping.run_program left (husesNext.powerOf hkind)] at hrun
                exact .infixed hkind hgrouping (Int.not_le.mp hbinds) hrest husesNext
                  (builds_of_resume hrun)

end Precedence.Parser
