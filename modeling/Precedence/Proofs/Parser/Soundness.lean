import Precedence.Proofs.Parser.Phrase
import Precedence.Proofs.Parser.Steps

/-!
# What an expression returns

Under a table of ready-made operators, a tree that an expression returns is the tree of a normal
phrase, the tokens taken are those of the phrase in order, and the phrase ends where no operand
on its right edge could have gone on.
-/

namespace Precedence.Parser

variable {A T τ : Type} [TokenStream τ] {grammar : Grammar A T τ} {ops : Operators}

/-- The tree is that of the phrase at the head of the tokens, and the parser reads the rest. -/
def Returned (grammar : Grammar A T τ) (ops : Operators) (rbp : Int) (tokens : List Token)
    (tree : Node) (last : Parser A T τ) : Prop :=
  ∃ phrase rest, Phrase.IsParse ops rbp tokens phrase rest ∧ phrase.node = .ok tree ∧
    last.Reads rest ∧ last.Uses grammar ops

def ExpressionSound (grammar : Grammar A T τ) (ops : Operators) (fuel : Nat) : Prop :=
  ∀ {rbp tokens tree} {parser last : Parser A T τ}, parser.Uses grammar ops →
    parser.Reads tokens → expression grammar fuel rbp parser = some (.ok tree, last) →
    Returned grammar ops rbp tokens tree last

/-- The invariant of the operator loop: `phrase` is the operand so far, and no operand on its
right edge could take the next token. -/
def OperatorsSound (grammar : Grammar A T τ) (ops : Operators) (fuel : Nat) : Prop :=
  ∀ {rbp tokens left tree} {phrase : Phrase} {parser last : Parser A T τ},
    parser.Uses grammar ops → parser.Reads tokens → phrase.node = .ok left →
    phrase.Normal ops rbp →
    ops.Bounded (phrase.rightEdge ops) tokens →
    operators grammar fuel rbp left parser = some (.ok tree, last) →
    Returned grammar ops rbp (phrase.tokens ++ tokens) tree last

theorem operatorsSound_succ {fuel : Nat} (hexpression : ExpressionSound grammar ops fuel)
    (hoperators : OperatorsSound grammar ops fuel) : OperatorsSound grammar ops (fuel + 1) := by
  intro rbp tokens left tree phrase parser last huses hreads hnode hnormal hedge hrun
  cases goesOn_of_operators huses hreads hrun with
  | ended hlast husesLast =>
      exact ⟨phrase, [], ⟨rfl, hnormal, by simp [Operators.Stop]⟩, hnode, hlast, husesLast⟩
  | @stopped token tokens op _ hkind hbinds hlast husesLast =>
      refine ⟨phrase, token :: tokens, ⟨rfl, hnormal, ?_⟩, hnode, hlast, husesLast⟩
      intro first hfirst
      cases hfirst
      exact ⟨op, hkind, List.forall_mem_cons.mpr ⟨hbinds, hedge token rfl op hkind⟩⟩
  | @infixed token _ op _ _ _ hkind hgrouping hbinds hrest husesNext hbuilds =>
      cases hbuilds with
      | @loops _ whole _ _ hoperand hbuild hloop =>
          obtain ⟨right, rest, ⟨rfl, hright, hstop⟩, hrightNode, hbetween, husesBetween⟩ :=
            hexpression husesNext hrest hoperand
          have hwhole : (Phrase.infixed phrase token right).node = .ok whole := by
            simp only [Phrase.node, hnode, hrightNode, Except.bind, hbuild]
          have hnormalWhole : (Phrase.infixed phrase token right).Normal ops rbp :=
            .infixed hkind hgrouping hbinds hnormal (hedge token rfl op hkind) hright
          have hedgeWhole := hstop.bounded
          rw [← Phrase.rightEdge_infixed hkind hgrouping phrase] at hedgeWhole
          have hreturned :=
            hoperators husesBetween hbetween hwhole hnormalWhole hedgeWhole hloop
          simpa [Phrase.tokens] using hreturned

theorem expressionSound_succ {fuel : Nat} (hexpression : ExpressionSound grammar ops fuel)
    (hoperators : OperatorsSound grammar ops fuel) : ExpressionSound grammar ops (fuel + 1) := by
  intro rbp tokens tree parser last huses hreads hrun
  cases starts_of_expression huses hreads hrun with
  | @literal token tokens _ _ _ hkind hopening hrest husesNext hloop =>
      have hedge : ops.Bounded ((Phrase.literal token).rightEdge ops) tokens := by
        simp [Phrase.rightEdge, Operators.Bounded]
      exact hoperators husesNext hrest rfl (.literal hkind hopening) hedge hloop
  | @prefixed token _ _ _ _ _ hkind hopening hrest husesNext hbuilds =>
      cases hbuilds with
      | @loops _ whole _ _ hoperand hbuild hloop =>
          obtain ⟨inner, rest, ⟨rfl, hinner, hstop⟩, hinnerNode, hbetween, husesBetween⟩ :=
            hexpression husesNext hrest hoperand
          have hwhole : (Phrase.prefixed token inner).node = .ok whole := by
            simp only [Phrase.node, hinnerNode, Except.bind, hbuild]
          have hedge := hstop.bounded
          rw [← Phrase.rightEdge_prefixed hkind hopening] at hedge
          exact hoperators husesBetween hbetween hwhole (.prefixed hkind hopening hinner) hedge
            hloop

theorem sound (grammar : Grammar A T τ) (ops : Operators) (fuel : Nat) :
    ExpressionSound grammar ops fuel ∧ OperatorsSound grammar ops fuel := by
  induction fuel with
  | zero =>
      constructor
      · intro rbp tokens tree parser last _ _ hrun
        rw [expression] at hrun
        cases hrun
      · intro rbp tokens left tree phrase parser last _ _ _ _ _ hrun
        rw [operators] at hrun
        cases hrun
  | succ fuel ih =>
      exact ⟨expressionSound_succ ih.1 ih.2, operatorsSound_succ ih.1 ih.2⟩

/-- Whatever tree an expression returns is that of the phrase at the head of the input, grouped
by the powers of its operators, and exactly the tokens after the phrase are left. -/
theorem expression_returns_parse {rbp : Int} {tokens : List Token} {tree : Node}
    {parser last : Parser A T τ} (huses : parser.Uses grammar ops) (hreads : parser.Reads tokens)
    (hresult : Evaluates grammar rbp parser (.ok tree, last)) :
    ∃ phrase rest, Phrase.IsParse ops rbp tokens phrase rest ∧ phrase.node = .ok tree ∧
      last.Reads rest := by
  obtain ⟨fuel, hrun⟩ := hresult
  obtain ⟨phrase, rest, hparse, hnode, hlast, -⟩ := (sound grammar ops fuel).1 huses hreads hrun
  exact ⟨phrase, rest, hparse, hnode, hlast⟩

/-- In `x * - x - x ^ x ^ x )` the prefix takes the difference, and the bracket is left. -/
theorem expression_returns_parse_arithmetic :
    let grammar : Grammar Unit Unit TokenList := fun _ => Table.ofOperators Operators.arithmetic
    let ops : Operators := fun kind => Operators.arithmetic.lookup kind
    let tokens := [.inColumn "x" 1, .inColumn "*" 2, .inColumn "-" 3, .inColumn "x" 4,
      .inColumn "-" 5, .inColumn "x" 6, .inColumn "^" 7, .inColumn "x" 8, .inColumn "^" 9,
      .inColumn "x" 10, .inColumn ")" 11]
    ∃ tree last, Evaluates grammar 0 (new () ⟨tokens⟩) (.ok tree, last) ∧
      ∃ phrase rest, Phrase.IsParse ops 0 tokens phrase rest ∧ phrase.node = .ok tree ∧
        last.Reads rest := by
  intro grammar ops tokens
  have hruns : ∃ tree last,
      expression grammar 11 0 (new () ⟨tokens⟩) = some (.ok tree, last) := ⟨_, _, rfl⟩
  obtain ⟨tree, last, hrun⟩ := hruns
  refine ⟨tree, last, ⟨11, hrun⟩, ?_⟩
  exact expression_returns_parse ⟨_, rfl, Table.follows_ofOperators _⟩
    (reads_new () (TokenList.gives tokens)) ⟨11, hrun⟩

end Precedence.Parser
