import Precedence.Proofs.Parser.Input
import Precedence.Proofs.Parser.Phrase
import Precedence.Proofs.Source

/-!
# What an expression reads

Every normal phrase is read back from its tokens: an expression takes exactly them, whatever
follows, as long as no operand on the right edge of the phrase can go on with it.  The tree of
the phrase has to exist, and in one source it does.
-/

namespace Precedence

namespace Phrase

/-- In one source the tree of a phrase can be built. -/
theorem node_of_holds {source : Source} (phrase : Phrase)
    (htokens : ∀ token ∈ phrase.tokens, source.Holds token.location) :
    ∃ tree, phrase.node = .ok tree ∧ source.Holds tree.location? := by
  induction phrase with
  | literal token => exact ⟨.leaf token, rfl, htokens token (by simp [tokens])⟩
  | prefixed op operand ih =>
      obtain ⟨inner, hinner, hlocation⟩ := ih fun token htoken =>
        htokens token (by simp [tokens, htoken])
      rw [node, hinner]
      exact Node.unaryOf_of_holds (htokens op (by simp [tokens])) hlocation
  | infixed left op right ihLeft ihRight =>
      obtain ⟨leftTree, hleft, hleftLocation⟩ := ihLeft fun token htoken =>
        htokens token (by simp [tokens, htoken])
      obtain ⟨rightTree, hright, hrightLocation⟩ := ihRight fun token htoken =>
        htokens token (by simp [tokens, htoken])
      rw [node, hleft, hright]
      exact Node.binaryOf_of_holds op hleftLocation hrightLocation

end Phrase

namespace Parser

variable {A T τ : Type} [TokenStream τ] {grammar : Grammar A T τ} {ops : Operators}

/-- An operand that is parsed and built on is what the operators after it go on from. -/
theorem exists_resume_build {rbp power : Int} {next between : Parser A T τ} {operand left : Node}
    {build : Node → Except Error Node} {result : Except Error Node × Parser A T τ}
    (hoperand : Evaluates grammar power next (.ok operand, between))
    (hbuild : build operand = .ok left) (hloop : Continues grammar rbp left between result) :
    ∃ fuel, ((expression grammar fuel power next).map fun given =>
      (given.1.bind build, given.2)).bind (resume grammar fuel rbp) = some result := by
  obtain ⟨fuel, hoperand⟩ := hoperand
  obtain ⟨fuel', hloop⟩ := hloop
  refine ⟨max fuel fuel', ?_⟩
  rw [expression_fuel_le (Nat.le_max_left fuel fuel') hoperand]
  simp only [Option.map_some, Option.bind_some, Except.bind, hbuild, resume]
  exact operators_fuel_le (Nat.le_max_right fuel fuel') hloop

/-- An operand goes no further than to a token that does not bind it. -/
theorem continues_stop {rbp : Int} {powers : List Int} {parser : Parser A T τ} {rest : List Token}
    (left : Node) (huses : parser.Uses grammar ops) (hreads : parser.Reads rest)
    (hstop : ops.Stop (rbp :: powers) rest) :
    ∃ last, Continues grammar rbp left parser (.ok left, last) ∧ last.Reads rest ∧
      last.Uses grammar ops := by
  cases rest with
  | nil =>
      obtain ⟨next, hnext, hrest, htables⟩ := nextToken_nil hreads
      exact ⟨next, ⟨1, operators_none 0 hnext⟩, hrest, huses.of_tables htables⟩
  | cons token tokens =>
      obtain ⟨next, hnext, hrest, htables⟩ := nextToken_cons hreads
      have husesNext := huses.of_tables htables
      obtain ⟨op, hkind, hpowers⟩ := hstop token rfl
      have hfollowing := husesNext.following rbp left token
      simp only [hkind] at hfollowing
      rw [if_pos (hpowers rbp List.mem_cons_self)] at hfollowing
      exact ⟨next.pushBack token, ⟨1, operators_stop 0 hnext hfollowing⟩,
        reads_pushBack token hrest, husesNext.of_tables rfl⟩

/-- Parsing at `rbp` comes to have `tree` as the operand so far, with `rest` still to be read. -/
def Reaches (grammar : Grammar A T τ) (ops : Operators) (rbp : Int) (parser : Parser A T τ)
    (tree : Node) (rest : List Token) : Prop :=
  ∃ next, next.Reads rest ∧ next.Uses grammar ops ∧
    ∀ result, Continues grammar rbp tree next result → Evaluates grammar rbp parser result

/-- What is reached before a token that does not bind it is returned. -/
theorem Reaches.evaluates {rbp : Int} {powers : List Int} {parser : Parser A T τ} {tree : Node}
    {rest : List Token} (hreaches : Reaches grammar ops rbp parser tree rest)
    (hstop : ops.Stop (rbp :: powers) rest) :
    ∃ last, Evaluates grammar rbp parser (.ok tree, last) ∧ last.Reads rest ∧
      last.Uses grammar ops := by
  obtain ⟨next, hreads, huses, hevaluates⟩ := hreaches
  obtain ⟨last, hloop, hlast, husesLast⟩ := continues_stop tree huses hreads hstop
  exact ⟨last, hevaluates _ hloop, hlast, husesLast⟩

section Steps

variable {rbp power : Int} {parser : Parser A T τ} {token : Token} {op : Operator}
variable {rest : List Token} {left operand tree : Node}

theorem reaches_literal (huses : parser.Uses grammar ops) (hreads : parser.Reads (token :: rest))
    (hkind : ops token.kind = some op) (hopening : op.opening = some .literal) :
    Reaches grammar ops rbp parser (.leaf token) rest := by
  obtain ⟨next, hnext, hrest, htables⟩ := nextToken_cons hreads
  have husesNext := huses.of_tables htables
  have hstarting := husesNext.starting token
  simp only [hkind, hopening] at hstarting
  refine ⟨next, hrest, husesNext, ?_⟩
  intro result hloop
  obtain ⟨fuel, hloop⟩ := hloop
  refine ⟨fuel + 1, ?_⟩
  rw [expression_starting fuel hnext hstarting, Opening.run_literal]
  exact hloop

/-- A prefix operator reaches its node where its operand, parsed at the operator's own power,
is reached and ends. -/
theorem reaches_prefixed {tokens : List Token} {powers : List Int}
    (huses : parser.Uses grammar ops)
    (hreads : parser.Reads (token :: tokens)) (hkind : ops token.kind = some op)
    (hopening : op.opening = some (.prefixOp power))
    (hoperand : ∀ {next : Parser A T τ}, next.Uses grammar ops → next.Reads tokens →
      Reaches grammar ops power next operand rest)
    (hstop : ops.Stop (power :: powers) rest) (hbuild : Node.unaryOf token operand = .ok tree) :
    Reaches grammar ops rbp parser tree rest := by
  obtain ⟨next, hnext, hrest, htables⟩ := nextToken_cons hreads
  have husesNext := huses.of_tables htables
  have hstarting := husesNext.starting token
  simp only [hkind, hopening] at hstarting
  obtain ⟨between, hgiven, hbetween, husesBetween⟩ :=
    (hoperand husesNext hrest).evaluates hstop
  refine ⟨between, hbetween, husesBetween, ?_⟩
  intro result hloop
  obtain ⟨fuel, hrun⟩ := exists_resume_build hgiven hbuild hloop
  refine ⟨fuel + 1, ?_⟩
  rw [expression_starting fuel hnext hstarting, Opening.run_prefixOp]
  exact hrun

/-- An operator that binds the operand so far reaches its node where its right operand is
reached and ends. -/
theorem Reaches.infixed {tokens : List Token} {powers : List Int} {grouping : Grouping}
    (hleft : Reaches grammar ops rbp parser left (token :: tokens))
    (hkind : ops token.kind = some op) (hgrouping : op.grouping = some grouping)
    (hbinds : rbp < op.power)
    (hoperand : ∀ {next : Parser A T τ}, next.Uses grammar ops → next.Reads tokens →
      Reaches grammar ops (grouping.operandPower op.power) next operand rest)
    (hstop : ops.Stop (grouping.operandPower op.power :: powers) rest)
    (hbuild : Node.binaryOf token left operand = .ok tree) :
    Reaches grammar ops rbp parser tree rest := by
  obtain ⟨middle, hmiddle, husesMiddle, hevaluates⟩ := hleft
  obtain ⟨next, hnext, hrest, htables⟩ := nextToken_cons hmiddle
  have husesNext := husesMiddle.of_tables htables
  have hfollowing := husesNext.following rbp left token
  simp only [hkind, hgrouping, if_neg (Int.not_le.mpr hbinds)] at hfollowing
  obtain ⟨between, hgiven, hbetween, husesBetween⟩ :=
    (hoperand husesNext hrest).evaluates hstop
  refine ⟨between, hbetween, husesBetween, ?_⟩
  intro result hloop
  obtain ⟨fuel, hrun⟩ := exists_resume_build hgiven hbuild hloop
  apply hevaluates
  refine ⟨fuel + 1, ?_⟩
  rw [operators_following fuel hnext hfollowing,
    grouping.run_program left (husesNext.powerOf hkind)]
  exact hrun

end Steps

/-- An expression that starts with a normal phrase reaches its tree.  What follows may still bind
at `rbp`, but not at the powers of the right edge. -/
theorem reaches_of_normal {rbp : Int} {phrase : Phrase} (hnormal : phrase.Normal ops rbp) :
    ∀ {rest tree} {parser : Parser A T τ}, parser.Uses grammar ops →
      parser.Reads (phrase.tokens ++ rest) → phrase.node = .ok tree →
      ops.Stop (phrase.rightEdge ops) rest → Reaches grammar ops rbp parser tree rest := by
  induction hnormal with
  | literal hkind hopening =>
      intro rest tree parser huses hreads hnode hstop
      cases hnode
      exact reaches_literal huses hreads hkind hopening
  | prefixed hkind hopening hoperand ih =>
      intro rest tree parser huses hreads hnode hstop
      obtain ⟨inner, hinner, hbuild⟩ := Phrase.node_prefixed hnode
      rw [Phrase.rightEdge_prefixed hkind hopening] at hstop
      exact reaches_prefixed huses hreads hkind hopening
        (fun husesNext hrest => ih husesNext hrest hinner hstop.tail) hstop hbuild
  | infixed hkind hgrouping hbinds hleft hedge hright ihLeft ihRight =>
      intro rest tree parser huses hreads hnode hstop
      obtain ⟨leftTree, rightTree, hleftTree, hrightTree, hbuild⟩ := Phrase.node_infixed hnode
      rw [Phrase.rightEdge_infixed hkind hgrouping] at hstop
      rw [Phrase.tokens, List.append_assoc] at hreads
      have hleftReached := ihLeft huses hreads hleftTree (Operators.stop_cons hkind hedge _)
      exact hleftReached.infixed hkind hgrouping hbinds
        (fun husesNext hrest => ihRight husesNext hrest hrightTree hstop.tail) hstop hbuild

/-- What is at the head of the input is read as the phrase it is. -/
theorem evaluates_of_node {rbp : Int} {tokens rest : List Token} {phrase : Phrase} {tree : Node}
    {parser : Parser A T τ} (huses : parser.Uses grammar ops) (hreads : parser.Reads tokens)
    (hparse : Phrase.IsParse ops rbp tokens phrase rest) (hnode : phrase.node = .ok tree) :
    ∃ last, Evaluates grammar rbp parser (.ok tree, last) ∧ last.Reads rest := by
  have hreached := reaches_of_normal hparse.normal huses (hparse.tokens_eq ▸ hreads) hnode
    hparse.stop.tail
  obtain ⟨last, hevaluates, hlast, -⟩ := hreached.evaluates hparse.stop
  exact ⟨last, hevaluates, hlast⟩

end Parser

end Precedence
