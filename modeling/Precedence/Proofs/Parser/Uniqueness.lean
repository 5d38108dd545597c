import Precedence.Proofs.Parser.Completeness

/-!
# One reading

A list of tokens starts with at most one phrase that an expression can take there.  How tokens
are grouped depends on their kinds alone, so two readings may be compared without the places of
the tokens, where every tree can be built and the parser finds both.
-/

namespace Precedence

/-- The token without its place. -/
def Token.unplaced (token : Token) : Token := { token with location := none }

namespace Phrase

variable {ops : Operators}

/-- The phrase with another token in the place of each. -/
def map (f : Token → Token) : Phrase → Phrase
  | .literal token => .literal (f token)
  | .prefixed op operand => .prefixed (f op) (operand.map f)
  | .infixed left op right => .infixed (left.map f) (f op) (right.map f)

variable {f : Token → Token}

theorem tokens_map (f : Token → Token) (phrase : Phrase) :
    (phrase.map f).tokens = phrase.tokens.map f := by
  induction phrase with
  | literal token => rfl
  | prefixed op operand ih => simp [map, tokens, ih]
  | infixed left op right ihLeft ihRight => simp [map, tokens, ihLeft, ihRight]

theorem rightEdge_map (hkinds : ∀ token, (f token).kind = token.kind) (phrase : Phrase) :
    (phrase.map f).rightEdge ops = phrase.rightEdge ops := by
  induction phrase with
  | literal token => rfl
  | prefixed op operand ih => rw [map, rightEdge, rightEdge, hkinds, ih]
  | infixed left op right _ ih => rw [map, rightEdge, rightEdge, hkinds, ih]

theorem Normal.map (hkinds : ∀ token, (f token).kind = token.kind) {rbp : Int} {phrase : Phrase}
    (hnormal : phrase.Normal ops rbp) : (phrase.map f).Normal ops rbp := by
  induction hnormal with
  | literal hkind hopening => exact .literal ((hkinds _).symm ▸ hkind) hopening
  | prefixed hkind hopening _ ih => exact .prefixed ((hkinds _).symm ▸ hkind) hopening ih
  | infixed hkind hgrouping hbinds _ hedge _ ihLeft ihRight =>
      refine .infixed ((hkinds _).symm ▸ hkind) hgrouping hbinds ihLeft ?_ ihRight
      rw [rightEdge_map hkinds]
      exact hedge

/-- Only the kinds of the tokens decide how they are grouped. -/
theorem IsParse.map (hkinds : ∀ token, (f token).kind = token.kind) {rbp : Int}
    {tokens rest : List Token} {phrase : Phrase} (hparse : IsParse ops rbp tokens phrase rest) :
    IsParse ops rbp (tokens.map f) (phrase.map f) (rest.map f) where
  tokens_eq := by rw [hparse.tokens_eq, List.map_append, tokens_map]
  normal := hparse.normal.map hkinds
  stop := by
    intro token htoken
    rw [List.head?_map] at htoken
    obtain ⟨first, hfirst, rfl⟩ := Option.map_eq_some_iff.mp htoken
    rw [hkinds, rightEdge_map hkinds]
    exact hparse.stop first hfirst

/-- A phrase is determined by its shape and the tokens that it starts. -/
theorem eq_of_map_eq {phrase other : Phrase} {rest rest' : List Token}
    (hmap : phrase.map f = other.map f) (htokens : phrase.tokens ++ rest = other.tokens ++ rest') :
    phrase = other ∧ rest = rest' := by
  induction phrase generalizing other rest rest' with
  | literal token =>
      cases other with
      | literal token' =>
          obtain ⟨rfl, hrest⟩ := List.cons.inj htokens
          exact ⟨rfl, hrest⟩
      | prefixed op operand => cases hmap
      | infixed left op right => cases hmap
  | prefixed op operand ih =>
      cases other with
      | literal token => cases hmap
      | prefixed op' operand' =>
          obtain ⟨-, hoperand⟩ := Phrase.prefixed.inj hmap
          simp only [tokens, List.cons_append, List.cons.injEq] at htokens
          obtain ⟨rfl, hlater⟩ := htokens
          obtain ⟨rfl, hrest⟩ := ih hoperand hlater
          exact ⟨rfl, hrest⟩
      | infixed left op' right => cases hmap
  | infixed left op right ihLeft ihRight =>
      cases other with
      | literal token => cases hmap
      | prefixed op' operand => cases hmap
      | infixed left' op' right' =>
          obtain ⟨hleft, -, hright⟩ := Phrase.infixed.inj hmap
          rw [tokens, tokens, List.append_assoc, List.append_assoc] at htokens
          obtain ⟨rfl, hafter⟩ := ihLeft hleft htokens
          simp only [List.cons_append, List.cons.injEq] at hafter
          obtain ⟨rfl, hlater⟩ := hafter
          obtain ⟨rfl, hrest⟩ := ihRight hright hlater
          exact ⟨rfl, hrest⟩

/-- Without places the tree of a phrase can always be built. -/
theorem node_unplaced (phrase : Phrase) : ∃ tree, (phrase.map Token.unplaced).node = .ok tree := by
  have htokens : ∀ token ∈ (phrase.map Token.unplaced).tokens,
      Source.arguments.Holds token.location := by
    rw [tokens_map]
    intro token htoken
    obtain ⟨placed, -, rfl⟩ := List.mem_map.mp htoken
    exact Source.arguments.holds_none
  obtain ⟨tree, hnode, -⟩ := node_of_holds _ htokens
  exact ⟨tree, hnode⟩

end Phrase

namespace Parser

variable {A T τ : Type} [TokenStream τ] {grammar : Grammar A T τ} {ops : Operators}

/-- A list of tokens starts with at most one phrase that can be read there.  Both readings are
compared by what the parser makes of the same tokens without their places. -/
theorem isParse_unique {rbp : Int} {tokens rest rest' : List Token} {phrase other : Phrase}
    {parser : Parser A T τ} (huses : parser.Uses grammar ops)
    (hparse : Phrase.IsParse ops rbp tokens phrase rest)
    (hother : Phrase.IsParse ops rbp tokens other rest') : phrase = other ∧ rest = rest' := by
  have hkinds : ∀ token : Token, token.unplaced.kind = token.kind := fun _ => rfl
  let bare : Parser A T τ :=
    { parser with pushed := ⟨tokens.map Token.unplaced⟩, streams := .empty }
  have husesBare : bare.Uses grammar ops := huses.of_tables rfl
  have hreads : bare.Reads (tokens.map Token.unplaced) := ⟨[], .nil, by simp [bare]⟩
  obtain ⟨tree, hnode⟩ := phrase.node_unplaced
  obtain ⟨tree', hnode'⟩ := other.node_unplaced
  obtain ⟨last, hevaluates, -⟩ := evaluates_of_node husesBare hreads (hparse.map hkinds) hnode
  obtain ⟨last', hevaluates', -⟩ :=
    evaluates_of_node husesBare hreads (hother.map hkinds) hnode'
  have htree : tree = tree' := by
    have hresult := congrArg Prod.fst (hevaluates.unique hevaluates')
    exact Except.ok.inj hresult
  subst htree
  exact Phrase.eq_of_map_eq (Phrase.node_unique hnode hnode')
    (hparse.tokens_eq.symm.trans hother.tokens_eq)

/-- Parsing undoes writing a normal phrase out: in one source an expression returns the tree of
the phrase and leaves what follows it, and no other phrase can be read off the same tokens. -/
theorem phrase_read_back {rbp : Int} {tokens rest : List Token} {phrase : Phrase}
    {parser : Parser A T τ} (huses : parser.Uses grammar ops)
    (hparse : Phrase.IsParse ops rbp tokens phrase rest) :
    (∀ source : Source, (∀ token ∈ phrase.tokens, source.Holds token.location) →
      parser.Reads tokens →
      ∃ tree last, phrase.node = .ok tree ∧ Evaluates grammar rbp parser (.ok tree, last) ∧
        last.Reads rest) ∧
    (∀ other rest', Phrase.IsParse ops rbp tokens other rest' → other = phrase ∧ rest' = rest) := by
  constructor
  · intro source hsource hreads
    obtain ⟨tree, hnode, -⟩ := phrase.node_of_holds hsource
    obtain ⟨last, hevaluates, hlast⟩ := evaluates_of_node huses hreads hparse hnode
    exact ⟨tree, last, hnode, hevaluates, hlast⟩
  · intro other rest' hother
    exact isParse_unique huses hother hparse

/-- `x * - x - x )` is the product of `x` and a negated difference, and nothing else. -/
theorem phrase_read_back_arithmetic :
    let grammar : Grammar Unit Unit TokenList := fun _ => Table.ofOperators Operators.arithmetic
    let ops : Operators := fun kind => Operators.arithmetic.lookup kind
    let difference : Phrase :=
      .infixed (.literal (.inColumn "x" 4)) (.inColumn "-" 5) (.literal (.inColumn "x" 6))
    let phrase : Phrase :=
      .infixed (.literal (.inColumn "x" 1)) (.inColumn "*" 2)
        (.prefixed (.inColumn "-" 3) difference)
    let rest := [.inColumn ")" 7]
    let tokens := phrase.tokens ++ rest
    Phrase.IsParse ops 0 tokens phrase rest ∧
      (∃ tree last, phrase.node = .ok tree ∧
        Evaluates grammar 0 (new () ⟨tokens⟩) (.ok tree, last) ∧ last.Reads rest) ∧
      (∀ other rest', Phrase.IsParse ops 0 tokens other rest' →
        other = phrase ∧ rest' = rest) := by
  intro grammar ops difference phrase rest tokens
  have hdifference : difference.Normal ops 5 :=
    .infixed rfl rfl (by decide) (.literal rfl rfl) (by decide) (.literal rfl rfl)
  have hparse : Phrase.IsParse ops 0 tokens phrase rest := by
    refine ⟨rfl, ?_, Operators.stop_cons rfl (by decide) []⟩
    exact .infixed rfl rfl (by decide) (.literal rfl rfl) (by decide)
      (.prefixed rfl rfl hdifference)
  have huses : (new () ⟨tokens⟩ : Parser Unit Unit TokenList).Uses grammar ops :=
    ⟨_, rfl, Table.follows_ofOperators _⟩
  have hread := phrase_read_back huses hparse
  refine ⟨hparse, hread.1 (.file "line") ?_ (reads_new () (TokenList.gives tokens)), hread.2⟩
  decide

end Parser

end Precedence
