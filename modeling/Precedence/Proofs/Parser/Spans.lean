import Precedence.Proofs.ErrorChain
import Precedence.Proofs.Parser.Completeness
import Precedence.Proofs.Parser.Soundness

/-!
# Spans of parsed trees

The location of an operator node is joined from those of its operands, which were joined in the
same way, and an infix operator that has no place takes the location away again.  All the same
each node of a parsed tree runs from the first of its tokens to the last one, and has no location
just when one of its tokens has none.  Joining fails only across sources.
-/

namespace Precedence

/-- The third location runs from the start of the first one to the end of the second one.  Both lie
in the same source, unless they are marks, whose sources are the caller's affair. -/
inductive Location.Runs : Location → Location → Location → Prop
  | file {name : String} {start stop start' stop' : Position} :
      Runs (.file ⟨name, start, stop⟩) (.file ⟨name, start', stop'⟩) (.file ⟨name, start, stop'⟩)
  | arg {start stop start' stop' : ArgPosition} :
      Runs (.arg ⟨start, stop⟩) (.arg ⟨start', stop'⟩) (.arg ⟨start, stop'⟩)
  | mark {serial serial' start stop start' stop' : Nat} :
      Runs (.mark ⟨serial, start, stop⟩) (.mark ⟨serial', start', stop'⟩)
        (.mark ⟨serial, start, stop'⟩)

namespace Node

/-- The tokens of a tree of ready-made nodes, in order. -/
def yield? : Node → Option (List Token)
  | .leaf token => some [token]
  | .labelled _ inner => inner.yield?
  | .unary op operand _ => do return op :: (← operand.yield?)
  | .binary op left right _ => do return (← left.yield?) ++ op :: (← right.yield?)
  | .atom _ | .custom .. => none

/-- The node is the root of the tree or stands somewhere below it, with its label or without. -/
inductive Within : Node → Node → Prop
  | root {tree : Node} : Within tree tree
  | child {node child tree : Node} (hchild : child ∈ tree.children) (hnode : Within node child) :
      Within node tree
  | unlabelled {label : String} {node tree : Node} (hnode : Within node tree) :
      Within node (.labelled label tree)

/-- The node has a location if each of the tokens has one, and then it runs from the start of the
first token to the end of the last one. -/
structure Spans (node : Node) (tokens : List Token) : Prop where
  located : node.location?.isSome = true ↔ ∀ token ∈ tokens, token.location.isSome = true
  runs : ∀ whole ∈ node.location?, ∃ first ∈ tokens.head?.bind Token.location,
    ∃ last ∈ tokens.getLast?.bind Token.location, Location.Runs first last whole

end Node

/-- The error refuses one of the tokens, or there was none where one was needed. -/
inductive Parser.Refuses (tokens : List Token) : Error → Prop
  | missing (location : Option Location) : Refuses tokens (Error.expectedToken.place location)
  | unknown {token : Token} (htoken : token ∈ tokens) : Refuses tokens (unknownToken token)
  | unexpected {token : Token} (htoken : token ∈ tokens) : Refuses tokens (unexpectedToken token)

theorem Location.Runs.refl (location : Location) : Runs location location location := by
  cases location with
  | file span => exact .file
  | arg span => exact .arg
  | mark mark => exact .mark

theorem Location.runs_of_thruEnd {first last whole : Location}
    (hjoin : first.thruEnd last = .ok whole) : Runs first last whole := by
  rw [thruEnd] at hjoin
  fun_cases thruEnd? first last with
  | case1 left right hname =>
      obtain ⟨name, start, stop⟩ := left
      obtain ⟨name', start', stop'⟩ := right
      cases hname
      simp only [thruEnd?, if_true] at hjoin
      cases hjoin
      exact .file
  | case2 left right hname =>
      simp only [thruEnd?, if_neg hname] at hjoin
      cases hjoin
  | case3 left right =>
      cases hjoin
      exact .arg
  | case4 left right =>
      cases hjoin
      exact .mark
  | case5 hfile harg hmark =>
      simp only [thruEnd?] at hjoin
      cases hjoin

/-- A join of runs is the run from the start of the first one to the end of the last one. -/
theorem Location.Runs.join {first middle middle' last left right whole : Location}
    (hleft : Runs first middle left) (hright : Runs middle' last right)
    (hjoin : left.thruEnd right = .ok whole) : Runs first last whole := by
  have hwhole := runs_of_thruEnd hjoin
  cases hleft <;> cases hright <;> cases hwhole
  · exact .file
  · exact .arg
  · exact .mark

/-- Two locations are joined if there are both. -/
theorem Location.span_eq_ok {first last joined : Option Location}
    (hspan : span first last = .ok joined) :
    (joined = none ∧ (first = none ∨ last = none)) ∨
      ∃ start stop whole, first = some start ∧ last = some stop ∧ joined = some whole ∧
        start.thruEnd stop = .ok whole := by
  cases first with
  | none => cases hspan; exact .inl ⟨rfl, .inl rfl⟩
  | some start =>
      cases last with
      | none => cases hspan; exact .inl ⟨rfl, .inr rfl⟩
      | some stop =>
          cases hjoin : start.thruEnd stop with
          | error error => rw [span, hjoin] at hspan; cases hspan
          | ok whole =>
              rw [span, hjoin] at hspan
              cases hspan
              exact .inr ⟨start, stop, whole, rfl, rfl, rfl, hjoin⟩

theorem Location.isSome_span {first last joined : Option Location}
    (hspan : span first last = .ok joined) :
    joined.isSome = true ↔ first.isSome = true ∧ last.isSome = true := by
  rcases span_eq_ok hspan with ⟨rfl, rfl | rfl⟩ | ⟨start, stop, whole, rfl, rfl, rfl, -⟩ <;> simp

theorem Location.join_of_mem_span {first last joined : Option Location} {whole : Location}
    (hspan : span first last = .ok joined) (hwhole : whole ∈ joined) :
    ∃ start ∈ first, ∃ stop ∈ last, start.thruEnd stop = .ok whole := by
  rcases span_eq_ok hspan with ⟨rfl, -⟩ | ⟨start, stop, whole', rfl, rfl, rfl, hjoin⟩
  · cases hwhole
  · cases hwhole
    exact ⟨start, rfl, stop, rfl, hjoin⟩

namespace Node

theorem spans_leaf (token : Token) : (leaf token).Spans [token] where
  located := by rw [List.forall_mem_singleton, location?]
  runs := fun whole hwhole => ⟨whole, hwhole, whole, hwhole, .refl whole⟩

theorem head?_bind_append {before : List Token} {location : Location} (after : List Token)
    (hfirst : location ∈ before.head?.bind Token.location) :
    location ∈ (before ++ after).head?.bind Token.location := by
  cases before with
  | nil => cases hfirst
  | cons token before => exact hfirst

theorem getLast?_bind_append (before : List Token) {after : List Token} {location : Location}
    (hlast : location ∈ after.getLast?.bind Token.location) :
    location ∈ (before ++ after).getLast?.bind Token.location := by
  cases hafter : after.getLast? with
  | none => rw [hafter] at hlast; cases hlast
  | some token => rwa [List.getLast?_append, hafter, Option.some_or, ← hafter]

theorem Spans.unary {op : Token} {operand tree : Node} {tokens : List Token}
    (hoperand : operand.Spans tokens) (hbuild : unaryOf op operand = .ok tree) :
    tree.Spans (op :: tokens) := by
  obtain ⟨location, hspan, rfl⟩ := eq_of_unaryOf hbuild
  constructor
  case located =>
    rw [List.forall_mem_cons, ← hoperand.located]
    exact Location.isSome_span hspan
  case runs =>
    intro whole hwhole
    obtain ⟨start, hstart, stop, hstop, hjoin⟩ := Location.join_of_mem_span hspan hwhole
    obtain ⟨first, -, last, hlast, hruns⟩ := hoperand.runs stop hstop
    exact ⟨start, hstart, last, getLast?_bind_append [op] hlast,
      (Location.Runs.refl start).join hruns hjoin⟩

theorem Spans.binary {op : Token} {left right tree : Node} {before after : List Token}
    (hleft : left.Spans before) (hright : right.Spans after)
    (hbuild : binaryOf op left right = .ok tree) : tree.Spans (before ++ op :: after) := by
  obtain ⟨location, hspan, rfl⟩ := eq_of_binaryOf hbuild
  cases hop : op.location with
  | none =>
      refine ⟨⟨fun hsome => ?_, fun hall => ?_⟩, fun whole hwhole => ?_⟩
      · simp [location?] at hsome
      · have hlocated := hall op (List.mem_append_right before List.mem_cons_self)
        simp [hop] at hlocated
      · simp [location?] at hwhole
  | some place =>
      constructor
      case located =>
        rw [List.forall_mem_append, List.forall_mem_cons, ← hleft.located, ← hright.located]
        simp [location?, hop, Location.isSome_span hspan]
      case runs =>
        intro whole hwhole
        have hmem : whole ∈ location := by simpa [location?, hop] using hwhole
        obtain ⟨start, hstart, stop, hstop, hjoin⟩ := Location.join_of_mem_span hspan hmem
        obtain ⟨first, hfirst, middle, -, hruns⟩ := hleft.runs start hstart
        obtain ⟨middle', -, last, hlast, hruns'⟩ := hright.runs stop hstop
        exact ⟨first, head?_bind_append _ hfirst, last,
          getLast?_bind_append before (getLast?_bind_append [op] hlast), hruns.join hruns' hjoin⟩

theorem location?_strip (node : Node) : node.strip.location? = node.location? := by
  fun_induction strip node with
  | case1 label inner ih => rw [ih, location?]
  | case2 node _ => rfl

theorem yield?_strip (node : Node) : node.strip.yield? = node.yield? := by
  fun_induction strip node with
  | case1 label inner ih => rw [ih, yield?]
  | case2 node _ => rfl

theorem Within.of_labelled {label : String} {node inner : Node}
    (hnode : node.Within (.labelled label inner)) :
    node = .labelled label inner ∨ node.Within inner := by
  cases hnode with
  | root => exact .inl rfl
  | child hchild hnode => exact .inr (.child hchild hnode)
  | unlabelled hnode => exact .inr hnode

end Node

namespace Phrase

variable {phrase : Phrase} {tree : Node}

theorem yield_of_node (hnode : phrase.node = .ok tree) : tree.yield? = some phrase.tokens := by
  induction phrase generalizing tree with
  | literal token =>
      cases hnode
      rfl
  | prefixed op operand ih =>
      obtain ⟨inner, hinner, hbuild⟩ := node_prefixed hnode
      obtain ⟨location, -, rfl⟩ := Node.eq_of_unaryOf hbuild
      rw [Node.yield?, ih hinner]
      rfl
  | infixed left op right ihLeft ihRight =>
      obtain ⟨leftTree, rightTree, hleft, hright, hbuild⟩ := node_infixed hnode
      obtain ⟨location, -, rfl⟩ := Node.eq_of_binaryOf hbuild
      rw [Node.yield?, ihLeft hleft, ihRight hright]
      rfl

theorem spans_of_node (hnode : phrase.node = .ok tree) : tree.Spans phrase.tokens := by
  induction phrase generalizing tree with
  | literal token =>
      cases hnode
      exact Node.spans_leaf token
  | prefixed op operand ih =>
      obtain ⟨inner, hinner, hbuild⟩ := node_prefixed hnode
      exact (ih hinner).unary hbuild
  | infixed left op right ihLeft ihRight =>
      obtain ⟨leftTree, rightTree, hleft, hright, hbuild⟩ := node_infixed hnode
      exact (ihLeft hleft).binary (ihRight hright) hbuild

theorem strip_of_node (hnode : phrase.node = .ok tree) : tree.strip = tree := by
  cases phrase with
  | literal token =>
      cases hnode
      rfl
  | prefixed op operand =>
      obtain ⟨inner, -, hbuild⟩ := node_prefixed hnode
      obtain ⟨location, -, rfl⟩ := Node.eq_of_unaryOf hbuild
      rfl
  | infixed left op right =>
      obtain ⟨leftTree, rightTree, -, -, hbuild⟩ := node_infixed hnode
      obtain ⟨location, -, rfl⟩ := Node.eq_of_binaryOf hbuild
      rfl

theorem exists_part_labelled {label : String} {node : Node} (hnode : phrase.node = .ok tree)
    (hbelow : node.Within tree → ∃ part : Phrase, part.node = .ok node.strip)
    (hwithin : node.Within (.labelled label tree)) :
    ∃ part : Phrase, part.node = .ok node.strip := by
  rcases hwithin.of_labelled with rfl | hwithin
  · exact ⟨phrase, by rw [Node.strip, strip_of_node hnode, hnode]⟩
  · exact hbelow hwithin

/-- Without its label, a node of the tree of a phrase is the tree of a part of the phrase. -/
theorem exists_part {node : Node} (hnode : phrase.node = .ok tree) (hwithin : node.Within tree) :
    ∃ part : Phrase, part.node = .ok node.strip := by
  induction phrase generalizing tree with
  | literal token =>
      cases hnode
      cases hwithin with
      | root => exact ⟨.literal token, rfl⟩
      | child hchild => cases hchild
  | prefixed op operand ih =>
      obtain ⟨inner, hinner, hbuild⟩ := node_prefixed hnode
      obtain ⟨location, -, rfl⟩ := Node.eq_of_unaryOf hbuild
      cases hwithin with
      | root => exact ⟨.prefixed op operand, hnode⟩
      | child hchild hwithin =>
          cases List.mem_singleton.mp hchild
          exact exists_part_labelled hinner (ih hinner) hwithin
  | infixed left op right ihLeft ihRight =>
      obtain ⟨leftTree, rightTree, hleft, hright, hbuild⟩ := node_infixed hnode
      obtain ⟨location, -, rfl⟩ := Node.eq_of_binaryOf hbuild
      cases hwithin with
      | root => exact ⟨.infixed left op right, hnode⟩
      | child hchild hwithin =>
          rcases List.mem_cons.mp hchild with rfl | hchild
          · exact exists_part_labelled hleft (ihLeft hleft) hwithin
          · cases List.mem_singleton.mp hchild
            exact exists_part_labelled hright (ihRight hright) hwithin

/-- Each node of the tree spans its tokens exactly. -/
theorem spans_of_within {node : Node} (hnode : phrase.node = .ok tree)
    (hwithin : node.Within tree) : ∃ tokens, node.yield? = some tokens ∧ node.Spans tokens := by
  obtain ⟨part, hpart⟩ := exists_part hnode hwithin
  obtain ⟨hlocated, hruns⟩ := spans_of_node hpart
  rw [node.location?_strip] at hlocated hruns
  exact ⟨part.tokens, node.yield?_strip.symm.trans (yield_of_node hpart), hlocated, hruns⟩

end Phrase

namespace Parser

theorem Refuses.append {rest : List Token} {error : Error} (hrefuses : Refuses rest error)
    (taken : List Token) : Refuses (taken ++ rest) error := by
  cases hrefuses with
  | missing location => exact .missing location
  | unknown htoken => exact .unknown (List.mem_append_right taken htoken)
  | unexpected htoken => exact .unexpected (List.mem_append_right taken htoken)

theorem Refuses.root_ne {tokens : List Token} {error : Error} (hrefuses : Refuses tokens error) :
    error.root ≠ .splitLocation := by
  cases hrefuses with
  | missing location =>
      rw [Error.root_place]
      nofun
  | unknown htoken =>
      rw [unknownToken, Error.root_place]
      nofun
  | unexpected htoken =>
      rw [unexpectedToken, Error.root_place]
      nofun

variable {A T τ : Type} [TokenStream τ] {grammar : Grammar A T τ} {ops : Operators}
variable {source : Source}

def ExpressionRefuses (grammar : Grammar A T τ) (ops : Operators) (source : Source) (fuel : Nat) :
    Prop :=
  ∀ {rbp tokens error} {parser last : Parser A T τ}, parser.Uses grammar ops →
    parser.Reads tokens → (∀ token ∈ tokens, source.Holds token.location) →
    expression grammar fuel rbp parser = some (.error error, last) → Refuses tokens error

/-- The operand so far lies in the source, and so do the tokens that are left. -/
def OperatorsRefuse (grammar : Grammar A T τ) (ops : Operators) (source : Source) (fuel : Nat) :
    Prop :=
  ∀ {rbp tokens left error} {parser last : Parser A T τ}, parser.Uses grammar ops →
    parser.Reads tokens → (∀ token ∈ tokens, source.Holds token.location) →
    source.Holds left.location? →
    operators grammar fuel rbp left parser = some (.error error, last) → Refuses tokens error

/-- Building on an operand does not fail in one source, so an error comes from the operand or from
the operators after it. -/
theorem refuses_of_builds {fuel : Nat} {power rbp : Int} {tokens : List Token} {error : Error}
    {next last : Parser A T τ} {build : Node → Except Error Node}
    (hexpression : ExpressionRefuses grammar ops source fuel)
    (hoperators : OperatorsRefuse grammar ops source fuel) (huses : next.Uses grammar ops)
    (hreads : next.Reads tokens) (htokens : ∀ token ∈ tokens, source.Holds token.location)
    (hbuild : ∀ operand : Node, source.Holds operand.location? →
      ∃ node, build operand = .ok node ∧ source.Holds node.location?)
    (hbuilds : Builds grammar fuel rbp power build next (.error error, last)) :
    Refuses tokens error := by
  have hoperand : ∀ {operand between}, expression grammar fuel power next =
      some (.ok operand, between) → ∃ taken rest node, tokens = taken ++ rest ∧
        between.Reads rest ∧ between.Uses grammar ops ∧ build operand = .ok node ∧
        source.Holds node.location? := by
    intro operand between hgiven
    obtain ⟨phrase, rest, ⟨rfl, -, -⟩, hnode, hbetween, husesBetween⟩ :=
      (sound grammar ops fuel).1 huses hreads hgiven
    obtain ⟨tree, htree, hlocation⟩ :=
      phrase.node_of_holds (List.forall_mem_append.mp htokens).1
    cases hnode.symm.trans htree
    obtain ⟨node, hnode, hholds⟩ := hbuild operand hlocation
    exact ⟨phrase.tokens, rest, node, rfl, hbetween, husesBetween, hnode, hholds⟩
  cases hbuilds with
  | fails hgiven => exact hexpression huses hreads htokens hgiven
  | breaks hgiven hbroken =>
      obtain ⟨_, _, node, -, -, -, hnode, -⟩ := hoperand hgiven
      cases hnode.symm.trans hbroken
  | loops hgiven hbuilt hloop =>
      obtain ⟨taken, rest, node, rfl, hbetween, husesBetween, hnode, hlocation⟩ :=
        hoperand hgiven
      cases hnode.symm.trans hbuilt
      have hrest := (List.forall_mem_append.mp htokens).2
      exact (hoperators husesBetween hbetween hrest hlocation hloop).append taken

theorem operatorsRefuse_succ {fuel : Nat} (hexpression : ExpressionRefuses grammar ops source fuel)
    (hoperators : OperatorsRefuse grammar ops source fuel) :
    OperatorsRefuse grammar ops source (fuel + 1) := by
  intro rbp tokens left error parser last huses hreads htokens hleft hrun
  cases goesOn_of_operators huses hreads hrun with
  | unknown => exact .unknown List.mem_cons_self
  | unexpected => exact .unexpected List.mem_cons_self
  | @infixed token _ _ _ _ _ _ _ _ hrest husesNext hbuilds =>
      have hlater := (List.forall_mem_cons.mp htokens).2
      have hrefuses := refuses_of_builds hexpression hoperators husesNext hrest hlater
        (fun _ => Node.binaryOf_of_holds token hleft) hbuilds
      exact hrefuses.append [token]

theorem expressionRefuses_succ {fuel : Nat}
    (hexpression : ExpressionRefuses grammar ops source fuel)
    (hoperators : OperatorsRefuse grammar ops source fuel) :
    ExpressionRefuses grammar ops source (fuel + 1) := by
  intro rbp tokens error parser last huses hreads htokens hrun
  cases starts_of_expression huses hreads hrun with
  | missing => exact .missing _
  | unknown => exact .unknown List.mem_cons_self
  | unexpected => exact .unexpected List.mem_cons_self
  | @literal token _ _ _ _ _ _ hrest husesNext hloop =>
      obtain ⟨htoken, hlater⟩ := List.forall_mem_cons.mp htokens
      have hleaf : source.Holds (Node.leaf token).location? := htoken
      exact (hoperators husesNext hrest hlater hleaf hloop).append [token]
  | @prefixed token _ _ _ _ _ _ _ hrest husesNext hbuilds =>
      obtain ⟨htoken, hlater⟩ := List.forall_mem_cons.mp htokens
      have hrefuses := refuses_of_builds hexpression hoperators husesNext hrest hlater
        (fun _ => Node.unaryOf_of_holds htoken) hbuilds
      exact hrefuses.append [token]

theorem refuses (grammar : Grammar A T τ) (ops : Operators) (source : Source) (fuel : Nat) :
    ExpressionRefuses grammar ops source fuel ∧ OperatorsRefuse grammar ops source fuel := by
  induction fuel with
  | zero =>
      constructor
      · intro rbp tokens error parser last _ _ _ hrun
        rw [expression] at hrun
        cases hrun
      · intro rbp tokens left error parser last _ _ _ _ hrun
        rw [operators] at hrun
        cases hrun
  | succ fuel ih => exact ⟨expressionRefuses_succ ih.1 ih.2, operatorsRefuse_succ ih.1 ih.2⟩

/-- In one source an expression fails only because of a token that it refuses or does not get, and
never because spans cannot be joined.  In the tree that it returns, each node runs from the start of
the first of its tokens to the end of the last one, and has a location just when all of them do. -/
theorem spans_exact {rbp : Int} {tokens : List Token} {result : Except Error Node}
    {parser last : Parser A T τ} (huses : parser.Uses grammar ops) (hreads : parser.Reads tokens)
    (hresult : Evaluates grammar rbp parser (result, last)) :
    (∀ source : Source, (∀ token ∈ tokens, source.Holds token.location) →
      ∀ error, result = .error error → Refuses tokens error ∧ error.root ≠ .splitLocation) ∧
    (∀ tree, result = .ok tree → ∃ taken rest, tokens = taken ++ rest ∧ last.Reads rest ∧
      tree.yield? = some taken ∧
      ∀ node : Node, node.Within tree →
        ∃ yield, node.yield? = some yield ∧ node.Spans yield) := by
  obtain ⟨fuel, hrun⟩ := hresult
  constructor
  · rintro source htokens error rfl
    have hrefuses := (refuses grammar ops source fuel).1 huses hreads htokens hrun
    exact ⟨hrefuses, hrefuses.root_ne⟩
  · rintro tree rfl
    obtain ⟨phrase, rest, hparse, hnode, hlast, -⟩ :=
      (sound grammar ops fuel).1 huses hreads hrun
    exact ⟨phrase.tokens, rest, hparse.tokens_eq, hlast, Phrase.yield_of_node hnode,
      fun node hwithin => Phrase.spans_of_within hnode hwithin⟩

/-- In `x * - x - x` the product sign has no place, so neither has the product, but the negated
difference spans the four tokens after it.  In `x * )` the bracket is refused. -/
theorem spans_exact_arithmetic :
    let grammar : Grammar Unit Unit TokenList := fun _ => Table.ofOperators Operators.arithmetic
    let tokens : List Token := [.inColumn "x" 1, { kind := "*" }, .inColumn "-" 3,
      .inColumn "x" 4, .inColumn "-" 5, .inColumn "x" 6]
    let broken : List Token := [.inColumn "x" 1, .inColumn "*" 2, .inColumn ")" 3]
    (∃ left right last, Evaluates grammar 0 (new () ⟨tokens⟩)
        (.ok (.binary { kind := "*" } left right none), last) ∧
      right.location? = some (.file ⟨"line", ⟨1, 3⟩, ⟨1, 7⟩⟩) ∧
      ∃ yield, right.yield? = some yield ∧ right.Spans yield) ∧
    ∃ error last, Evaluates grammar 0 (new () ⟨broken⟩) (.error error, last) ∧
      Refuses broken error ∧ error.root ≠ .splitLocation := by
  intro grammar tokens broken
  have huses : ∀ input, (new () ⟨input⟩ : Parser Unit Unit TokenList).Uses grammar fun kind =>
      Operators.arithmetic.lookup kind := fun input => ⟨_, rfl, Table.follows_ofOperators _⟩
  constructor
  · obtain ⟨left, right, last, hrun, hlocation⟩ : ∃ left right last,
        expression grammar 7 0 (new () ⟨tokens⟩) =
          some (.ok (.binary { kind := "*" } left right none), last) ∧
        right.location? = some (.file ⟨"line", ⟨1, 3⟩, ⟨1, 7⟩⟩) := ⟨_, _, _, rfl, rfl⟩
    obtain ⟨-, htree⟩ :=
      spans_exact (huses tokens) (reads_new () (TokenList.gives tokens)) ⟨7, hrun⟩
    obtain ⟨taken, rest, -, -, -, hspans⟩ := htree _ rfl
    refine ⟨left, right, last, ⟨7, hrun⟩, hlocation, hspans right ?_⟩
    exact .child (List.mem_cons_of_mem _ List.mem_cons_self) (.unlabelled .root)
  · obtain ⟨error, last, hrun⟩ : ∃ error last,
        expression grammar 7 0 (new () ⟨broken⟩) = some (.error error, last) := ⟨_, _, rfl⟩
    obtain ⟨herror, -⟩ :=
      spans_exact (huses broken) (reads_new () (TokenList.gives broken)) ⟨7, hrun⟩
    exact ⟨error, last, ⟨7, hrun⟩, herror (.file "line") (by decide) error rfl⟩

end Parser

end Precedence
