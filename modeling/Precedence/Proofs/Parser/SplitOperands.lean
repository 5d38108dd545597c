import Precedence.Proofs.Parser.Spans

/-!
# Operands in different sources

Spans of different sources cannot be joined.  A prefix operator joins its own span to that of its
operand, and an infix operator joins those of its operands, so either node is refused just where
both of these spans are there and lie in different sources.  An expression is refused in the same
way just where this happens somewhere in the phrase that it reads.

The span of an infix operator is looked at only once its operands are joined.  Without it the node
has no location, but operands in different sources are refused all the same.
-/

namespace Precedence

namespace Location

/-- Both locations are there, and they lie in different sources. -/
def Apart (first last : Option Location) : Prop :=
  ∃ place ∈ first, ∃ other ∈ last, place.source? ≠ other.source?

theorem apart_some {place other : Location} :
    Apart (some place) (some other) ↔ place.source? ≠ other.source? := by
  simp [Apart]

theorem thruEnd?_eq_none_iff {first last : Location} :
    first.thruEnd? last = none ↔ first.source? ≠ last.source? := by
  cases first <;> cases last <;> simp [thruEnd?, source?]

theorem span_eq_error_iff {first last : Option Location} {error : Error} :
    span first last = .error error ↔ error = .splitLocation ∧ Apart first last := by
  cases first with
  | none => simp [span, Apart]
  | some place =>
      cases last with
      | none => simp [span, Apart]
      | some other =>
          rw [apart_some, ← thruEnd?_eq_none_iff, span, thruEnd]
          cases place.thruEnd? other with
          | none =>
              constructor
              · rintro ⟨⟩
                exact ⟨rfl, rfl⟩
              · rintro ⟨rfl, -⟩
                rfl
          | some whole =>
              constructor
              · rintro ⟨⟩
              · rintro ⟨-, ⟨⟩⟩

/-- One missing location is enough to leave the whole without one. -/
theorem span_eq_none_iff {first last : Option Location} :
    span first last = .ok none ↔ first = none ∨ last = none := by
  constructor
  · intro hspan
    rcases span_eq_ok hspan with ⟨-, hmissing⟩ | ⟨_, _, _, -, -, hwhole, -⟩
    · exact hmissing
    · cases hwhole
  · rintro (rfl | rfl)
    · rfl
    · cases first <;> rfl

end Location

namespace Node

variable {op : Token} {operand left right : Node} {error : Error}

/-- What is built from a joined span fails just where the spans cannot be joined. -/
theorem build_eq_error_iff {first last : Option Location} (build : Option Location → Node) :
    (do return build (← Location.span first last)) = .error error ↔
      error = .splitLocation ∧ Location.Apart first last := by
  rw [← Location.span_eq_error_iff]
  cases Location.span first last with
  | error other =>
      constructor
      · rintro ⟨⟩
        rfl
      · rintro ⟨⟩
        rfl
  | ok location =>
      constructor
      · rintro ⟨⟩
      · rintro ⟨⟩

theorem unaryOf_eq_error_iff : unaryOf op operand = .error error ↔
    error = .splitLocation ∧ Location.Apart op.location operand.location? :=
  build_eq_error_iff (.unary op operand)

theorem binaryOf_eq_error_iff : binaryOf op left right = .error error ↔
    error = .splitLocation ∧ Location.Apart left.location? right.location? :=
  build_eq_error_iff fun location =>
    .binary op left right (if op.location.isSome then location else none)

theorem unaryOf_unplaced_iff : unaryOf op operand = .ok (.unary op operand none) ↔
    op.location = none ∨ operand.location? = none := by
  rw [← Location.span_eq_none_iff, unaryOf]
  cases Location.span op.location operand.location? with
  | error other =>
      constructor
      · rintro ⟨⟩
      · rintro ⟨⟩
  | ok location =>
      constructor
      · rintro ⟨⟩
        rfl
      · rintro ⟨⟩
        rfl

theorem binaryOf_unplaced_iff : binaryOf op left right = .ok (.binary op left right none) ↔
    ¬Location.Apart left.location? right.location? ∧
      (op.location = none ∨ left.location? = none ∨ right.location? = none) := by
  rw [← Location.span_eq_none_iff]
  cases hspan : Location.span left.location? right.location? with
  | error other =>
      obtain ⟨-, hapart⟩ := Location.span_eq_error_iff.mp hspan
      rw [binaryOf, hspan]
      constructor
      · rintro ⟨⟩
      · rintro ⟨hjoined, -⟩
        exact absurd hapart hjoined
  | ok location =>
      have hjoined : ¬Location.Apart left.location? right.location? := by
        intro hapart
        cases hspan.symm.trans (Location.span_eq_error_iff.mpr ⟨rfl, hapart⟩)
      rw [binaryOf, hspan]
      cases hop : op.location with
      | none => exact iff_of_true rfl ⟨hjoined, .inl rfl⟩
      | some place =>
          constructor
          · rintro ⟨⟩
            exact ⟨hjoined, .inr rfl⟩
          · rintro ⟨-, habsent | habsent⟩
            · cases habsent
            · cases habsent
              rfl

end Node

namespace Phrase

/-- The phrase and all phrases inside it. -/
def parts : Phrase → List Phrase
  | .literal token => [.literal token]
  | .prefixed op operand => .prefixed op operand :: operand.parts
  | .infixed left op right => .infixed left op right :: (left.parts ++ right.parts)

/-- The operands of the phrase can be built, but the spans that its operator joins lie in different
sources. -/
inductive Torn : Phrase → Prop
  | prefixed {op : Token} {operand : Phrase} {inner : Node} (hoperand : operand.node = .ok inner)
      (hapart : Location.Apart op.location inner.location?) : Torn (.prefixed op operand)
  | infixed {left right : Phrase} {op : Token} {leftTree rightTree : Node}
      (hleft : left.node = .ok leftTree) (hright : right.node = .ok rightTree)
      (hapart : Location.Apart leftTree.location? rightTree.location?) :
      Torn (.infixed left op right)

variable {phrase part : Phrase} {error : Error}

theorem Torn.node_eq (htorn : phrase.Torn) : phrase.node = .error .splitLocation := by
  cases htorn with
  | prefixed hoperand hapart =>
      rw [node, hoperand]
      exact Node.unaryOf_eq_error_iff.mpr ⟨rfl, hapart⟩
  | infixed hleft hright hapart =>
      rw [node, hleft, hright]
      exact Node.binaryOf_eq_error_iff.mpr ⟨rfl, hapart⟩

theorem exists_node_of_mem_parts {tree : Node} (hnode : phrase.node = .ok tree)
    (hpart : part ∈ phrase.parts) : ∃ inner, part.node = .ok inner := by
  induction phrase generalizing tree with
  | literal token =>
      cases List.mem_singleton.mp hpart
      exact ⟨tree, hnode⟩
  | prefixed op operand ih =>
      obtain ⟨inner, hinner, -⟩ := node_prefixed hnode
      rcases List.mem_cons.mp hpart with rfl | hpart
      · exact ⟨tree, hnode⟩
      · exact ih hinner hpart
  | infixed left op right ihLeft ihRight =>
      obtain ⟨leftTree, rightTree, hleft, hright, -⟩ := node_infixed hnode
      rcases List.mem_cons.mp hpart with rfl | hpart
      · exact ⟨tree, hnode⟩
      · rcases List.mem_append.mp hpart with hpart | hpart
        · exact ihLeft hleft hpart
        · exact ihRight hright hpart

theorem exists_torn_of_node (hnode : phrase.node = .error error) :
    error = .splitLocation ∧ ∃ part ∈ phrase.parts, part.Torn := by
  induction phrase with
  | literal token => cases hnode
  | prefixed op operand ih =>
      cases hoperand : operand.node with
      | error other =>
          rw [node, hoperand] at hnode
          cases hnode
          obtain ⟨hsplit, part, hpart, htorn⟩ := ih hoperand
          exact ⟨hsplit, part, List.mem_cons_of_mem _ hpart, htorn⟩
      | ok inner =>
          rw [node, hoperand] at hnode
          obtain ⟨hsplit, hapart⟩ := Node.unaryOf_eq_error_iff.mp hnode
          exact ⟨hsplit, _, List.mem_cons_self, .prefixed hoperand hapart⟩
  | infixed left op right ihLeft ihRight =>
      cases hleft : left.node with
      | error other =>
          rw [node, hleft] at hnode
          cases hnode
          obtain ⟨hsplit, part, hpart, htorn⟩ := ihLeft hleft
          exact ⟨hsplit, part, List.mem_cons_of_mem _ (List.mem_append_left _ hpart), htorn⟩
      | ok leftTree =>
          cases hright : right.node with
          | error other =>
              rw [node, hleft, hright] at hnode
              cases hnode
              obtain ⟨hsplit, part, hpart, htorn⟩ := ihRight hright
              exact ⟨hsplit, part, List.mem_cons_of_mem _ (List.mem_append_right _ hpart), htorn⟩
          | ok rightTree =>
              rw [node, hleft, hright] at hnode
              obtain ⟨hsplit, hapart⟩ := Node.binaryOf_eq_error_iff.mp hnode
              exact ⟨hsplit, _, List.mem_cons_self, .infixed hleft hright hapart⟩

/-- The tree of a phrase fails to be built just where one of its operators does. -/
theorem node_eq_error_iff : phrase.node = .error error ↔
    error = .splitLocation ∧ ∃ part ∈ phrase.parts, part.Torn := by
  constructor
  · exact exists_torn_of_node
  · rintro ⟨rfl, part, hpart, htorn⟩
    cases hnode : phrase.node with
    | error other =>
        obtain ⟨rfl, -⟩ := exists_torn_of_node hnode
        rfl
    | ok tree =>
        obtain ⟨inner, hinner⟩ := exists_node_of_mem_parts hnode hpart
        cases hinner.symm.trans htorn.node_eq

end Phrase

namespace Parser

variable {A T τ : Type} [TokenStream τ] {grammar : Grammar A T τ} {ops : Operators}

/-- An operand that fails, or cannot be built on, ends the expression. -/
theorem exists_resume_error (rbp : Int) {power : Int} {next between : Parser A T τ}
    {given : Except Error Node} {build : Node → Except Error Node} {error : Error}
    (hoperand : Evaluates grammar power next (given, between))
    (hbuild : given.bind build = .error error) :
    ∃ fuel, ((expression grammar fuel power next).map fun given =>
      (given.1.bind build, given.2)).bind (resume grammar fuel rbp) =
        some (.error error, between) := by
  obtain ⟨fuel, hrun⟩ := hoperand
  refine ⟨fuel, ?_⟩
  rw [hrun, Option.map_some, Option.bind_some, hbuild]
  rfl

section Steps

variable {rbp power : Int} {parser : Parser A T τ} {token : Token} {op : Operator}
variable {tokens rest : List Token} {left : Node} {given : Except Error Node} {error : Error}

theorem prefixed_fails (huses : parser.Uses grammar ops)
    (hreads : parser.Reads (token :: tokens)) (hkind : ops token.kind = some op)
    (hopening : op.opening = some (.prefixOp power))
    (hoperand : ∀ {next : Parser A T τ}, next.Uses grammar ops → next.Reads tokens →
      ∃ between, Evaluates grammar power next (given, between))
    (hbuild : given.bind (Node.unaryOf token) = .error error) :
    ∃ last, Evaluates grammar rbp parser (.error error, last) := by
  obtain ⟨next, hnext, hrest, htables⟩ := nextToken_cons hreads
  have husesNext := huses.of_tables htables
  have hstarting := husesNext.starting token
  simp only [hkind, hopening] at hstarting
  obtain ⟨between, hgiven⟩ := hoperand husesNext hrest
  obtain ⟨fuel, hrun⟩ := exists_resume_error rbp hgiven hbuild
  refine ⟨between, fuel + 1, ?_⟩
  rw [expression_starting fuel hnext hstarting, Opening.run_prefixOp]
  exact hrun

theorem Reaches.infixed_fails {grouping : Grouping}
    (hleft : Reaches grammar ops rbp parser left (token :: tokens))
    (hkind : ops token.kind = some op) (hgrouping : op.grouping = some grouping)
    (hbinds : rbp < op.power)
    (hoperand : ∀ {next : Parser A T τ}, next.Uses grammar ops → next.Reads tokens →
      ∃ between, Evaluates grammar (grouping.operandPower op.power) next (given, between))
    (hbuild : given.bind (Node.binaryOf token left) = .error error) :
    ∃ last, Evaluates grammar rbp parser (.error error, last) := by
  obtain ⟨middle, hmiddle, husesMiddle, hevaluates⟩ := hleft
  obtain ⟨next, hnext, hrest, htables⟩ := nextToken_cons hmiddle
  have husesNext := husesMiddle.of_tables htables
  have hfollowing := husesNext.following rbp left token
  simp only [hkind, hgrouping, if_neg (Int.not_le.mpr hbinds)] at hfollowing
  obtain ⟨between, hgiven⟩ := hoperand husesNext hrest
  obtain ⟨fuel, hrun⟩ := exists_resume_error rbp hgiven hbuild
  refine ⟨between, hevaluates _ ⟨fuel + 1, ?_⟩⟩
  rw [operators_following fuel hnext hfollowing,
    grouping.run_program left (husesNext.powerOf hkind)]
  exact hrun

/-- A normal phrase that ends before the rest evaluates to its tree, or to the error of building
it. -/
theorem evaluates_of_fails {phrase : Phrase} (hnormal : phrase.Normal ops rbp)
    (huses : parser.Uses grammar ops) (hreads : parser.Reads (phrase.tokens ++ rest))
    (hstop : ops.Stop (rbp :: phrase.rightEdge ops) rest)
    (hfails : ∀ error, phrase.node = .error error →
      ∃ last, Evaluates grammar rbp parser (.error error, last)) :
    ∃ last, Evaluates grammar rbp parser (phrase.node, last) := by
  cases hnode : phrase.node with
  | error error => exact hfails error hnode
  | ok tree =>
      have hreached := reaches_of_normal hnormal huses hreads hnode hstop.tail
      obtain ⟨last, hgiven, -⟩ := hreached.evaluates hstop
      exact ⟨last, hgiven⟩

end Steps

/-- Where the tree of a normal phrase cannot be built, an expression that starts with the phrase
fails with the same error. -/
theorem fails_of_normal {rbp : Int} {phrase : Phrase} (hnormal : phrase.Normal ops rbp) :
    ∀ {rest error} {parser : Parser A T τ}, parser.Uses grammar ops →
      parser.Reads (phrase.tokens ++ rest) → phrase.node = .error error →
      ops.Stop (phrase.rightEdge ops) rest →
        ∃ last, Evaluates grammar rbp parser (.error error, last) := by
  induction hnormal with
  | literal hkind hopening =>
      intro rest error parser huses hreads hnode hstop
      cases hnode
  | prefixed hkind hopening hoperand ih =>
      intro rest error parser huses hreads hnode hstop
      rw [Phrase.rightEdge_prefixed hkind hopening] at hstop
      exact prefixed_fails huses hreads hkind hopening
        (fun husesNext hrest => evaluates_of_fails hoperand husesNext hrest hstop
          fun _ hinner => ih husesNext hrest hinner hstop.tail) hnode
  | @infixed rbp token op grouping left right hkind hgrouping hbinds hleft hedge hright ihLeft
      ihRight =>
      intro rest error parser huses hreads hnode hstop
      rw [Phrase.rightEdge_infixed hkind hgrouping] at hstop
      rw [Phrase.tokens, List.append_assoc] at hreads
      have hleftStop := Operators.stop_cons hkind hedge (right.tokens ++ rest)
      rw [Phrase.node] at hnode
      cases hleftTree : left.node with
      | error other =>
          rw [hleftTree] at hnode
          cases hnode
          exact ihLeft huses hreads hleftTree hleftStop
      | ok leftTree =>
          rw [hleftTree] at hnode
          have hreached := reaches_of_normal hleft huses hreads hleftTree hleftStop
          exact hreached.infixed_fails hkind hgrouping hbinds
            (fun husesNext hrest => evaluates_of_fails hright husesNext hrest hstop
              fun _ hrightTree => ihRight husesNext hrest hrightTree hstop.tail) hnode

/-- What is at the head of the input evaluates to its tree, or to the error of building it. -/
theorem evaluates_phrase {rbp : Int} {tokens rest : List Token} {phrase : Phrase}
    {parser : Parser A T τ} (huses : parser.Uses grammar ops) (hreads : parser.Reads tokens)
    (hparse : Phrase.IsParse ops rbp tokens phrase rest) :
    ∃ last, Evaluates grammar rbp parser (phrase.node, last) := by
  obtain ⟨rfl, hnormal, hstop⟩ := hparse
  exact evaluates_of_fails hnormal huses hreads hstop
    fun _ hnode => fails_of_normal hnormal huses hreads hnode hstop.tail

/-- An operator node is refused just where both of the spans that it joins are there and lie in
different sources: those of the operator and the operand, or those of the two operands, whether or
not the operator between them has one.  Any other node that lacks a span is built without a
location.  An expression evaluates to the tree of its phrase, which is refused just where one of the
operators in it is. -/
theorem refused_iff_apart {rbp : Int} {tokens rest : List Token} {phrase : Phrase}
    {parser : Parser A T τ} (huses : parser.Uses grammar ops) (hreads : parser.Reads tokens)
    (hparse : Phrase.IsParse ops rbp tokens phrase rest) :
    (∀ op operand error, Node.unaryOf op operand = .error error ↔
      error = .splitLocation ∧ Location.Apart op.location operand.location?) ∧
    (∀ op operand, Node.unaryOf op operand = .ok (.unary op operand none) ↔
      op.location = none ∨ operand.location? = none) ∧
    (∀ op left right error, Node.binaryOf op left right = .error error ↔
      error = .splitLocation ∧ Location.Apart left.location? right.location?) ∧
    (∀ op left right, Node.binaryOf op left right = .ok (.binary op left right none) ↔
      ¬Location.Apart left.location? right.location? ∧
        (op.location = none ∨ left.location? = none ∨ right.location? = none)) ∧
    (∃ last, Evaluates grammar rbp parser (phrase.node, last)) ∧
    ∀ error, phrase.node = .error error ↔
      error = .splitLocation ∧ ∃ part ∈ phrase.parts, part.Torn :=
  ⟨fun _ _ _ => Node.unaryOf_eq_error_iff, fun _ _ => Node.unaryOf_unplaced_iff,
    fun _ _ _ _ => Node.binaryOf_eq_error_iff, fun _ _ _ => Node.binaryOf_unplaced_iff,
    evaluates_phrase huses hreads hparse, fun _ => Phrase.node_eq_error_iff⟩

/-- In `x * - x` the factors lie in different files.  That is refused, although the sign between
them has no place; if the minus sign has none either, the negation has no location and the product
is built. -/
theorem refused_iff_apart_arithmetic :
    let grammar : Grammar Unit Unit TokenList := fun _ => Table.ofOperators Operators.arithmetic
    let place (file : String) : Option Location := some (.file ⟨file, ⟨1, 1⟩, ⟨1, 2⟩⟩)
    let input (minus : Option Location) : List Token := [{ kind := "x", location := place "a" },
      { kind := "*" }, { kind := "-", location := minus }, { kind := "x", location := place "b" }]
    (∃ last, Evaluates grammar 0 (new () ⟨input (place "b")⟩) (.error .splitLocation, last)) ∧
      ∃ tree last, Evaluates grammar 0 (new () ⟨input none⟩) (.ok tree, last) ∧
        tree.location? = none := by
  intro grammar place input
  let operand (minus : Option Location) : Phrase := .prefixed { kind := "-", location := minus }
    (.literal { kind := "x", location := place "b" })
  let phrase (minus : Option Location) : Phrase :=
    .infixed (.literal { kind := "x", location := place "a" }) { kind := "*" } (operand minus)
  have hparse : ∀ minus, Phrase.IsParse (fun kind => Operators.arithmetic.lookup kind) 0
      (input minus) (phrase minus) [] := by
    intro minus
    refine ⟨rfl, ?_, nofun⟩
    exact .infixed rfl rfl (by decide) (.literal rfl rfl) nofun
      (.prefixed rfl rfl (.literal rfl rfl))
  have huses : ∀ minus, (new () ⟨input minus⟩ : Parser Unit Unit TokenList).Uses grammar fun kind =>
      Operators.arithmetic.lookup kind :=
    fun _ => ⟨_, rfl, Table.follows_ofOperators _⟩
  have hreads : ∀ minus, (new () ⟨input minus⟩ : Parser Unit Unit TokenList).Reads (input minus) :=
    fun minus => reads_new () (TokenList.gives (input minus))
  constructor
  · obtain ⟨-, -, -, -, ⟨last, hgiven⟩, hrefused⟩ :=
      refused_iff_apart (huses (place "b")) (hreads (place "b")) (hparse (place "b"))
    have htorn : (phrase (place "b")).Torn := .infixed rfl rfl ⟨_, rfl, _, rfl, by decide⟩
    have herror := (hrefused .splitLocation).mpr ⟨rfl, _, List.mem_cons_self, htorn⟩
    exact ⟨last, herror ▸ hgiven⟩
  · obtain ⟨-, -, -, -, ⟨last, hgiven⟩, -⟩ :=
      refused_iff_apart (huses none) (hreads none) (hparse none)
    exact ⟨_, last, hgiven, rfl⟩

end Parser

/-- Without a place for the sign, factors from different files are refused all the same. -/
theorem Node.unplaced_operator_refused :
    let left : Node := .leaf { kind := "x", location := some (.ofFile "a") }
    let right : Node := .leaf { kind := "x", location := some (.ofFile "b") }
    binaryOf { kind := "*" } left right = .error .splitLocation ∧
      binaryOf { kind := "*" } left right ≠ .ok (.binary { kind := "*" } left right none) := by
  intro left right
  exact ⟨rfl, nofun⟩

end Precedence
