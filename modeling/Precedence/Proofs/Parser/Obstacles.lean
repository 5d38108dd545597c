import Precedence.Proofs.Parser.Spans

/-!
# Where an expression gets stuck

Whether an expression fails can be told from left to right, without any tree.  It is enough to keep
the binding powers of the operands that are being parsed: a token after an operand goes to the
innermost of them that it binds, and closes those inside it.  An expression fails just where this
reading meets an obstacle, with the error of that obstacle, at whatever depth it is raised and
however often the tokens before it were pushed back.
-/

namespace Precedence

/-- What keeps the reading of an expression from going on. -/
inductive Obstacle
  /-- The input ends where an operand is needed, after the token `last` if there is one. -/
  | missing (last : Option Token)
  /-- The parse table does not know the kind of the token. -/
  | unknown (token : Token)
  /-- The parse table knows the kind, but not in this position. -/
  | unexpected (token : Token)

namespace Obstacle

def root : Obstacle → Error
  | .missing _ => .expectedToken
  | .unknown token => .unknownTokenType token.kind
  | .unexpected token => .unexpectedToken token.kind

/-- The token where the obstacle is found. -/
def token? : Obstacle → Option Token
  | .missing last => last
  | .unknown token | .unexpected token => some token

def error (obstacle : Obstacle) : Error := obstacle.root.place (obstacle.token?.bind Token.location)

end Obstacle

namespace Operators

mutual

/-- The obstacle that is met first where an operand is needed.  The levels are the binding powers
of the expressions that are not finished, the innermost first, and `last` is the token before. -/
def atOperand (ops : Operators) (levels : List Int) (last : Option Token) :
    List Token → Option Obstacle
  | [] => some (.missing last)
  | token :: tokens =>
      match ops token.kind with
      | none => some (.unknown token)
      | some op =>
          match op.opening with
          | none => some (.unexpected token)
          | some .literal => ops.atOperator levels tokens
          | some (.prefixOp power) => ops.atOperand (power :: levels) (some token) tokens

/-- The obstacle that is met first after an operand. -/
def atOperator (ops : Operators) (levels : List Int) : List Token → Option Obstacle
  | [] => none
  | token :: tokens =>
      match ops token.kind with
      | none => some (.unknown token)
      | some op =>
          match levels.dropWhile fun power => op.power ≤ power with
          | [] => none
          | active =>
              match op.grouping with
              | none => some (.unexpected token)
              | some grouping =>
                  ops.atOperand (grouping.operandPower op.power :: active) (some token) tokens

end

section Equations

variable {ops : Operators} {token : Token} {op : Operator} {rbp : Int}

@[simp]
theorem atOperand_nil (levels : List Int) (last : Option Token) :
    ops.atOperand levels last [] = some (.missing last) := by rw [atOperand]

theorem atOperand_unknown (hkind : ops token.kind = none) (levels : List Int)
    (last : Option Token) (tokens : List Token) :
    ops.atOperand levels last (token :: tokens) = some (.unknown token) := by
  rw [atOperand, hkind]

theorem atOperand_unexpected (hkind : ops token.kind = some op) (hopening : op.opening = none)
    (levels : List Int) (last : Option Token) (tokens : List Token) :
    ops.atOperand levels last (token :: tokens) = some (.unexpected token) := by
  simp only [atOperand, hkind, hopening]

theorem atOperand_literal (hkind : ops token.kind = some op)
    (hopening : op.opening = some .literal) (levels : List Int) (last : Option Token)
    (tokens : List Token) :
    ops.atOperand levels last (token :: tokens) = ops.atOperator levels tokens := by
  simp only [atOperand, hkind, hopening]

theorem atOperand_prefixOp {power : Int} (hkind : ops token.kind = some op)
    (hopening : op.opening = some (.prefixOp power)) (levels : List Int) (last : Option Token)
    (tokens : List Token) :
    ops.atOperand levels last (token :: tokens) =
      ops.atOperand (power :: levels) (some token) tokens := by
  simp only [atOperand, hkind, hopening]

@[simp]
theorem atOperator_nil (levels : List Int) : ops.atOperator levels [] = none := by rw [atOperator]

theorem atOperator_unknown (hkind : ops token.kind = none) (levels : List Int)
    (tokens : List Token) : ops.atOperator levels (token :: tokens) = some (.unknown token) := by
  rw [atOperator, hkind]

/-- A known token that no level takes ends the reading. -/
theorem atOperator_ended (hkind : ops token.kind = some op) (tokens : List Token) :
    ops.atOperator [] (token :: tokens) = none := by
  rw [atOperator, hkind]
  rfl

theorem atOperator_closed (hkind : ops token.kind = some op) (hclosed : op.power ≤ rbp)
    (outer : List Int) (tokens : List Token) :
    ops.atOperator (rbp :: outer) (token :: tokens) = ops.atOperator outer (token :: tokens) := by
  have hdrop : (rbp :: outer).dropWhile (fun power => op.power ≤ power) =
      outer.dropWhile fun power => op.power ≤ power :=
    List.dropWhile_cons_of_pos (decide_eq_true hclosed)
  simp only [atOperator, hkind, hdrop]

theorem dropWhile_of_lt (hbinds : rbp < op.power) (outer : List Int) :
    (rbp :: outer).dropWhile (fun power => op.power ≤ power) = rbp :: outer :=
  List.dropWhile_cons_of_neg (by simpa using hbinds)

theorem atOperator_unexpected (hkind : ops token.kind = some op) (hgrouping : op.grouping = none)
    (hbinds : rbp < op.power) (outer : List Int) (tokens : List Token) :
    ops.atOperator (rbp :: outer) (token :: tokens) = some (.unexpected token) := by
  simp only [atOperator, hkind, dropWhile_of_lt hbinds, hgrouping]

theorem atOperator_infixed {grouping : Grouping} (hkind : ops token.kind = some op)
    (hgrouping : op.grouping = some grouping) (hbinds : rbp < op.power) (outer : List Int)
    (tokens : List Token) :
    ops.atOperator (rbp :: outer) (token :: tokens) =
      ops.atOperand (grouping.operandPower op.power :: rbp :: outer) (some token) tokens := by
  simp only [atOperator, hkind, dropWhile_of_lt hbinds, hgrouping]

end Equations

end Operators

/-- The obstacle lies at the end of the tokens, after the token `last` if there are none, or it is
one of them that the operators do not know or do not take everywhere. -/
inductive Obstacle.FoundIn (ops : Operators) (last : Option Token) (tokens : List Token) :
    Obstacle → Prop
  | missing : FoundIn ops last tokens (.missing (tokens.getLast?.or last))
  | unknown {token : Token} (htoken : token ∈ tokens) (hkind : ops token.kind = none) :
      FoundIn ops last tokens (.unknown token)
  | unexpected {token : Token} {op : Operator} (htoken : token ∈ tokens)
      (hkind : ops token.kind = some op) (hplace : op.opening = none ∨ op.grouping = none) :
      FoundIn ops last tokens (.unexpected token)

namespace Obstacle

variable {ops : Operators} {last : Option Token} {token : Token} {tokens : List Token}
variable {obstacle : Obstacle}

theorem FoundIn.cons (hfound : obstacle.FoundIn ops (some token) tokens) :
    obstacle.FoundIn ops last (token :: tokens) := by
  cases hfound with
  | missing =>
      have hlast : tokens.getLast?.or (some token) = (token :: tokens).getLast?.or last := by
        rw [List.getLast?_cons]
        cases tokens.getLast? <;> rfl
      rw [hlast]
      exact .missing
  | unknown htoken hkind => exact .unknown (List.mem_cons_of_mem _ htoken) hkind
  | unexpected htoken hkind hplace =>
      exact .unexpected (List.mem_cons_of_mem _ htoken) hkind hplace

theorem foundIn (ops : Operators) (tokens : List Token) :
    (∀ levels last obstacle, ops.atOperand levels last tokens = some obstacle →
      obstacle.FoundIn ops last tokens) ∧
    ∀ levels last obstacle, ops.atOperator levels tokens = some obstacle →
      obstacle.FoundIn ops last tokens := by
  induction tokens with
  | nil =>
      constructor
      · intro levels last obstacle hmet
        rw [Operators.atOperand] at hmet
        cases hmet
        exact .missing
      · intro levels last obstacle hmet
        rw [Operators.atOperator] at hmet
        cases hmet
  | cons token tokens ih =>
      constructor
      · intro levels last obstacle hmet
        rw [Operators.atOperand] at hmet
        split at hmet
        · next hkind =>
            cases hmet
            exact .unknown List.mem_cons_self hkind
        · next op hkind =>
            split at hmet
            · next hopening =>
                cases hmet
                exact .unexpected List.mem_cons_self hkind (.inl hopening)
            · exact (ih.2 levels (some token) obstacle hmet).cons
            · exact (ih.1 _ _ obstacle hmet).cons
      · intro levels last obstacle hmet
        rw [Operators.atOperator] at hmet
        split at hmet
        · next hkind =>
            cases hmet
            exact .unknown List.mem_cons_self hkind
        · next op hkind =>
            split at hmet
            · cases hmet
            · split at hmet
              · next hgrouping =>
                  cases hmet
                  exact .unexpected List.mem_cons_self hkind (.inr hgrouping)
              · exact (ih.1 _ _ obstacle hmet).cons

theorem root_error (obstacle : Obstacle) : obstacle.error.root = obstacle.root := by
  rw [error, Error.root_place]
  cases obstacle with
  | missing | unknown | unexpected => rfl

theorem location?_error (obstacle : Obstacle) :
    obstacle.error.location? = obstacle.token?.bind Token.location := by
  rw [error, Error.location?_place]
  cases obstacle with
  | missing | unknown | unexpected => rfl

end Obstacle

namespace Parser

variable {A T τ : Type} [TokenStream τ]

/-- The parser reads the tokens by the operators, and they lie in the source. -/
structure Ready (grammar : Grammar A T τ) (ops : Operators) (source : Source)
    (tokens : List Token) (parser : Parser A T τ) : Prop where
  uses : parser.Uses grammar ops
  reads : parser.Reads tokens
  holds : ∀ token ∈ tokens, source.Holds token.location

variable {grammar : Grammar A T τ} {ops : Operators} {source : Source}
variable {token : Token} {tokens : List Token} {parser : Parser A T τ}

theorem Ready.nil (hready : parser.Ready grammar ops source []) :
    ∃ next, parser.nextToken = (none, next) ∧ next.Ready grammar ops source [] := by
  obtain ⟨next, hnext, hreads, htables⟩ := nextToken_nil hready.reads
  exact ⟨next, hnext, hready.uses.of_tables htables, hreads, hready.holds⟩

theorem Ready.cons (hready : parser.Ready grammar ops source (token :: tokens)) :
    ∃ next, parser.nextToken = (some token, next) ∧ next.current = some token ∧
      next.Ready grammar ops source tokens := by
  obtain ⟨next, hnext, hreads, htables⟩ := nextToken_cons hready.reads
  have hcurrent := parser.current_nextToken
  rw [hnext] at hcurrent
  exact ⟨next, hnext, hcurrent, hready.uses.of_tables htables, hreads,
    (List.forall_mem_cons.mp hready.holds).2⟩

theorem Ready.pushBack (htoken : source.Holds token.location)
    (hready : parser.Ready grammar ops source tokens) :
    (parser.pushBack token).Ready grammar ops source (token :: tokens) :=
  ⟨hready.uses.of_tables rfl, reads_pushBack token hready.reads,
    List.forall_mem_cons.mpr ⟨htoken, hready.holds⟩⟩

/-- What an expression, or the loop over its operators, comes to.  The verdict is that of the
reading, for each choice of the levels outside the expression: an obstacle that is met inside, or
what they make of the tokens that the expression leaves. -/
inductive Outcome (grammar : Grammar A T τ) (ops : Operators) (source : Source)
    (verdict : List Int → Option Obstacle) (bound : Nat) : Except Error Node × Parser A T τ → Prop
  | stuck {obstacle : Obstacle} {last : Parser A T τ}
      (hverdict : ∀ outer, verdict outer = some obstacle) :
      Outcome grammar ops source verdict bound (.error obstacle.error, last)
  | leaves {node : Node} {rest : List Token} {last : Parser A T τ}
      (hverdict : ∀ outer, verdict outer = ops.atOperator outer rest)
      (hended : ops.atOperator [] rest = none) (hlength : rest.length < bound)
      (hready : last.Ready grammar ops source rest) (hnode : source.Holds node.location?) :
      Outcome grammar ops source verdict bound (.ok node, last)

theorem Outcome.imp {verdict verdict' : List Int → Option Obstacle} {bound bound' : Nat}
    {result : Except Error Node × Parser A T τ}
    (houtcome : Outcome grammar ops source verdict bound result)
    (hverdict : ∀ outer, verdict' outer = verdict outer) (hbound : bound ≤ bound') :
    Outcome grammar ops source verdict' bound' result := by
  cases houtcome with
  | stuck hstuck => exact .stuck fun outer => (hverdict outer).trans (hstuck outer)
  | leaves hrest hended hlength hready hnode =>
      exact .leaves (fun outer => (hverdict outer).trans (hrest outer)) hended
        (Nat.lt_of_lt_of_le hlength hbound) hready hnode

/-- An expression comes to what the reading of its tokens comes to. -/
def ExpressionSettles (grammar : Grammar A T τ) (ops : Operators) (source : Source) (bound : Nat)
    (rbp : Int) (tokens : List Token) (parser : Parser A T τ) : Prop :=
  ∃ result, Evaluates grammar rbp parser result ∧
    Outcome grammar ops source (fun outer => ops.atOperand (rbp :: outer) parser.current tokens)
      bound result

/-- The operators after an operand come to what the reading of the tokens comes to. -/
def OperatorsSettle (grammar : Grammar A T τ) (ops : Operators) (source : Source) (bound : Nat)
    (rbp : Int) (left : Node) (tokens : List Token) (parser : Parser A T τ) : Prop :=
  ∃ result, Continues grammar rbp left parser result ∧
    Outcome grammar ops source (fun outer => ops.atOperator (rbp :: outer) tokens) bound result

/-- Fewer than `bound` tokens settle every expression and all operators after an operand. -/
structure Settled (grammar : Grammar A T τ) (ops : Operators) (source : Source) (bound : Nat) :
    Prop where
  expression : ∀ (rbp : Int) {tokens : List Token} {parser : Parser A T τ},
    tokens.length < bound → parser.Ready grammar ops source tokens →
      ExpressionSettles grammar ops source bound rbp tokens parser
  operators : ∀ (rbp : Int) {tokens : List Token} {left : Node} {parser : Parser A T τ},
    tokens.length < bound → parser.Ready grammar ops source tokens →
      source.Holds left.location? →
        OperatorsSettle grammar ops source bound rbp left tokens parser

namespace Settled

variable {bound : Nat} {op : Operator}

/-- An operand is parsed at its own power inside the expression at `rbp`, and once it is complete
the expression goes on with what it leaves. -/
theorem build (hsettled : Settled grammar (τ := τ) ops source bound) (rbp power : Int)
    {next : Parser A T τ} {build : Node → Except Error Node} (hlength : tokens.length < bound)
    (hready : next.Ready grammar ops source tokens)
    (hbuild : ∀ operand : Node, source.Holds operand.location? →
      ∃ node, build operand = .ok node ∧ source.Holds node.location?) :
    ∃ result, (∃ fuel, ((Parser.expression grammar fuel power next).map fun given =>
        (given.1.bind build, given.2)).bind (resume grammar fuel rbp) = some result) ∧
      Outcome grammar ops source
        (fun outer => ops.atOperand (power :: rbp :: outer) next.current tokens) bound result := by
  obtain ⟨given, hgiven, houtcome⟩ := hsettled.expression power hlength hready
  cases houtcome with
  | @stuck obstacle last hstuck =>
      obtain ⟨fuel, hrun⟩ := hgiven
      have hfails : ((Parser.expression grammar fuel power next).map fun given =>
          (given.1.bind build, given.2)).bind (resume grammar fuel rbp) =
            some (.error obstacle.error, last) := by
        rw [hrun]
        rfl
      exact ⟨_, ⟨fuel, hfails⟩, .stuck fun outer => hstuck (rbp :: outer)⟩
  | leaves hrest hended hlength hready hnode =>
      obtain ⟨node, hbuilt, hheld⟩ := hbuild _ hnode
      obtain ⟨result, hloop, houtcome⟩ := hsettled.operators rbp hlength hready hheld
      exact ⟨result, exists_resume_build hgiven hbuilt hloop,
        houtcome.imp (fun outer => hrest (rbp :: outer)) (Nat.le_refl bound)⟩

theorem literal (hsettled : Settled grammar (τ := τ) ops source bound) (rbp : Int)
    (hlength : tokens.length < bound) (hready : parser.Ready grammar ops source (token :: tokens))
    (hkind : ops token.kind = some op) (hopening : op.opening = some .literal) :
    ExpressionSettles grammar ops source bound rbp (token :: tokens) parser := by
  obtain ⟨htoken, hlater⟩ := List.forall_mem_cons.mp hready.holds
  have hleaf : source.Holds (Node.leaf token).location? := htoken
  obtain ⟨next, hreads, huses, hevaluates⟩ :=
    reaches_literal hready.uses hready.reads hkind hopening
  obtain ⟨result, hloop, houtcome⟩ :=
    hsettled.operators rbp hlength ⟨huses, hreads, hlater⟩ hleaf
  exact ⟨result, hevaluates result hloop, houtcome.imp
    (fun _ => Operators.atOperand_literal hkind hopening _ _ _) (Nat.le_refl bound)⟩

theorem prefixed (hsettled : Settled grammar (τ := τ) ops source bound) (rbp : Int) {power : Int}
    (hlength : tokens.length < bound) (hready : parser.Ready grammar ops source (token :: tokens))
    (hkind : ops token.kind = some op) (hopening : op.opening = some (.prefixOp power)) :
    ExpressionSettles grammar ops source bound rbp (token :: tokens) parser := by
  obtain ⟨next, hnext, hcurrent, hrest⟩ := hready.cons
  have htoken : source.Holds token.location := hready.holds token List.mem_cons_self
  have hstarting := hrest.uses.starting token
  simp only [hkind, hopening] at hstarting
  obtain ⟨result, ⟨fuel, hrun⟩, houtcome⟩ :=
    hsettled.build rbp power hlength hrest fun _ => Node.unaryOf_of_holds htoken
  rw [hcurrent] at houtcome
  refine ⟨result, ⟨fuel + 1, ?_⟩, houtcome.imp
    (fun _ => Operators.atOperand_prefixOp hkind hopening _ _ _) (Nat.le_refl bound)⟩
  rw [expression_starting fuel hnext hstarting, Opening.run_prefixOp]
  exact hrun

theorem infixed (hsettled : Settled grammar (τ := τ) ops source bound) {rbp : Int} {left : Node}
    {grouping : Grouping} (hlength : tokens.length < bound)
    (hready : parser.Ready grammar ops source (token :: tokens))
    (hleft : source.Holds left.location?) (hkind : ops token.kind = some op)
    (hgrouping : op.grouping = some grouping) (hbinds : rbp < op.power) :
    OperatorsSettle grammar ops source bound rbp left (token :: tokens) parser := by
  obtain ⟨next, hnext, hcurrent, hrest⟩ := hready.cons
  have hfollowing := hrest.uses.following rbp left token
  simp only [hkind, hgrouping, if_neg (Int.not_le.mpr hbinds)] at hfollowing
  obtain ⟨result, ⟨fuel, hrun⟩, houtcome⟩ :=
    hsettled.build rbp (grouping.operandPower op.power) hlength hrest
      fun _ => Node.binaryOf_of_holds token hleft
  rw [hcurrent] at houtcome
  refine ⟨result, ⟨fuel + 1, ?_⟩, houtcome.imp
    (fun _ => Operators.atOperator_infixed hkind hgrouping hbinds _ _) (Nat.le_refl bound)⟩
  rw [operators_following fuel hnext hfollowing,
    grouping.run_program left (hrest.uses.powerOf hkind)]
  exact hrun

theorem expression_succ (hsettled : Settled grammar (τ := τ) ops source bound) (rbp : Int)
    (hlength : tokens.length < bound + 1) (hready : parser.Ready grammar ops source tokens) :
    ExpressionSettles grammar ops source (bound + 1) rbp tokens parser := by
  cases tokens with
  | nil =>
      obtain ⟨next, hnext, -⟩ := hready.nil
      exact ⟨_, ⟨1, expression_none 0 hnext⟩,
        .stuck fun outer => Operators.atOperand_nil (rbp :: outer) parser.current⟩
  | cons token tokens =>
      have hlater : tokens.length < bound := Nat.lt_of_succ_lt_succ hlength
      obtain ⟨next, hnext, -, hrest⟩ := hready.cons
      have hstarting := hrest.uses.starting token
      cases hkind : ops token.kind with
      | none =>
          simp only [hkind] at hstarting
          exact ⟨_, ⟨1, expression_error 0 hnext hstarting⟩,
            .stuck fun _ => Operators.atOperand_unknown hkind _ _ _⟩
      | some op =>
          rcases hopening : op.opening with _ | _ | power
          · simp only [hkind, hopening] at hstarting
            exact ⟨_, ⟨1, expression_error 0 hnext hstarting⟩,
              .stuck fun _ => Operators.atOperand_unexpected hkind hopening _ _ _⟩
          · obtain ⟨result, hresult, houtcome⟩ :=
              hsettled.literal rbp hlater hready hkind hopening
            exact ⟨result, hresult, houtcome.imp (fun _ => rfl) (Nat.le_succ bound)⟩
          · obtain ⟨result, hresult, houtcome⟩ :=
              hsettled.prefixed rbp hlater hready hkind hopening
            exact ⟨result, hresult, houtcome.imp (fun _ => rfl) (Nat.le_succ bound)⟩

theorem operators_succ (hsettled : Settled grammar (τ := τ) ops source bound) (rbp : Int)
    {left : Node} (hlength : tokens.length < bound + 1)
    (hready : parser.Ready grammar ops source tokens) (hleft : source.Holds left.location?) :
    OperatorsSettle grammar ops source (bound + 1) rbp left tokens parser := by
  cases tokens with
  | nil =>
      obtain ⟨next, hnext, hrest⟩ := hready.nil
      refine ⟨_, ⟨1, operators_none 0 hnext⟩, .leaves (fun outer => ?_) ?_ hlength hrest hleft⟩
      · rw [Operators.atOperator_nil, Operators.atOperator_nil]
      · exact Operators.atOperator_nil []
  | cons token tokens =>
      have hlater : tokens.length < bound := Nat.lt_of_succ_lt_succ hlength
      obtain ⟨next, hnext, -, hrest⟩ := hready.cons
      have hfollowing := hrest.uses.following rbp left token
      cases hkind : ops token.kind with
      | none =>
          simp only [hkind] at hfollowing
          exact ⟨_, ⟨1, operators_error 0 hnext hfollowing⟩,
            .stuck fun _ => Operators.atOperator_unknown hkind _ _⟩
      | some op =>
          rcases Int.lt_or_le rbp op.power with hbinds | hclosed
          · cases hgrouping : op.grouping with
            | none =>
                simp only [hkind, hgrouping, if_neg (Int.not_le.mpr hbinds)] at hfollowing
                exact ⟨_, ⟨1, operators_error 0 hnext hfollowing⟩,
                  .stuck fun _ => Operators.atOperator_unexpected hkind hgrouping hbinds _ _⟩
            | some grouping =>
                obtain ⟨result, hresult, houtcome⟩ :=
                  hsettled.infixed hlater hready hleft hkind hgrouping hbinds
                exact ⟨result, hresult, houtcome.imp (fun _ => rfl) (Nat.le_succ bound)⟩
          · -- The token is pushed back, for a level outside to take it or to refuse it.
            have htoken : source.Holds token.location := hready.holds token List.mem_cons_self
            simp only [hkind, if_pos hclosed] at hfollowing
            exact ⟨_, ⟨1, operators_stop 0 hnext hfollowing⟩,
              .leaves (fun _ => Operators.atOperator_closed hkind hclosed _ _)
                (Operators.atOperator_ended hkind tokens) hlength (hrest.pushBack htoken) hleft⟩

end Settled

theorem settled (grammar : Grammar A T τ) (ops : Operators) (source : Source) (bound : Nat) :
    Settled grammar ops source bound := by
  -- Each token that is taken lowers the bound; pushing one back does not raise it again.
  induction bound with
  | zero =>
      constructor
      · intro rbp tokens parser hlength
        exact absurd hlength (Nat.not_lt_zero _)
      · intro rbp tokens left parser hlength
        exact absurd hlength (Nat.not_lt_zero _)
  | succ bound ih =>
      constructor
      · exact fun rbp => ih.expression_succ rbp
      · exact fun rbp => ih.operators_succ rbp

/-- In one source an expression always comes to a result, and it fails just where the reading of
its tokens meets an obstacle.  The error names the token of the obstacle and lies there; where the
input ends too early, it lies at the last token, or at the parser's current token if there is
none. -/
theorem expression_fails_iff_obstacle (rbp : Int) {tokens : List Token} {parser : Parser A T τ}
    {source : Source} (huses : parser.Uses grammar ops) (hreads : parser.Reads tokens)
    (hholds : ∀ token ∈ tokens, source.Holds token.location) :
    (∃ result last, Evaluates grammar rbp parser (result, last) ∧
      ∀ error, result = .error error ↔
        ∃ obstacle, ops.atOperand [rbp] parser.current tokens = some obstacle ∧
          error = obstacle.error) ∧
    ∀ obstacle, ops.atOperand [rbp] parser.current tokens = some obstacle →
      obstacle.FoundIn ops parser.current tokens ∧ obstacle.error.root = obstacle.root ∧
        obstacle.error.location? = obstacle.token?.bind Token.location := by
  constructor
  · obtain ⟨⟨result, last⟩, hresult, houtcome⟩ :=
      (settled grammar ops source (tokens.length + 1)).expression rbp (Nat.lt_succ_self _)
        ⟨huses, hreads, hholds⟩
    refine ⟨result, last, hresult, fun error => ?_⟩
    cases houtcome with
    | stuck hstuck =>
        rw [hstuck []]
        constructor
        · rintro ⟨⟩
          exact ⟨_, rfl, rfl⟩
        · rintro ⟨_, ⟨⟩, rfl⟩
          rfl
    | leaves hrest hended =>
        rw [hrest [], hended]
        constructor
        · rintro ⟨⟩
        · rintro ⟨_, ⟨⟩, -⟩
  · intro obstacle hmet
    exact ⟨(Obstacle.foundIn ops tokens).1 _ _ _ hmet, obstacle.root_error,
      obstacle.location?_error⟩

/-- In `x * - x )` the bracket closes the negation and the product, but at -1 it binds the whole
and is refused; in `x * -` an operand is missing. -/
theorem expression_fails_iff_obstacle_arithmetic :
    let grammar : Grammar Unit Unit TokenList := fun _ => Table.ofOperators Operators.arithmetic
    let refused : List Token := [.inColumn "x" 1, .inColumn "*" 2, .inColumn "-" 3,
      .inColumn "x" 4, .inColumn ")" 5]
    let short : List Token := [.inColumn "x" 1, .inColumn "*" 2, .inColumn "-" 3]
    (∃ error last, Evaluates grammar (-1) (new () ⟨refused⟩) (.error error, last) ∧
      error.root = .unexpectedToken ")" ∧
      error.location? = some (.file ⟨"line", ⟨1, 5⟩, ⟨1, 6⟩⟩)) ∧
    ∃ error last, Evaluates grammar 0 (new () ⟨short⟩) (.error error, last) ∧
      error.root = .expectedToken ∧
      error.location? = some (.file ⟨"line", ⟨1, 3⟩, ⟨1, 4⟩⟩) := by
  intro grammar refused short
  have huses : ∀ input, (new () ⟨input⟩ : Parser Unit Unit TokenList).Uses grammar fun kind =>
      Operators.arithmetic.lookup kind := fun input => ⟨_, rfl, Table.follows_ofOperators _⟩
  constructor
  · obtain ⟨⟨result, last, hresult, hfails⟩, hobstacle⟩ :=
      expression_fails_iff_obstacle (-1) (huses refused) (reads_new () (TokenList.gives refused))
        (by decide : ∀ token ∈ refused, (Source.file "line").Holds token.location)
    have hmet : Operators.atOperand (fun kind => Operators.arithmetic.lookup kind) [-1] none
        refused = some (.unexpected (.inColumn ")" 5)) := by rfl
    obtain ⟨-, hroot, hlocation⟩ := hobstacle _ hmet
    have herror := (hfails _).mpr ⟨_, hmet, rfl⟩
    exact ⟨_, last, herror ▸ hresult, hroot, hlocation⟩
  · obtain ⟨⟨result, last, hresult, hfails⟩, hobstacle⟩ :=
      expression_fails_iff_obstacle 0 (huses short) (reads_new () (TokenList.gives short))
        (by decide : ∀ token ∈ short, (Source.file "line").Holds token.location)
    have hmet : Operators.atOperand (fun kind => Operators.arithmetic.lookup kind) [0] none
        short = some (.missing (some (.inColumn "-" 3))) := by rfl
    obtain ⟨-, hroot, hlocation⟩ := hobstacle _ hmet
    have herror := (hfails _).mpr ⟨_, hmet, rfl⟩
    exact ⟨_, last, herror ▸ hresult, hroot, hlocation⟩

end Parser

end Precedence
