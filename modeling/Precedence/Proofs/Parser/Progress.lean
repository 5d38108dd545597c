import Precedence.Proofs.Parser.Input
import Precedence.Proofs.Parser.ReadyMade

/-!
# Progress

An expression takes a token before anything else, and what goes on after it reads shorter input.
So under tables of ready-made programs, which take tokens only through expressions, the length of
the input bounds both the nesting of expressions and the number of operators in each, however the
powers compare.  A token that is pushed back counts again, but only where the loop that pushed it
back has ended.
-/

namespace Precedence

variable {S α β : Type}

/-- A program that neither changes the state nor asks for an expression or a statement. -/
inductive Program.Still : Program S α → Prop
  | done (result : α) : Still (.done result)
  | look {next : S → Program S α} (hnext : ∀ s, (next s).Still) : Still (.look next)
  | powerOf {token : Token} {next : Except Error Int → Program S α}
      (hnext : ∀ result, (next result).Still) : Still (.powerOf token next)

/-- A program that changes the state only through expressions. -/
inductive Program.Frugal : Program S α → Prop
  | done (result : α) : Frugal (.done result)
  | look {next : S → Program S α} (hnext : ∀ s, (next s).Frugal) : Frugal (.look next)
  | powerOf {token : Token} {next : Except Error Int → Program S α}
      (hnext : ∀ result, (next result).Frugal) : Frugal (.powerOf token next)
  | expression {rbp : Int} {next : Except Error Node → Program S α}
      (hnext : ∀ result, (next result).Frugal) : Frugal (.expression rbp next)

namespace Program

theorem Still.frugal {program : Program S α} (hstill : program.Still) : program.Frugal := by
  induction hstill with
  | done result => exact .done result
  | look _ ih => exact .look ih
  | powerOf _ ih => exact .powerOf ih

/-- What expressions keep, a frugal program keeps, and it has a result if they have. -/
theorem Frugal.run_keeps {program : Program S α} (hfrugal : program.Frugal)
    {powerOf : Token → S → Except Error Int}
    {expression : Int → S → Option (Except Error Node × S)}
    {statement : S → Option (Except Error (Option Node) × S)} {Keeps : S → Prop}
    (hexpression : ∀ rbp s, Keeps s → ∃ result s', expression rbp s = some (result, s') ∧ Keeps s')
    {s : S} (hs : Keeps s) :
    ∃ given s', program.run powerOf expression statement s = some (given, s') ∧ Keeps s' := by
  induction hfrugal generalizing s with
  | done result => exact ⟨result, s, rfl, hs⟩
  | look _ ih => exact ih s hs
  | @powerOf token _ _ ih => exact ih (powerOf token s) hs
  | @expression rbp _ _ ih =>
      obtain ⟨result, s', hrun, hs'⟩ := hexpression rbp s hs
      rw [run, hrun]
      exact ih result hs'

end Program

namespace Parse

/-- A ready-made program for the start of an operand, whose node is built without the parser. -/
inductive Opens : (Token → Parse S Node) → Prop
  | literal : Opens literal
  | prefixOp {build : Token → Node → Parse S Node} (power : Int)
      (hbuild : ∀ op operand, (build op operand).run.Still) : Opens (prefixOp build power)

/-- A ready-made program for what follows an operand, whose node is built without the parser. -/
inductive Groups : (Node → Token → Parse S Node) → Prop
  | infixLeft {build : Node → Node → Token → Parse S Node}
      (hbuild : ∀ left right op, (build left right op).run.Still) : Groups (infixLeft build)
  | infixRight {build : Node → Node → Token → Parse S Node}
      (hbuild : ∀ left right op, (build left right op).run.Still) : Groups (infixRight build)

/-- An expression and what is made of its node, unless it fails. -/
theorem frugal_expression {rbp : Int} {build : Node → Parse S α}
    (hbuild : ∀ operand, (build operand).run.Still) :
    (do build (← expression rbp) : Parse S α).run.Frugal := by
  refine .expression fun result => ?_
  cases result with
  | error error => exact .done _
  | ok operand => exact (hbuild operand).frugal

theorem frugal_infix {op : Token} (rbp : Int → Int) {build : Node → Parse S α}
    (hbuild : ∀ operand, (build operand).run.Still) :
    (do build (← expression (rbp (← powerOf op))) : Parse S α).run.Frugal := by
  refine .powerOf fun result => ?_
  cases result with
  | error error => exact .done _
  | ok power => exact frugal_expression hbuild

theorem Opens.frugal {first : Token → Parse S Node} (hfirst : Opens first) (token : Token) :
    (first token).run.Frugal := by
  cases hfirst with
  | literal => exact .done _
  | prefixOp power hbuild => exact frugal_expression (hbuild token)

theorem Groups.frugal {next : Node → Token → Parse S Node} (hnext : Groups next) (left : Node)
    (op : Token) : (next left op).run.Frugal := by
  cases hnext with
  | infixLeft hbuild => exact frugal_infix (fun power => power) fun right => hbuild left right op
  | infixRight hbuild => exact frugal_infix (· - 1) fun right => hbuild left right op

end Parse

/-- What the entry does with expressions is ready-made; what it does with a statement is left
open. -/
structure Entry.ReadyMade (entry : Entry S) : Prop where
  first : ∀ first ∈ entry.first, Parse.Opens first
  next : ∀ next ∈ entry.next, Parse.Groups next

def Table.ReadyMade (table : Table S) : Prop :=
  ∀ kind entry, table.get? kind = some entry → entry.ReadyMade

theorem Table.mem_of_get? {table : Table S} {kind : String} {entry : Entry S}
    (hget : table.get? kind = some entry) : (kind, entry) ∈ table.entries := by
  obtain ⟨entries⟩ := table
  induction entries with
  | nil => cases hget
  | cons head entries ih =>
      obtain ⟨name, first⟩ := head
      rw [get?, List.lookup_cons] at hget
      cases hkind : kind == name with
      | true =>
          rw [hkind] at hget
          cases hget
          rw [eq_of_beq hkind]
          exact List.mem_cons_self
      | false =>
          rw [hkind] at hget
          exact List.mem_cons_of_mem _ (ih hget)

/-- Operators of one negative power, a prefix minus that takes a weaker operand than an infix one,
and a statement that starts with `print`. -/
def Table.printing : Table S where
  entries := [
    ("x", { power := 0, first := some Parse.literal }),
    ("-", { power := -2, first := some (Parse.prefixOp Parse.unaryNode (-3)),
            next := some (Parse.infixLeft Parse.binaryNode) }),
    ("^", { power := -2, next := some (Parse.infixRight Parse.binaryNode) }),
    ("print", { power := -9, statement := some fun _ => Parse.expression (-9) })]

theorem Table.printing_readyMade : (printing : Table S).ReadyMade := by
  intro kind entry hget
  have hmem := mem_of_get? hget
  simp only [printing, List.mem_cons, Prod.mk.injEq, List.not_mem_nil, or_false] at hmem
  obtain ⟨-, rfl⟩ | ⟨-, rfl⟩ | ⟨-, rfl⟩ | ⟨-, rfl⟩ := hmem
  · refine ⟨?_, nofun⟩
    rintro _ ⟨⟩
    exact .literal
  · constructor
    · rintro _ ⟨⟩
      exact .prefixOp (-3) fun _ _ => .done _
    · rintro _ ⟨⟩
      exact .infixLeft fun _ _ _ => .done _
  · refine ⟨nofun, ?_⟩
    rintro _ ⟨⟩
    exact .infixRight fun _ _ _ => .done _
  · exact ⟨nofun, nofun⟩

theorem Table.printing_frugal (kind : String) (entry : Entry S)
    (start : Token → Parse S Node) (hget : printing.get? kind = some entry)
    (hstart : entry.statement = some start) (token : Token) : (start token).run.Frugal := by
  have hmem := mem_of_get? hget
  simp only [printing, List.mem_cons, Prod.mk.injEq, List.not_mem_nil, or_false] at hmem
  obtain ⟨-, rfl⟩ | ⟨-, rfl⟩ | ⟨-, rfl⟩ | ⟨-, rfl⟩ := hmem
  · cases hstart
  · cases hstart
  · cases hstart
  · cases hstart
    exact .expression fun _ => .done _

namespace Parser

variable {A T τ : Type} {grammar : Grammar A T τ} {tables : Stack T}
variable {parser next : Parser A T τ} {token : Token} {program : Parse (Parser A T τ) Node}

theorem exists_of_entry {entry : Entry (Parser A T τ)}
    (hentry : parser.entry grammar token = .ok entry) :
    ∃ name ∈ parser.tables.top?, (grammar name).get? token.kind = some entry := by
  rw [Parser.entry, table] at hentry
  cases htop : parser.tables.top? with
  | none => rw [htop] at hentry; cases hentry
  | some name =>
      simp only [htop] at hentry
      cases hget : (grammar name).get? token.kind with
      | none => rw [hget] at hentry; cases hentry
      | some found =>
          rw [hget] at hentry
          cases hentry
          exact ⟨name, rfl, hget⟩

theorem exists_of_starting
    {place : Entry (Parser A T τ) → Option (Token → Parse (Parser A T τ) Node)}
    (hstarting : parser.starting grammar place token = .ok program) :
    ∃ name ∈ parser.tables.top?, ∃ entry start, (grammar name).get? token.kind = some entry ∧
      place entry = some start ∧ program = start token := by
  rw [starting] at hstarting
  cases hentry : parser.entry grammar token with
  | error error => rw [hentry] at hstarting; cases hstarting
  | ok entry =>
      simp only [hentry] at hstarting
      cases hstart : place entry with
      | none => rw [hstart] at hstarting; cases hstarting
      | some start =>
          rw [hstart] at hstarting
          cases hstarting
          obtain ⟨name, htop, hget⟩ := exists_of_entry hentry
          exact ⟨name, htop, entry, start, hget, hstart, rfl⟩

theorem exists_of_following {rbp : Int} {left : Node}
    (hfollowing : parser.following grammar rbp left token = .ok (some program)) :
    ∃ name ∈ parser.tables.top?, ∃ entry next, (grammar name).get? token.kind = some entry ∧
      entry.next = some next ∧ program = next left token := by
  rw [following] at hfollowing
  cases hentry : parser.entry grammar token with
  | error error => rw [hentry] at hfollowing; cases hfollowing
  | ok entry =>
      simp only [hentry] at hfollowing
      split at hfollowing
      · cases hfollowing
      cases hnext : entry.next with
      | none => rw [hnext] at hfollowing; cases hfollowing
      | some next =>
          rw [hnext] at hfollowing
          cases hfollowing
          obtain ⟨name, htop, hget⟩ := exists_of_entry hentry
          exact ⟨name, htop, entry, next, hget, hnext, rfl⟩

section Tables

variable (hready : ∀ name ∈ tables.top?, (grammar name).ReadyMade)
variable (htables : parser.tables = tables)
include hready htables

theorem frugal_of_starting
    (hstarting : parser.starting grammar Entry.first token = .ok program) :
    program.run.Frugal := by
  obtain ⟨name, htop, entry, first, hget, hfirst, rfl⟩ := exists_of_starting hstarting
  exact ((hready name (htables ▸ htop) _ entry hget).first first hfirst).frugal token

theorem frugal_of_following {rbp : Int} {left : Node}
    (hfollowing : parser.following grammar rbp left token = .ok (some program)) :
    program.run.Frugal := by
  obtain ⟨name, htop, entry, next, hget, hnext, rfl⟩ := exists_of_following hfollowing
  exact ((hready name (htables ▸ htop) _ entry hget).next next hnext).frugal left token

end Tables

variable [TokenStream τ]

/-- The stack of tables is the given one, and at most so many tokens are left. -/
structure AtMost (tables : Stack T) (bound : Nat) (parser : Parser A T τ) : Prop where
  tables_eq : parser.tables = tables
  reads : ∃ tokens, parser.Reads tokens ∧ tokens.length ≤ bound

namespace AtMost

variable {bound : Nat}

theorem mono {bound' : Nat} (hmost : parser.AtMost tables bound) (hle : bound ≤ bound') :
    parser.AtMost tables bound' := by
  obtain ⟨tokens, hreads, hlength⟩ := hmost.reads
  exact ⟨hmost.tables_eq, tokens, hreads, Nat.le_trans hlength hle⟩

theorem pushBack (hmost : parser.AtMost tables bound) (token : Token) :
    (parser.pushBack token).AtMost tables (bound + 1) := by
  obtain ⟨tokens, hreads, hlength⟩ := hmost.reads
  exact ⟨hmost.tables_eq, _, reads_pushBack token hreads, Nat.succ_le_succ hlength⟩

/-- Either no token is left, or taking one leaves less. -/
theorem nextToken_cases (hmost : parser.AtMost tables bound) :
    (∃ next, parser.nextToken = (none, next) ∧ next.AtMost tables bound) ∨
      ∃ token next fewer, parser.nextToken = (some token, next) ∧ bound = fewer + 1 ∧
        next.AtMost tables fewer := by
  obtain ⟨htables, tokens, hreads, hlength⟩ := hmost
  cases tokens with
  | nil =>
      obtain ⟨next, hnext, hrest, hkept⟩ := nextToken_nil hreads
      exact .inl ⟨next, hnext, hkept.trans htables, [], hrest, hlength⟩
  | cons token tokens =>
      obtain ⟨next, hnext, hrest, hkept⟩ := nextToken_cons hreads
      obtain ⟨fewer, rfl⟩ := Nat.exists_eq_add_one.mpr (Nat.lt_of_lt_of_le (Nat.succ_pos _) hlength)
      exact .inr ⟨token, next, fewer, hnext, rfl, hkept.trans htables, tokens, hrest,
        Nat.le_of_succ_le_succ hlength⟩

end AtMost

variable (grammar) in
/-- With so much fuel, an expression has a result and leaves less input if it succeeds. -/
def ExpressionFinishes (tables : Stack T) (fuel : Nat) : Prop :=
  ∀ (rbp : Int) (bound : Nat) (parser : Parser A T τ), bound < fuel →
    parser.AtMost tables bound → ∃ result last,
      expression grammar fuel rbp parser = some (result, last) ∧ last.AtMost tables bound ∧
        ∀ node, result = .ok node → ∃ fewer < bound, last.AtMost tables fewer

variable (grammar) in
/-- With so much fuel, the operators after an operand are gone through to an end. -/
def OperatorsFinish (tables : Stack T) (fuel : Nat) : Prop :=
  ∀ (rbp : Int) (left : Node) (bound : Nat) (parser : Parser A T τ), bound < fuel →
    parser.AtMost tables bound → ∃ result last,
      operators grammar fuel rbp left parser = some (result, last) ∧ last.AtMost tables bound

section Steps

variable {fuel bound : Nat}

/-- A frugal program finishes where expressions do. -/
theorem ExpressionFinishes.run {α : Type} {program : Program (Parser A T τ) α}
    (hexpression : ExpressionFinishes grammar tables fuel) (hfrugal : program.Frugal)
    (hbound : bound < fuel) (hmost : next.AtMost tables bound) :
    ∃ given last, program.run (powerOf grammar) (expression grammar fuel)
      (statement grammar fuel) next = some (given, last) ∧ last.AtMost tables bound := by
  refine hfrugal.run_keeps (fun rbp parser hparser => ?_) hmost
  obtain ⟨result, last, hrun, hlast, -⟩ := hexpression rbp bound parser hbound hparser
  exact ⟨result, last, hrun, hlast⟩

/-- So does what goes on from it, where operators do. -/
theorem finishes_of_frugal (hfrugal : program.run.Frugal)
    (hexpression : ExpressionFinishes grammar tables (τ := τ) fuel)
    (hoperators : OperatorsFinish grammar tables (τ := τ) fuel) (rbp : Int) (hbound : bound < fuel)
    (hmost : next.AtMost tables bound) :
    ∃ result last, (program.run.run (powerOf grammar) (expression grammar fuel)
      (statement grammar fuel) next).bind (resume grammar fuel rbp) = some (result, last) ∧
        last.AtMost tables bound := by
  obtain ⟨given, between, hrun, hbetween⟩ := hexpression.run hfrugal hbound hmost
  rw [hrun]
  cases given with
  | error error => exact ⟨.error error, between, rfl, hbetween⟩
  | ok left => exact hoperators rbp left bound between hbound hbetween

variable (hready : ∀ name ∈ tables.top?, (grammar name).ReadyMade)
include hready

theorem expressionFinishes_succ (hexpression : ExpressionFinishes grammar tables (τ := τ) fuel)
    (hoperators : OperatorsFinish grammar tables (τ := τ) fuel) :
    ExpressionFinishes grammar tables (τ := τ) (fuel + 1) := by
  intro rbp bound parser hbound hmost
  obtain ⟨next, hnext, hrest⟩ | ⟨token, next, fewer, hnext, rfl, hrest⟩ := hmost.nextToken_cases
  · exact ⟨_, next, expression_none fuel hnext, hrest, nofun⟩
  cases hstarting : next.starting grammar Entry.first token with
  | error error =>
      exact ⟨_, next, expression_error fuel hnext hstarting, hrest.mono (Nat.le_succ _), nofun⟩
  | ok program =>
      have hfrugal := frugal_of_starting hready hrest.tables_eq hstarting
      obtain ⟨result, last, hrun, hlast⟩ :=
        finishes_of_frugal hfrugal hexpression hoperators rbp (by omega) hrest
      exact ⟨result, last, (expression_starting fuel hnext hstarting).trans hrun,
        hlast.mono (Nat.le_succ _), fun _ _ => ⟨fewer, Nat.lt_succ_self _, hlast⟩⟩

theorem operatorsFinish_succ (hexpression : ExpressionFinishes grammar tables (τ := τ) fuel)
    (hoperators : OperatorsFinish grammar tables (τ := τ) fuel) :
    OperatorsFinish grammar tables (τ := τ) (fuel + 1) := by
  intro rbp left bound parser hbound hmost
  obtain ⟨next, hnext, hrest⟩ | ⟨token, next, fewer, hnext, rfl, hrest⟩ := hmost.nextToken_cases
  · exact ⟨_, next, operators_none fuel hnext, hrest⟩
  rcases hfollowing : next.following grammar rbp left token with error | _ | program
  · exact ⟨_, next, operators_error fuel hnext hfollowing, hrest.mono (Nat.le_succ _)⟩
  · exact ⟨_, _, operators_stop fuel hnext hfollowing, hrest.pushBack token⟩
  · have hfrugal := frugal_of_following hready hrest.tables_eq hfollowing
    obtain ⟨result, last, hrun, hlast⟩ :=
      finishes_of_frugal hfrugal hexpression hoperators rbp (by omega) hrest
    exact ⟨result, last, (operators_following fuel hnext hfollowing).trans hrun,
      hlast.mono (Nat.le_succ _)⟩

theorem finishes (fuel : Nat) : ExpressionFinishes grammar tables (τ := τ) fuel ∧
    OperatorsFinish grammar tables (τ := τ) fuel := by
  induction fuel with
  | zero => exact ⟨nofun, nofun⟩
  | succ fuel ih =>
      exact ⟨expressionFinishes_succ hready ih.1 ih.2, operatorsFinish_succ hready ih.1 ih.2⟩

end Steps

/-- Wherever a token starts a statement, its program has a result and leaves no more input than
it found. -/
def StatementsFinish (grammar : Grammar A T τ) : Prop :=
  ∀ (parser : Parser A T τ) (token : Token) (program : Parse (Parser A T τ) Node)
    (tokens : List Token), parser.starting grammar Entry.statement token = .ok program →
      parser.Reads tokens → ∃ given last rest, Returns grammar program.run parser (given, last) ∧
        last.Reads rest ∧ rest.length ≤ tokens.length

section Statements

variable {tokens : List Token}

/-- Statements that take tokens only through expressions finish under ready-made tables. -/
theorem statementsFinish_of_frugal (hready : ∀ name, (grammar name).ReadyMade)
    (hfrugal : ∀ name kind entry start, (grammar name).get? kind = some entry →
      entry.statement = some start → ∀ token, (start token).run.Frugal) :
    StatementsFinish grammar := by
  intro parser token program tokens hstarting hreads
  obtain ⟨name, -, entry, start, hget, hstart, rfl⟩ := exists_of_starting hstarting
  have htables : ∀ name ∈ parser.tables.top?, (grammar name).ReadyMade := fun name _ => hready name
  have hexpression := (finishes htables (tokens.length + 1)).1
  obtain ⟨given, last, hrun, -, rest, hrest, hlength⟩ :=
    hexpression.run (hfrugal name _ entry start hget hstart token) (Nat.lt_succ_self _)
      ⟨rfl, tokens, hreads, Nat.le_refl _⟩
  exact ⟨given, last, rest, ⟨_, hrun⟩, hrest, hlength⟩

variable (hfinish : StatementsFinish grammar)
include hfinish

theorem statement_finishes (hreads : parser.Reads tokens) :
    ∃ fuel result last rest, statement grammar fuel parser = some (result, last) ∧
      last.Reads rest ∧ ∀ node, result = .ok (some node) → rest.length < tokens.length := by
  cases tokens with
  | nil =>
      obtain ⟨next, hnext, hrest, -⟩ := nextToken_nil hreads
      exact ⟨1, .ok none, next, [], statement_none 0 hnext, hrest, nofun⟩
  | cons token tokens =>
      obtain ⟨next, hnext, hrest, -⟩ := nextToken_cons hreads
      cases hstarting : next.starting grammar Entry.statement token with
      | error error =>
          exact ⟨1, .error error, next, tokens, statement_error 0 hnext hstarting, hrest, nofun⟩
      | ok program =>
          obtain ⟨given, last, rest, ⟨fuel, hrun⟩, hlast, hlength⟩ :=
            hfinish next token program tokens hstarting hrest
          refine ⟨fuel + 1, given.map some, last, rest, ?_, hlast,
            fun _ _ => Nat.lt_succ_of_le hlength⟩
          rw [statement_starting fuel hnext hstarting, hrun]
          rfl

/-- By induction on the length of the input: a statement that succeeds leaves less. -/
theorem statements_finish (hreads : parser.Reads tokens) :
    ∃ fuel result, statements grammar fuel parser = some result := by
  induction hlength : tokens.length using Nat.strongRecOn generalizing parser tokens with
  | _ length ih =>
  obtain ⟨fuel, result, last, rest, hrun, hlast, hless⟩ := statement_finishes hfinish hreads
  rcases result with error | _ | node
  · exact ⟨fuel + 1, (.error error, last), by rw [statements, hrun]⟩
  · exact ⟨fuel + 1, (.ok [], last), by rw [statements, hrun]⟩
  · obtain ⟨fuel', ⟨nodes, final⟩, hrest⟩ := ih _ (hlength ▸ hless node rfl) hlast rfl
    refine ⟨max fuel fuel' + 1, (nodes.map (node :: ·), final), ?_⟩
    rw [statements, statement_fuel_le (Nat.le_max_left ..) hrun]
    simp only [statements_fuel_le (Nat.le_max_right ..) hrest]

end Statements

/-- Under a table of ready-made programs, whatever its powers and however its nodes are built, an
expression comes to a result on every finite input.  It leaves less input if it succeeds and no
more if it fails.  Statements come to an end if the programs that start them do and leave no more
input than they find. -/
theorem ready_made_finish (grammar : Grammar A T τ) {parser : Parser A T τ} {tokens : List Token}
    (hreads : parser.Reads tokens) :
    ((∀ name ∈ parser.tables.top?, (grammar name).ReadyMade) → ∀ rbp, ∃ result last rest,
      Evaluates grammar rbp parser (result, last) ∧ last.Reads rest ∧
        (∀ node, result = .ok node → rest.length < tokens.length) ∧
        ∀ error, result = .error error → rest.length ≤ tokens.length) ∧
    (StatementsFinish grammar → ∃ fuel result, statements grammar fuel parser = some result) := by
  refine ⟨fun hready rbp => ?_, fun hfinish => statements_finish hfinish hreads⟩
  obtain ⟨result, last, hrun, hlast, hless⟩ := (finishes hready (tokens.length + 1)).1 rbp
    tokens.length parser (Nat.lt_succ_self _) ⟨rfl, tokens, hreads, Nat.le_refl _⟩
  cases result with
  | error error =>
      obtain ⟨-, rest, hrest, hlength⟩ := hlast
      exact ⟨.error error, last, rest, ⟨_, hrun⟩, hrest, nofun, fun _ _ => hlength⟩
  | ok node =>
      obtain ⟨fewer, hfewer, -, rest, hrest, hlength⟩ := hless node rfl
      exact ⟨.ok node, last, rest, ⟨_, hrun⟩, hrest,
        fun _ _ => Nat.lt_of_le_of_lt hlength hfewer, nofun⟩

/-- `x ^ - x - x`, as an expression and printed twice. -/
theorem ready_made_finish_printing :
    let grammar : Grammar Unit Unit TokenList := fun _ => .printing
    let tokens : List Token := ["x", "^", "-", "x", "-", "x"].map fun kind => { kind }
    let printed : List Token := { kind := "print" } :: tokens
    (∀ rbp, ∃ result last rest, Evaluates grammar rbp (new () ⟨tokens⟩) (result, last) ∧
      last.Reads rest ∧ (∀ node, result = .ok node → rest.length < tokens.length) ∧
        ∀ error, result = .error error → rest.length ≤ tokens.length) ∧
    ∃ fuel result, statements grammar fuel (new () ⟨printed ++ printed⟩) = some result := by
  intro grammar tokens printed
  have hreads : ∀ input, (new () ⟨input⟩ : Parser Unit Unit TokenList).Reads input :=
    fun input => reads_new () (TokenList.gives input)
  constructor
  · exact (ready_made_finish grammar (hreads tokens)).1 fun _ _ => Table.printing_readyMade
  · exact (ready_made_finish grammar (hreads (printed ++ printed))).2
      (statementsFinish_of_frugal (fun _ => Table.printing_readyMade)
        fun _ => Table.printing_frugal)

end Parser

end Precedence
