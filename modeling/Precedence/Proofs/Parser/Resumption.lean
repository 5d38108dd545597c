import Precedence.Proofs.Parser.Fuel
import Precedence.Proofs.Parser.Input
import Precedence.Proofs.Parser.ReadyMade

/-!
# Binding powers compose

A higher binding power only makes an expression stop earlier.  Where it stops, a token has been
pushed back or the input is at its end, and asking again from there is as if nobody had asked
before.  So going on at the lower power comes to what the lower power alone comes to, whatever the
callbacks of the grammar do.
-/

namespace Precedence.Parser

variable {A T τ : Type} [TokenStream τ] {grammar : Grammar A T τ} {rbp low high : Int}
variable {left : Node} {parser next : Parser A T τ} {token : Token}
variable {stopped result : Except Error Node × Parser A T τ}

/-- What comes of going on at `rbp` from where an expression has stopped.  There is no going on
from an error. -/
inductive Resumes (grammar : Grammar A T τ) (rbp : Int) :
    Except Error Node × Parser A T τ → Except Error Node × Parser A T τ → Prop
  | failed {error : Error} {last : Parser A T τ} :
      Resumes grammar rbp (.error error, last) (.error error, last)
  | continued {left : Node} {last : Parser A T τ} {result : Except Error Node × Parser A T τ}
      (hloop : Continues grammar rbp left last result) :
      Resumes grammar rbp (.ok left, last) result

theorem resumes_of_resume {fuel : Nat} (hresume : resume grammar fuel rbp stopped = some result) :
    Resumes grammar rbp stopped result := by
  obtain ⟨error | left, last⟩ := stopped
  · cases hresume
    exact .failed
  · exact .continued ⟨fuel, hresume⟩

theorem Resumes.continues (hresumes : Resumes grammar rbp (.ok left, parser) result) :
    Continues grammar rbp left parser result := by
  cases hresumes with
  | continued hloop => exact hloop

/-- The loop over the operators comes to the same from where it has stopped. -/
theorem operators_again {between : Parser A T τ} (hnext : parser.nextToken = between.nextToken)
    (fuel : Nat) :
    operators grammar fuel rbp left between = operators grammar fuel rbp left parser := by
  cases fuel with
  | zero => rfl
  | succ fuel => rw [operators, operators, hnext]

/-- At the end of the input the loop finds the end again. -/
theorem operators_at_end (hnext : parser.nextToken = (none, next)) (fuel : Nat) :
    operators grammar fuel rbp left next = operators grammar fuel rbp left parser :=
  operators_again (by rw [hnext, nextToken_of_none hnext]) fuel

/-- The loop takes a token that was pushed back as if it had not been taken before. -/
theorem operators_pushBack (hnext : parser.nextToken = (some token, next)) (fuel : Nat) :
    operators grammar fuel rbp left (next.pushBack token) =
      operators grammar fuel rbp left parser :=
  operators_again (by rw [hnext, nextToken_pushBack hnext]) fuel

omit [TokenStream τ] in
/-- A token that binds tightly enough for the higher power does the same at the lower one. -/
theorem following_of_le (hle : low ≤ high) {left : Node} {token : Token} {next : Parser A T τ}
    (hbinds : next.following grammar high left token ≠ .ok none) :
    next.following grammar low left token = next.following grammar high left token := by
  rw [following, following] at *
  cases hentry : next.entry grammar token with
  | error error => rfl
  | ok entry =>
      simp only [hentry] at hbinds ⊢
      have hhigh : ¬ entry.power ≤ high := fun hweak => hbinds (if_pos hweak)
      rw [if_neg hhigh, if_neg (by omega)]

section Programs

variable {program : Parse (Parser A T τ) Node} {given : Except Error Node × Parser A T τ}

/-- A program and what goes on from it have results for one amount of fuel if each has its own. -/
theorem exists_bind_iff :
    (∃ fuel, (program.run.run (powerOf grammar) (expression grammar fuel)
        (statement grammar fuel) next).bind (resume grammar fuel rbp) = some result) ↔
      ∃ given, Returns grammar program.run next given ∧ Resumes grammar rbp given result := by
  constructor
  · rintro ⟨fuel, hbind⟩
    obtain ⟨given, hrun, hresume⟩ := Option.bind_eq_some_iff.mp hbind
    exact ⟨given, ⟨fuel, hrun⟩, resumes_of_resume hresume⟩
  · rintro ⟨given, ⟨fuel, hrun⟩, hresumes⟩
    cases hresumes with
    | failed =>
        refine ⟨fuel, ?_⟩
        rw [hrun]
        rfl
    | continued hloop =>
        obtain ⟨fuel', hloop⟩ := hloop
        refine ⟨max fuel fuel', ?_⟩
        rw [run_fuel_le (Nat.le_max_left ..) hrun]
        exact operators_fuel_le (Nat.le_max_right ..) hloop

theorem continues_following (hnext : parser.nextToken = (some token, next))
    (hfollowing : next.following grammar rbp left token = .ok (some program))
    (hreturns : Returns grammar program.run next given)
    (hresumes : Resumes grammar rbp given result) :
    Continues grammar rbp left parser result := by
  obtain ⟨fuel, hbind⟩ := exists_bind_iff.mpr ⟨given, hreturns, hresumes⟩
  exact ⟨fuel + 1, (operators_following fuel hnext hfollowing).trans hbind⟩

theorem evaluates_starting_iff (hnext : parser.nextToken = (some token, next))
    (hstarting : next.starting grammar Entry.first token = .ok program) :
    Evaluates grammar rbp parser result ↔
      ∃ given, Returns grammar program.run next given ∧ Resumes grammar rbp given result := by
  rw [← exists_bind_iff]
  constructor
  · rintro ⟨_ | fuel, hrun⟩
    · rw [expression] at hrun
      cases hrun
    · exact ⟨fuel, (expression_starting fuel hnext hstarting).symm.trans hrun⟩
  · rintro ⟨fuel, hbind⟩
    exact ⟨fuel + 1, (expression_starting fuel hnext hstarting).trans hbind⟩

end Programs

/-- What the loop comes to at the lower power, it also comes to by stopping at the higher power
and going on from there. -/
def Splits (grammar : Grammar A T τ) (low high : Int) (fuel : Nat) : Prop :=
  ∀ (left : Node) (parser : Parser A T τ) (result : Except Error Node × Parser A T τ),
    operators grammar fuel low left parser = some result →
      ∃ stopped, Continues grammar high left parser stopped ∧ Resumes grammar low stopped result

/-- What the loop comes to by stopping at the higher power and going on from there, it also comes
to at the lower power. -/
def Joins (grammar : Grammar A T τ) (low high : Int) (fuel : Nat) : Prop :=
  ∀ (left : Node) (parser : Parser A T τ) (stopped result : Except Error Node × Parser A T τ),
    operators grammar fuel high left parser = some stopped → Resumes grammar low stopped result →
      Continues grammar low left parser result

section Given

variable {fuel : Nat} {given : Except Error Node × Parser A T τ}

theorem Splits.resumes (hsplits : Splits grammar low high fuel)
    (hresume : resume grammar fuel low given = some result) :
    ∃ stopped, Resumes grammar high given stopped ∧ Resumes grammar low stopped result := by
  obtain ⟨error | left, parser⟩ := given
  · cases hresume
    exact ⟨_, .failed, .failed⟩
  · obtain ⟨stopped, hhigh, hlow⟩ := hsplits left parser result hresume
    exact ⟨stopped, .continued hhigh, hlow⟩

theorem Joins.resumes (hjoins : Joins grammar low high fuel)
    (hresume : resume grammar fuel high given = some stopped)
    (hresumes : Resumes grammar low stopped result) : Resumes grammar low given result := by
  obtain ⟨error | left, parser⟩ := given
  · cases hresume
    exact hresumes
  · exact .continued (hjoins left parser stopped result hresume hresumes)

end Given

theorem splits_succ (hle : low ≤ high) {fuel : Nat} (hsplits : Splits grammar low high fuel) :
    Splits grammar low high (fuel + 1) := by
  intro left parser result hrun
  rcases hnext : parser.nextToken with ⟨_ | token, next⟩
  · rw [← operators_at_end hnext] at hrun
    exact ⟨_, ⟨fuel + 1, operators_none fuel hnext⟩, .continued ⟨fuel + 1, hrun⟩⟩
  rcases hfollowing : next.following grammar high left token with error | _ | program
  · have hlower := (following_of_le hle (by rw [hfollowing]; nofun)).trans hfollowing
    rw [operators_error fuel hnext hlower] at hrun
    cases hrun
    exact ⟨_, ⟨fuel + 1, operators_error fuel hnext hfollowing⟩, .failed⟩
  · -- The token is too weak for the higher power and is taken again.
    rw [← operators_pushBack hnext] at hrun
    exact ⟨_, ⟨fuel + 1, operators_stop fuel hnext hfollowing⟩, .continued ⟨fuel + 1, hrun⟩⟩
  · have hlower := (following_of_le hle (by rw [hfollowing]; nofun)).trans hfollowing
    rw [operators_following fuel hnext hlower] at hrun
    obtain ⟨given, hgiven, hresume⟩ := Option.bind_eq_some_iff.mp hrun
    obtain ⟨stopped, hhigh, hlow⟩ := hsplits.resumes hresume
    exact ⟨stopped, continues_following hnext hfollowing ⟨fuel, hgiven⟩ hhigh, hlow⟩

theorem joins_succ (hle : low ≤ high) {fuel : Nat} (hjoins : Joins grammar low high fuel) :
    Joins grammar low high (fuel + 1) := by
  intro left parser stopped result hrun hresumes
  rcases hnext : parser.nextToken with ⟨_ | token, next⟩
  · rw [operators_none fuel hnext] at hrun
    cases hrun
    obtain ⟨fuel', hloop⟩ := hresumes.continues
    exact ⟨fuel', (operators_at_end hnext fuel').symm.trans hloop⟩
  rcases hfollowing : next.following grammar high left token with error | _ | program
  · have hlower := (following_of_le hle (by rw [hfollowing]; nofun)).trans hfollowing
    rw [operators_error fuel hnext hfollowing] at hrun
    cases hrun
    cases hresumes
    exact ⟨fuel + 1, operators_error fuel hnext hlower⟩
  · rw [operators_stop fuel hnext hfollowing] at hrun
    cases hrun
    obtain ⟨fuel', hloop⟩ := hresumes.continues
    exact ⟨fuel', (operators_pushBack hnext fuel').symm.trans hloop⟩
  · have hlower := (following_of_le hle (by rw [hfollowing]; nofun)).trans hfollowing
    rw [operators_following fuel hnext hfollowing] at hrun
    obtain ⟨given, hgiven, hresume⟩ := Option.bind_eq_some_iff.mp hrun
    exact continues_following hnext hlower ⟨fuel, hgiven⟩ (hjoins.resumes hresume hresumes)

theorem splits (hle : low ≤ high) (fuel : Nat) : Splits grammar (τ := τ) low high fuel := by
  induction fuel with
  | zero =>
      intro left parser result hrun
      rw [operators] at hrun
      cases hrun
  | succ fuel ih => exact splits_succ hle ih

theorem joins (hle : low ≤ high) (fuel : Nat) : Joins grammar (τ := τ) low high fuel := by
  induction fuel with
  | zero =>
      intro left parser stopped result hrun
      rw [operators] at hrun
      cases hrun
  | succ fuel ih => exact joins_succ hle ih

theorem resumes_iff (hle : low ≤ high) {given : Except Error Node × Parser A T τ} :
    Resumes grammar low given result ↔
      ∃ stopped, Resumes grammar high given stopped ∧ Resumes grammar low stopped result := by
  obtain ⟨error | left, between⟩ := given
  · constructor
    · intro hresumes
      exact ⟨_, .failed, hresumes⟩
    · rintro ⟨stopped, hhigh, hlow⟩
      cases hhigh
      exact hlow
  · constructor
    · intro hresumes
      obtain ⟨fuel, hloop⟩ := hresumes.continues
      obtain ⟨stopped, hhigh, hlow⟩ := splits hle fuel left between result hloop
      exact ⟨stopped, .continued hhigh, hlow⟩
    · rintro ⟨stopped, hhigh, hlow⟩
      obtain ⟨fuel, hloop⟩ := hhigh.continues
      exact .continued (joins hle fuel left between stopped result hloop hlow)

/-- An expression that fails before it has an operand fails at every power. -/
theorem evaluates_iff_of_error {error : Error} {last : Parser A T τ}
    (herror : ∀ fuel rbp, expression grammar (fuel + 1) rbp parser = some (.error error, last)) :
    Evaluates grammar rbp parser result ↔ result = (.error error, last) := by
  constructor
  · rintro ⟨_ | fuel, hrun⟩
    · rw [expression] at hrun
      cases hrun
    · rw [herror] at hrun
      exact (Option.some.inj hrun).symm
  · rintro rfl
    exact ⟨1, herror 0 rbp⟩

theorem evaluates_resumes_of_error {error : Error} {last : Parser A T τ}
    (herror : ∀ fuel rbp, expression grammar (fuel + 1) rbp parser = some (.error error, last)) :
    Evaluates grammar low parser result ↔
      ∃ stopped, Evaluates grammar high parser stopped ∧ Resumes grammar low stopped result := by
  simp only [evaluates_iff_of_error herror]
  constructor
  · rintro rfl
    exact ⟨_, rfl, .failed⟩
  · rintro ⟨_, rfl, hresumes⟩
    cases hresumes
    rfl

/-- An expression at the lower power has exactly the result that comes of an expression at the
higher power and of going on at the lower one: the same node or error, and the same parser. -/
theorem evaluates_iff_resumes (grammar : Grammar A T τ) (hle : low ≤ high)
    (parser : Parser A T τ) (result : Except Error Node × Parser A T τ) :
    Evaluates grammar low parser result ↔
      ∃ stopped, Evaluates grammar high parser stopped ∧ Resumes grammar low stopped result := by
  rcases hnext : parser.nextToken with ⟨_ | token, next⟩
  · exact evaluates_resumes_of_error fun fuel _ => expression_none fuel hnext
  cases hstarting : next.starting grammar Entry.first token with
  | error error =>
      exact evaluates_resumes_of_error fun fuel _ => expression_error fuel hnext hstarting
  | ok program =>
      calc Evaluates grammar low parser result
        _ ↔ ∃ given, Returns grammar program.run next given ∧ Resumes grammar low given result :=
          evaluates_starting_iff hnext hstarting
        _ ↔ ∃ given, Returns grammar program.run next given ∧
              ∃ stopped, Resumes grammar high given stopped ∧
                Resumes grammar low stopped result := by
          simp only [← resumes_iff hle]
        _ ↔ ∃ stopped, (∃ given, Returns grammar program.run next given ∧
              Resumes grammar high given stopped) ∧ Resumes grammar low stopped result := by
          constructor
          · rintro ⟨given, hreturns, stopped, hhigh, hlow⟩
            exact ⟨stopped, ⟨given, hreturns, hhigh⟩, hlow⟩
          · rintro ⟨stopped, ⟨given, hreturns, hhigh⟩, hlow⟩
            exact ⟨given, hreturns, stopped, hhigh, hlow⟩
        _ ↔ ∃ stopped, Evaluates grammar high parser stopped ∧
              Resumes grammar low stopped result := by
          simp only [evaluates_starting_iff hnext hstarting]

/-- In `x * x - x` the higher power stops before the difference, and the lower one goes on. -/
theorem evaluates_iff_resumes_difference :
    let grammar : Grammar Unit Unit TokenList := fun _ => Table.ofOperators Operators.arithmetic
    let tokens : List Token := ["x", "*", "x", "-", "x"].map fun kind => { kind }
    (5 : Int) ≤ 15 ∧ ∃ tree last, Evaluates grammar 5 (new () ⟨tokens⟩) (.ok tree, last) ∧
      ∃ stopped, Evaluates grammar 15 (new () ⟨tokens⟩) stopped ∧
        Resumes grammar 5 stopped (.ok tree, last) := by
  intro grammar tokens
  obtain ⟨tree, last, htree⟩ : ∃ tree last,
      expression grammar 6 5 (new () ⟨tokens⟩) = some (.ok tree, last) := ⟨_, _, rfl⟩
  have hresumes :=
    (evaluates_iff_resumes grammar (by decide : (5 : Int) ≤ 15) (new () ⟨tokens⟩) _).mp ⟨6, htree⟩
  exact ⟨by decide, tree, last, ⟨6, htree⟩, hresumes⟩

end Precedence.Parser
