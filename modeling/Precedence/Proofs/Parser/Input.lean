import Precedence.Parser

/-!
# The input of a parser as one list

A parser whose streams all end reads a finite list of tokens: those pushed back, the latest first,
and then what each stream gives before its first none, from the top of the stream stack down.
Taking a token removes the head of that list and pushing one back puts it in front, whatever the
streams would give if they were asked again after a none.
-/

namespace Precedence

/-- The tokens that a stream gives before it first gives none. -/
inductive TokenStream.Gives {τ : Type} [TokenStream τ] : τ → List Token → Prop
  | done {stream stream' : τ} (hnext : next stream = (none, stream')) : Gives stream []
  | token {stream stream' : τ} {token : Token} {tokens : List Token}
      (hnext : next stream = (some token, stream')) (hrest : Gives stream' tokens) :
      Gives stream (token :: tokens)

/-- The tokens of a list of streams, each read up to its first none. -/
inductive TokenStream.GivesAll {τ : Type} [TokenStream τ] : List τ → List Token → Prop
  | nil : GivesAll [] []
  | cons {stream : τ} {streams : List τ} {tokens later : List Token}
      (hstream : Gives stream tokens) (hstreams : GivesAll streams later) :
      GivesAll (stream :: streams) (tokens ++ later)

theorem TokenList.gives (tokens : List Token) : TokenStream.Gives (TokenList.mk tokens) tokens := by
  induction tokens with
  | nil => exact .done rfl
  | cons token tokens ih => exact .token rfl ih

namespace Parser

open TokenStream

variable {A T τ : Type}

variable [TokenStream τ]

/-- The tokens that are still to be read. -/
def Reads (parser : Parser A T τ) (tokens : List Token) : Prop :=
  ∃ later, GivesAll parser.streams.items later ∧ tokens = parser.pushed.items ++ later

theorem reads_new (table : T) {source : τ} {tokens : List Token} (hsource : Gives source tokens) :
    (new table source : Parser A T τ).Reads tokens :=
  ⟨tokens ++ [], .cons hsource .nil, by simp [new]⟩

theorem reads_pushBack (token : Token) {parser : Parser A T τ} {tokens : List Token}
    (hreads : parser.Reads tokens) : (parser.pushBack token).Reads (token :: tokens) := by
  obtain ⟨later, hgives, rfl⟩ := hreads
  exact ⟨later, hgives, rfl⟩

theorem pull_cons {streams : List τ} {token : Token} {tokens : List Token}
    (hgives : GivesAll streams (token :: tokens)) :
    (pull streams).1 = some token ∧ GivesAll (pull streams).2 tokens := by
  generalize hall : token :: tokens = all at hgives
  induction hgives with
  | nil => exact absurd hall (List.cons_ne_nil _ _)
  | cons hstream hstreams ih =>
      cases hstream with
      | done hnext =>
          simp only [pull, hnext]
          exact ih hall
      | token hnext hrest =>
          obtain ⟨rfl, rfl⟩ := List.cons.inj hall
          simp only [pull, hnext]
          exact ⟨trivial, .cons hrest hstreams⟩

theorem pull_nil {streams : List τ} (hgives : GivesAll streams []) : pull streams = (none, []) := by
  generalize hall : ([] : List Token) = all at hgives
  induction hgives with
  | nil => rfl
  | cons hstream hstreams ih =>
      cases hstream with
      | done hnext =>
          simp only [pull, hnext]
          exact ih hall
      | token hnext hrest => exact absurd hall.symm (List.cons_ne_nil _ _)

theorem tables_nextToken (parser : Parser A T τ) :
    parser.nextToken.2.tables = parser.tables := by
  rw [nextToken]
  split <;> rfl

theorem current_nextToken (parser : Parser A T τ) :
    parser.nextToken.2.current = parser.nextToken.1 := by
  rw [nextToken]
  split <;> rfl

/-- A token that is pushed back is taken again. -/
theorem nextToken_pushBack {parser rest : Parser A T τ} {token : Token}
    (hnext : parser.nextToken = (some token, rest)) :
    (rest.pushBack token).nextToken = (some token, rest) := by
  have hcurrent : rest.current = some token := by
    have hlast := parser.current_nextToken
    rwa [hnext] at hlast
  change (some token, { rest with current := some token }) = (some token, rest)
  rw [← hcurrent]

theorem pull_of_none {streams : List τ} (hpull : (pull streams).1 = none) :
    pull streams = (none, []) := by
  induction streams with
  | nil => rfl
  | cons stream streams ih =>
      rcases hnext : TokenStream.next stream with ⟨_ | token, rest⟩
      · simp only [pull, hnext] at hpull ⊢
        exact ih hpull
      · simp only [pull, hnext] at hpull
        cases hpull

/-- A parser that has given no token stays as it is when it is asked again. -/
theorem nextToken_of_none {parser rest : Parser A T τ} (hnext : parser.nextToken = (none, rest)) :
    rest.nextToken = (none, rest) := by
  obtain ⟨app, tables, streams, ⟨pushed⟩, current⟩ := parser
  cases pushed with
  | cons token pushed => cases hnext
  | nil =>
      simp only [nextToken] at hnext
      obtain ⟨hpull, rfl⟩ := Prod.mk.inj hnext
      rw [pull_of_none hpull]
      rfl

/-- A parser with input takes its head. -/
theorem nextToken_cons {parser : Parser A T τ} {token : Token} {tokens : List Token}
    (hreads : parser.Reads (token :: tokens)) :
    ∃ next, parser.nextToken = (some token, next) ∧ next.Reads tokens ∧
      next.tables = parser.tables := by
  obtain ⟨later, hgives, htokens⟩ := hreads
  suffices hnext : parser.nextToken.1 = some token ∧ parser.nextToken.2.Reads tokens by
    exact ⟨_, Prod.ext hnext.1 rfl, hnext.2, tables_nextToken parser⟩
  cases hpushed : parser.pushed.items with
  | nil =>
      rw [hpushed, List.nil_append] at htokens
      obtain ⟨htoken, hrest⟩ := pull_cons (htokens ▸ hgives)
      rw [nextToken, hpushed]
      exact ⟨htoken, tokens, hrest, by simp [hpushed]⟩
  | cons head pushed =>
      rw [hpushed, List.cons_append] at htokens
      obtain ⟨rfl, rfl⟩ := List.cons.inj htokens
      rw [nextToken, hpushed]
      exact ⟨rfl, later, hgives, rfl⟩

/-- A parser without input stays without. -/
theorem nextToken_nil {parser : Parser A T τ} (hreads : parser.Reads []) :
    ∃ next, parser.nextToken = (none, next) ∧ next.Reads [] ∧ next.tables = parser.tables := by
  obtain ⟨later, hgives, htokens⟩ := hreads
  obtain ⟨hpushed, rfl⟩ := List.append_eq_nil_iff.mp htokens.symm
  suffices hnext : parser.nextToken.1 = none ∧ parser.nextToken.2.Reads [] by
    exact ⟨_, Prod.ext hnext.1 rfl, hnext.2, tables_nextToken parser⟩
  rw [nextToken, hpushed]
  simp only [pull_nil hgives]
  exact ⟨trivial, [], .nil, by simp [hpushed]⟩

end Parser

end Precedence
