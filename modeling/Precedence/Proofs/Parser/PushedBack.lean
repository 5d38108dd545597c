import Precedence.Parser
import Precedence.Proofs.Session
import Precedence.Proofs.TokenStream.Tokens
import Precedence.TokenStream.PushBack

/-!
# Two ways to push tokens back

A stream with push-back notes in a flag that the stream below it has given none; a parser drops such
a stream.  Apart from that they keep the same tokens and the same stream, so they give the same
tokens: those pushed back, the latest first, and then those of the stream up to its first none.
After that none neither of them asks the stream again.
-/

namespace Precedence

/-- What is asked of an input to which tokens may be pushed back. -/
inductive Draw
  | next
  | pushBack (token : Token)
  deriving DecidableEq

/-- Draws from a list of tokens, which may have no end. -/
def Draw.serve : Draw → Stream'.Seq Token → Option (Option Token) × Stream'.Seq Token
  | .next, tokens => (some tokens.head, tokens.tail)
  | .pushBack token, tokens => (none, .cons token tokens)

/-- A stream that notes what it gives, each time that it is asked. -/
structure Noted (τ : Type) where
  stream : τ
  given : List (Option Token)

namespace Noted

variable {τ : Type} [TokenStream τ]

def ofStream (stream : τ) : Noted τ := ⟨stream, []⟩

def next (noted : Noted τ) : Option Token × Noted τ :=
  let (token, stream) := TokenStream.next noted.stream
  (token, ⟨stream, noted.given ++ [token]⟩)

instance : TokenStream (Noted τ) := ⟨next⟩

theorem next_eq {noted : Noted τ} {token : Option Token} {rest : τ}
    (hnext : TokenStream.next noted.stream = (token, rest)) :
    TokenStream.next noted = (token, ⟨rest, noted.given ++ [token]⟩) := by
  change next noted = _
  rw [next, hnext]

end Noted

namespace PushBack

open TokenStream

variable {τ : Type} [TokenStream τ]

def serve : Draw → PushBack τ → Option (Option Token) × PushBack τ
  | .next, stream => (some stream.next.1, stream.next.2)
  | .pushBack token, stream => (none, stream.push token)

omit [TokenStream τ] in
/-- Either a token has been pushed back, or the stream below has been exhausted, or it is asked. -/
@[elab_as_elim]
theorem byState {motive : PushBack τ → Prop}
    (pushed : ∀ source token pushed exhausted, motive ⟨source, token :: pushed, exhausted⟩)
    (exhausted : ∀ source, motive ⟨source, [], true⟩)
    (asked : ∀ source, motive ⟨source, [], false⟩) (stream : PushBack τ) : motive stream := by
  obtain ⟨source, _ | ⟨token, tokens⟩, _ | _⟩ := stream
  · exact asked source
  · exact exhausted source
  · exact pushed source token tokens false
  · exact pushed source token tokens true

theorem next_asked {source rest : τ} {token : Option Token}
    (hnext : TokenStream.next source = (token, rest)) :
    next ⟨source, [], false⟩ = (token, ⟨rest, [], token.isNone⟩) := by
  rw [next, hnext]
  rfl

/-- The tokens that a stream with push-back can still give. -/
def upcoming (stream : PushBack τ) : Stream'.Seq Token :=
  (Stream'.Seq.ofList stream.pushed).append
    (if stream.exhausted then .nil else tokens stream.source)

theorem upcoming_cons (source : τ) (token : Token) (pushed : List Token) (exhausted : Bool) :
    upcoming ⟨source, token :: pushed, exhausted⟩ =
      .cons token (upcoming ⟨source, pushed, exhausted⟩) := by
  rw [upcoming, Stream'.Seq.ofList_cons, Stream'.Seq.cons_append]
  rfl

theorem upcoming_nil (source : τ) (exhausted : Bool) :
    upcoming ⟨source, [], exhausted⟩ = if exhausted then .nil else tokens source := by
  rw [upcoming, Stream'.Seq.ofList_nil, Stream'.Seq.nil_append]

theorem next_upcoming (stream : PushBack τ) :
    stream.next.1 = stream.upcoming.head ∧ stream.next.2.upcoming = stream.upcoming.tail := by
  cases stream using byState with
  | pushed source token pushed exhausted =>
      rw [upcoming_cons, Stream'.Seq.head_cons, Stream'.Seq.tail_cons]
      exact ⟨rfl, rfl⟩
  | exhausted source =>
      have hnone : upcoming ⟨source, [], true⟩ = .nil := upcoming_nil source true
      rw [hnone, Stream'.Seq.head_nil, Stream'.Seq.tail_nil]
      exact ⟨rfl, hnone⟩
  | asked source =>
      have hsource : upcoming ⟨source, [], false⟩ = tokens source := upcoming_nil source false
      rcases hnext : TokenStream.next source with ⟨_ | token, rest⟩
      · rw [hsource, next_asked hnext, tokens_of_none hnext, Stream'.Seq.head_nil,
          Stream'.Seq.tail_nil]
        exact ⟨rfl, upcoming_nil rest true⟩
      · rw [hsource, next_asked hnext, tokens_of_some hnext, Stream'.Seq.head_cons,
          Stream'.Seq.tail_cons]
        exact ⟨rfl, upcoming_nil rest false⟩

/-- A stream with push-back answers as the list of its tokens. -/
theorem serve_upcoming (draw : Draw) (stream : PushBack τ) :
    (serve draw stream).1 = (draw.serve stream.upcoming).1 ∧
      (serve draw stream).2.upcoming = (draw.serve stream.upcoming).2 := by
  cases draw with
  | next => exact ⟨congrArg some stream.next_upcoming.1, stream.next_upcoming.2⟩
  | pushBack token =>
      exact ⟨rfl, upcoming_cons stream.source token stream.pushed stream.exhausted⟩

theorem answers_upcoming (draws : List Draw) (source : τ) :
    (answers serve draws (ofStream source)).1 = (answers Draw.serve draws (tokens source)).1 :=
  (answers_alike (R := fun stream tokens => stream.upcoming = tokens)
    (by rintro draw stream - rfl; exact serve_upcoming draw stream) draws
    (upcoming_nil source false)).1

/-- The stream without its notes. -/
def plain (noted : PushBack (Noted τ)) : PushBack τ :=
  ⟨noted.source.stream, noted.pushed, noted.exhausted⟩

theorem next_plain (noted : PushBack (Noted τ)) :
    noted.next.1 = noted.plain.next.1 ∧ noted.next.2.plain = noted.plain.next.2 := by
  cases noted using byState with
  | pushed source token pushed exhausted => exact ⟨rfl, rfl⟩
  | exhausted source => exact ⟨rfl, rfl⟩
  | asked source => exact ⟨rfl, rfl⟩

/-- Noting what a stream gives changes nothing else. -/
theorem serve_plain (draw : Draw) (noted : PushBack (Noted τ)) :
    (serve draw noted).1 = (serve draw noted.plain).1 ∧
      (serve draw noted).2.plain = (serve draw noted.plain).2 := by
  cases draw with
  | next => exact ⟨congrArg some noted.next_plain.1, noted.next_plain.2⟩
  | pushBack token => exact ⟨rfl, rfl⟩

theorem answers_plain (draws : List Draw) (source : τ) :
    (answers serve draws (ofStream (Noted.ofStream source))).1 =
      (answers serve draws (ofStream source)).1 :=
  (answers_alike (R := fun noted stream => noted.plain = stream)
    (by rintro draw noted - rfl; exact serve_plain draw noted) draws rfl).1

/-- The stream below has given tokens and, if it is exhausted, one none after them. -/
def Polled (noted : PushBack (Noted τ)) : Prop :=
  ∃ taken : List Token,
    noted.source.given = taken.map some ++ if noted.exhausted then [none] else []

theorem Polled.next {noted : PushBack (Noted τ)} (hpolled : noted.Polled) :
    noted.next.2.Polled := by
  obtain ⟨taken, htaken⟩ := hpolled
  cases noted using byState with
  | pushed source token pushed exhausted => exact ⟨taken, htaken⟩
  | exhausted source => exact ⟨taken, htaken⟩
  | asked source =>
      have hgiven : source.given = taken.map some := by simpa using htaken
      rcases hnext : TokenStream.next source.stream with ⟨_ | token, rest⟩
      · rw [next_asked (Noted.next_eq hnext)]
        exact ⟨taken, by simp [hgiven]⟩
      · rw [next_asked (Noted.next_eq hnext)]
        exact ⟨taken ++ [token], by simp [hgiven]⟩

omit [TokenStream τ] in
theorem polled_ofStream (source : τ) : Polled (ofStream (.ofStream source)) := ⟨[], rfl⟩

theorem Polled.answers {noted : PushBack (Noted τ)} (hpolled : noted.Polled) (draws : List Draw) :
    (Precedence.answers serve draws noted).2.Polled := by
  induction draws generalizing noted with
  | nil => exact hpolled
  | cons draw draws ih =>
      cases draw with
      | next => exact ih hpolled.next
      | pushBack token =>
          have hpushed : (noted.push token).Polled := hpolled
          exact ih hpushed

end PushBack

namespace Parser

variable {A T τ : Type} [TokenStream τ]

def draw : Draw → Parser A T τ → Option (Option Token) × Parser A T τ
  | .next, parser => (some parser.nextToken.1, parser.nextToken.2)
  | .pushBack token, parser => (none, parser.pushBack token)

/-- The parser keeps the tokens pushed back, and the stream as long as it is not exhausted. -/
structure Couples (stream : PushBack τ) (parser : Parser A T τ) : Prop where
  pushed_eq : parser.pushed.items = stream.pushed
  streams_eq : parser.streams.items = if stream.exhausted then [] else [stream.source]

omit [TokenStream τ] in
theorem couples_new (table : T) (source : τ) :
    Couples (.ofStream source) (new table source : Parser A T τ) := ⟨rfl, rfl⟩

theorem Couples.next {stream : PushBack τ} {parser : Parser A T τ}
    (hcouples : Couples stream parser) :
    stream.next.1 = parser.nextToken.1 ∧ Couples stream.next.2 parser.nextToken.2 := by
  obtain ⟨hpushed, hstreams⟩ := hcouples
  cases stream using PushBack.byState with
  | pushed source token pushed exhausted =>
      rw [nextToken, hpushed]
      exact ⟨rfl, rfl, hstreams⟩
  | exhausted source =>
      replace hstreams : parser.streams.items = [] := hstreams
      rw [nextToken, hpushed, hstreams]
      exact ⟨rfl, hpushed, rfl⟩
  | asked source =>
      replace hstreams : parser.streams.items = [source] := hstreams
      rw [nextToken, hpushed, hstreams]
      -- A none sets the flag of the one and makes the other drop the stream, which it does not keep
      -- even to ask it again.
      rcases hnext : TokenStream.next source with ⟨_ | token, rest⟩
      · simp only [PushBack.next_asked hnext, pull, hnext]
        exact ⟨trivial, hpushed, rfl⟩
      · simp only [PushBack.next_asked hnext, pull, hnext]
        exact ⟨trivial, hpushed, rfl⟩

theorem Couples.draw {stream : PushBack τ} {parser : Parser A T τ}
    (hcouples : Couples stream parser) (draw : Draw) :
    (stream.serve draw).1 = (parser.draw draw).1 ∧
      Couples (stream.serve draw).2 (parser.draw draw).2 := by
  cases draw with
  | next => exact ⟨congrArg some hcouples.next.1, hcouples.next.2⟩
  | pushBack token =>
      exact ⟨rfl, congrArg (token :: ·) hcouples.pushed_eq, hcouples.streams_eq⟩

theorem answers_couples (table : T) (source : τ) (draws : List Draw) :
    (answers PushBack.serve draws (.ofStream source)).1 =
        (answers draw draws (new table source : Parser A T τ)).1 ∧
      Couples (answers PushBack.serve draws (.ofStream source)).2
        (answers draw draws (new table source : Parser A T τ)).2 :=
  answers_alike (fun draw _ _ hcouples => hcouples.draw draw) draws (couples_new table source)

/-- A stream with push-back and a parser with no other stream give the same answers as the list of
the stream's tokens up to its first none, with what is pushed back put in front.  Both ask the
stream for those tokens only, and once more for the none: then the one has noted a single none, as
the last answer, and the other keeps the stream no longer. -/
theorem push_backs_agree (table : T) (source : τ) (draws : List Draw) :
    ∃ results,
      (answers PushBack.serve draws (.ofStream source)).1 = results ∧
      (answers draw draws (new table source : Parser A T τ)).1 = results ∧
      (answers Draw.serve draws (TokenStream.tokens source)).1 = results ∧
      ∃ (noted : PushBack (Noted τ)) (parser : Parser A T (Noted τ)) (taken : List Token),
        answers PushBack.serve draws (.ofStream (.ofStream source)) = (results, noted) ∧
        answers draw draws (new table (.ofStream source)) = (results, parser) ∧
        noted.source.given = taken.map some ++ (if noted.exhausted then [none] else []) ∧
        parser.streams.items = if noted.exhausted then [] else [noted.source] := by
  obtain ⟨hanswers, -⟩ := answers_couples (A := A) table source draws
  obtain ⟨hnoted, hcouples⟩ := answers_couples (A := A) table (Noted.ofStream source) draws
  have hplain := PushBack.answers_plain draws source
  obtain ⟨taken, htaken⟩ := (PushBack.polled_ofStream source).answers draws
  exact ⟨_, rfl, hanswers.symm, (PushBack.answers_upcoming draws source).symm, _, _, taken,
    Prod.ext hplain rfl, Prod.ext (hnoted.symm.trans hplain) rfl, htaken, hcouples.streams_eq⟩

end Parser

end Precedence
