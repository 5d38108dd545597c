import Precedence.Proofs.Parser.Input
import Precedence.Proofs.Session
import Precedence.Proofs.TokenStream.Tokens

/-!
# Sessions with the input of a parser

Taking tokens, pushing them back, and pushing, popping and replacing streams, in any order, work on
one list: the tokens pushed back, the latest first, and then those that each stream gives before its
first none.  A stream may give tokens for ever, so the list may have no end.  What a stream would
give after its first none does not count, as a parser keeps no stream that has given one.
-/

namespace Precedence

namespace TokenStream

variable {τ : Type} [TokenStream τ]

/-- What is left of a stream that has given nothing but tokens so far. -/
inductive Unspent (given : τ) : τ → Prop
  | start : Unspent given given
  | next {stream rest : τ} {token : Token} (hstream : Unspent given stream)
      (hnext : next stream = (some token, rest)) : Unspent given rest

end TokenStream

/-- What is asked of a parser about its input. -/
inductive TokenRequest (σ : Type)
  | next
  | pushBack (token : Token)
  | pushStream (stream : σ)
  | popStream
  | setStream (stream : σ)

namespace TokenRequest

variable {σ τ : Type}

def map (f : σ → τ) : TokenRequest σ → TokenRequest τ
  | .next => .next
  | .pushBack token => .pushBack token
  | .pushStream stream => .pushStream (f stream)
  | .popStream => .popStream
  | .setStream stream => .setStream (f stream)

/-- The stream that comes with a request. -/
def stream? : TokenRequest σ → Option σ
  | .pushStream stream | .setStream stream => some stream
  | .next | .pushBack _ | .popStream => none

end TokenRequest

inductive TokenAnswer (σ : Type)
  | token (token : Option Token)
  /-- The stream that was on top. -/
  | stream (stream : Option σ)
  | done

namespace TokenAnswer

variable {σ τ : Type}

def map (f : σ → τ) : TokenAnswer σ → TokenAnswer τ
  | .token given => .token given
  | .stream top => .stream (top.map f)
  | .done => .done

/-- What was given for a token, if one was asked for. -/
def token? : TokenAnswer σ → Option (Option Token)
  | .token given => some given
  | .stream _ | .done => none

/-- The stream that was handed back. -/
def stream? : TokenAnswer σ → Option σ
  | .stream top => top
  | .token _ | .done => none

end TokenAnswer

/-- The tokens that a parser can still read. -/
structure TokenInput where
  pushed : List Token
  streams : List (Stream'.Seq Token)

namespace TokenInput

def joined : List (Stream'.Seq Token) → Stream'.Seq Token
  | [] => .nil
  | stream :: streams => stream.append (joined streams)

def tokens (input : TokenInput) : Stream'.Seq Token :=
  (Stream'.Seq.ofList input.pushed).append (joined input.streams)

/-- Takes the first token of some streams and drops the streams before it. -/
def advance : List (Stream'.Seq Token) → List (Stream'.Seq Token)
  | [] => []
  | stream :: streams =>
      match stream.destruct with
      | some (_, rest) => rest :: streams
      | none => advance streams

def next : TokenInput → TokenInput
  | ⟨_ :: pushed, streams⟩ => ⟨pushed, streams⟩
  | ⟨[], streams⟩ => ⟨[], advance streams⟩

def serve : TokenRequest (Stream'.Seq Token) → TokenInput →
    TokenAnswer (Stream'.Seq Token) × TokenInput
  | .next, input => (.token input.tokens.head, input.next)
  | .pushBack token, input => (.done, { input with pushed := token :: input.pushed })
  | .pushStream stream, input => (.done, { input with streams := stream :: input.streams })
  | .popStream, input => (.stream input.streams.head?, { input with streams := input.streams.tail })
  | .setStream stream, input =>
      (.stream input.streams.head?, { input with streams := stream :: input.streams.tail })

theorem joined_advance (streams : List (Stream'.Seq Token)) :
    joined (advance streams) = (joined streams).tail := by
  induction streams with
  | nil => exact Stream'.Seq.tail_nil.symm
  | cons stream streams ih =>
      rw [advance]
      split
      · next token rest hrest =>
          rw [Stream'.Seq.destruct_eq_cons hrest, joined, joined, Stream'.Seq.cons_append,
            Stream'.Seq.tail_cons]
      · next hnone =>
          rw [Stream'.Seq.destruct_eq_none hnone, joined, Stream'.Seq.nil_append, ih]

theorem tokens_next (input : TokenInput) : input.next.tokens = input.tokens.tail := by
  obtain ⟨pushed, streams⟩ := input
  cases pushed with
  | nil =>
      simp only [next, tokens, Stream'.Seq.ofList_nil, Stream'.Seq.nil_append, joined_advance]
  | cons token pushed =>
      simp only [next, tokens, Stream'.Seq.ofList_cons, Stream'.Seq.cons_append,
        Stream'.Seq.tail_cons]

end TokenInput

namespace Parser

open TokenStream

variable {A T τ : Type} [TokenStream τ]

def input (parser : Parser A T τ) : TokenInput :=
  ⟨parser.pushed.items, parser.streams.items.map tokens⟩

def serve : TokenRequest τ → Parser A T τ → TokenAnswer τ × Parser A T τ
  | .next, parser => (.token parser.nextToken.1, parser.nextToken.2)
  | .pushBack token, parser => (.done, parser.pushBack token)
  | .pushStream stream, parser => (.done, parser.pushStream stream)
  | .popStream, parser => (.stream parser.popStream.1, parser.popStream.2)
  | .setStream stream, parser => (.stream (parser.setStream stream).1, (parser.setStream stream).2)

theorem pull_joined (streams : List τ) :
    (pull streams).1 = (TokenInput.joined (streams.map tokens)).head ∧
      (pull streams).2.map tokens = TokenInput.advance (streams.map tokens) := by
  induction streams with
  | nil => exact ⟨Stream'.Seq.head_nil.symm, rfl⟩
  | cons stream streams ih =>
      rcases hnext : TokenStream.next stream with ⟨token?, rest⟩
      cases token? with
      | none =>
          rw [List.map_cons, tokens_of_none hnext, TokenInput.joined, Stream'.Seq.nil_append]
          simp only [pull, hnext]
          exact ih
      | some token =>
          rw [List.map_cons, tokens_of_some hnext, TokenInput.joined, Stream'.Seq.cons_append]
          simp only [pull, hnext, Stream'.Seq.head_cons]
          exact ⟨trivial, rfl⟩

theorem nextToken_input (parser : Parser A T τ) :
    parser.nextToken.1 = parser.input.tokens.head ∧
      parser.nextToken.2.input = parser.input.next := by
  obtain ⟨app, tables, ⟨streams⟩, ⟨pushed⟩, current⟩ := parser
  cases pushed with
  | nil =>
      obtain ⟨htoken, hstreams⟩ := pull_joined streams
      rw [TokenInput.tokens]
      simp only [input, nextToken, Stream'.Seq.ofList_nil, Stream'.Seq.nil_append, htoken]
      exact ⟨trivial, congrArg (TokenInput.mk []) hstreams⟩
  | cons token pushed =>
      rw [TokenInput.tokens]
      simp only [input, nextToken, Stream'.Seq.ofList_cons, Stream'.Seq.cons_append,
        Stream'.Seq.head_cons]
      exact ⟨trivial, rfl⟩

/-- A parser answers one request as its input does. -/
theorem serve_input (request : TokenRequest τ) (parser : Parser A T τ) :
    TokenInput.serve (request.map tokens) parser.input =
      ((serve request parser).1.map tokens, (serve request parser).2.input) := by
  cases request with
  | next =>
      obtain ⟨htoken, hinput⟩ := parser.nextToken_input
      simp only [serve, TokenInput.serve, TokenRequest.map, TokenAnswer.map, htoken, hinput]
  | pushBack token => rfl
  | pushStream stream => rfl
  | popStream =>
      obtain ⟨app, tables, ⟨streams⟩, pushed, current⟩ := parser
      cases streams <;> rfl
  | setStream stream =>
      obtain ⟨app, tables, ⟨streams⟩, pushed, current⟩ := parser
      cases streams <;> rfl

theorem answers_input (requests : List (TokenRequest τ)) (parser : Parser A T τ) :
    answers TokenInput.serve (requests.map (.map tokens)) parser.input =
      ((answers serve requests parser).1.map (.map tokens),
        (answers serve requests parser).2.input) := by
  induction requests generalizing parser with
  | nil => rfl
  | cons request requests ih =>
      simp only [List.map_cons, answers, serve_input, ih]

/-- Every stream that a parser keeps is left of one of these streams. -/
def Keeps (given : List τ) (parser : Parser A T τ) : Prop :=
  ∀ stream ∈ parser.streams.items, ∃ origin ∈ given, Unspent origin stream

theorem keeps_pull {given streams : List τ}
    (hstreams : ∀ stream ∈ streams, ∃ origin ∈ given, Unspent origin stream) :
    ∀ stream ∈ (pull streams).2, ∃ origin ∈ given, Unspent origin stream := by
  induction streams with
  | nil => exact hstreams
  | cons stream streams ih =>
      obtain ⟨⟨origin, horigin, hstream⟩, hrest⟩ := List.forall_mem_cons.mp hstreams
      rcases hnext : TokenStream.next stream with ⟨token?, left⟩
      cases token? with
      | none =>
          simp only [pull, hnext]
          exact ih hrest
      | some token =>
          simp only [pull, hnext]
          exact List.forall_mem_cons.mpr ⟨⟨origin, horigin, .next hstream hnext⟩, hrest⟩

/-- The streams that a parser hands back are left of the same streams as those it keeps. -/
theorem Keeps.serve {given : List τ} {parser : Parser A T τ} (hkeeps : parser.Keeps given)
    {request : TokenRequest τ} (hgiven : ∀ stream ∈ request.stream?, stream ∈ given) :
    (serve request parser).2.Keeps given ∧
      ∀ stream ∈ (serve request parser).1.stream?, ∃ origin ∈ given, Unspent origin stream := by
  have htop : ∀ stream ∈ parser.streams.items.head?, ∃ origin ∈ given, Unspent origin stream :=
    fun stream hmem => hkeeps stream (List.mem_of_head? hmem)
  have hbelow : ∀ stream ∈ parser.streams.items.tail, ∃ origin ∈ given, Unspent origin stream :=
    fun stream hmem => hkeeps stream (List.mem_of_mem_tail hmem)
  have hnone : ∀ stream ∈ (none : Option τ), ∃ origin ∈ given, Unspent origin stream := by
    intro stream hmem
    cases hmem
  cases request with
  | next =>
      refine ⟨?_, hnone⟩
      rw [Parser.serve, nextToken]
      split
      · exact hkeeps
      · exact keeps_pull hkeeps
  | pushBack token => exact ⟨hkeeps, hnone⟩
  | pushStream stream =>
      exact ⟨List.forall_mem_cons.mpr ⟨⟨stream, hgiven stream rfl, .start⟩, hkeeps⟩, hnone⟩
  | popStream => exact ⟨hbelow, htop⟩
  | setStream stream =>
      exact ⟨List.forall_mem_cons.mpr ⟨⟨stream, hgiven stream rfl, .start⟩, hbelow⟩, htop⟩

theorem Keeps.answers {given : List τ} {requests : List (TokenRequest τ)}
    (hgiven : ∀ request ∈ requests, ∀ stream ∈ request.stream?, stream ∈ given)
    {parser : Parser A T τ} (hkeeps : parser.Keeps given) :
    (Precedence.answers Parser.serve requests parser).2.Keeps given ∧
      ∀ answer ∈ (Precedence.answers Parser.serve requests parser).1, ∀ stream ∈ answer.stream?,
        ∃ origin ∈ given, Unspent origin stream := by
  induction requests generalizing parser with
  | nil => exact ⟨hkeeps, nofun⟩
  | cons request requests ih =>
      obtain ⟨hfirst, hrest⟩ := List.forall_mem_cons.mp hgiven
      obtain ⟨hnext, hanswer⟩ := hkeeps.serve hfirst
      obtain ⟨hlast, hanswers⟩ := ih hrest hnext
      exact ⟨hlast, List.forall_mem_cons.mpr ⟨hanswer, hanswers⟩⟩

theorem current_serve (request : TokenRequest τ) (parser : Parser A T τ) :
    (serve request parser).2.current = (serve request parser).1.token?.getD parser.current := by
  cases request with
  | next => exact parser.current_nextToken
  | _ => rfl

/-- The current token is what the last request for a token was given. -/
theorem current_answers (requests : List (TokenRequest τ)) (parser : Parser A T τ) :
    (answers serve requests parser).2.current =
      ((answers serve requests parser).1.filterMap TokenAnswer.token?).getLast?.getD
        parser.current := by
  induction requests generalizing parser with
  | nil => rfl
  | cons request requests ih =>
      rw [answers]
      dsimp only
      rw [ih, current_serve]
      cases htoken : (serve request parser).1.token? with
      | none => rw [List.filterMap_cons_none htoken, Option.getD_none]
      | some token =>
          rw [List.filterMap_cons_some htoken, List.getLast?_cons, Option.getD_some,
            Option.getD_some]

/-- Each call does to the tokens of a parser what it would do to one list. -/
structure ReadsOneList (parser : Parser A T τ) : Prop where
  nextToken_eq : parser.nextToken.1 = parser.input.tokens.head
  nextToken_eq_none : parser.nextToken.1 = none ↔ parser.input.tokens = .nil
  tokens_nextToken : parser.nextToken.2.input.tokens = parser.input.tokens.tail
  tokens_pushBack (token : Token) :
    (parser.pushBack token).input.tokens = .cons token parser.input.tokens
  /-- A stream is spliced in after the tokens pushed back. -/
  tokens_pushStream (stream : τ) :
    (parser.pushStream stream).input.tokens = (Stream'.Seq.ofList parser.pushed.items).append
      ((tokens stream).append (TokenInput.joined (parser.streams.items.map tokens)))
  /-- Only the tokens of the top stream are lost. -/
  tokens_popStream :
    parser.popStream.2.input.tokens = (Stream'.Seq.ofList parser.pushed.items).append
      (TokenInput.joined (parser.streams.items.tail.map tokens))
  tokens_setStream (stream : τ) :
    (parser.setStream stream).2.input.tokens = (Stream'.Seq.ofList parser.pushed.items).append
      ((tokens stream).append (TokenInput.joined (parser.streams.items.tail.map tokens)))

theorem readsOneList (parser : Parser A T τ) : parser.ReadsOneList where
  nextToken_eq := parser.nextToken_input.1
  nextToken_eq_none := by rw [parser.nextToken_input.1, Stream'.Seq.head_eq_none_iff]
  tokens_nextToken := by rw [parser.nextToken_input.2, TokenInput.tokens_next]
  tokens_pushBack token := by
    simp only [TokenInput.tokens, input, pushBack, Stack.items_push, Stream'.Seq.ofList_cons,
      Stream'.Seq.cons_append]
  tokens_pushStream stream := rfl
  tokens_popStream := rfl
  tokens_setStream stream := rfl

/-- In a session of any calls, a parser answers as the list of its tokens does, and each call works
on that list.  Every stream that the parser keeps or hands back has given nothing but tokens, so no
stream is asked again after a none.  The current token is what the last call for a token was given,
and a token that is pushed back is taken again. -/
theorem answers_as_one_list (parser : Parser A T τ) (requests : List (TokenRequest τ)) :
    ∃ results last, answers serve requests parser = (results, last) ∧
      answers TokenInput.serve (requests.map (.map tokens)) parser.input =
        (results.map (.map tokens), last.input) ∧
      last.ReadsOneList ∧
      last.Keeps (parser.streams.items ++ requests.filterMap TokenRequest.stream?) ∧
      (∀ result ∈ results, ∀ stream ∈ result.stream?,
        ∃ origin ∈ parser.streams.items ++ requests.filterMap TokenRequest.stream?,
          Unspent origin stream) ∧
      last.current = (results.filterMap TokenAnswer.token?).getLast?.getD parser.current ∧
      ∀ token rest, last.nextToken = (some token, rest) →
        (rest.pushBack token).nextToken = (some token, rest) := by
  have hkeeps : parser.Keeps (parser.streams.items ++ requests.filterMap TokenRequest.stream?) :=
    fun stream hmem => ⟨stream, List.mem_append_left _ hmem, .start⟩
  obtain ⟨hlast, hresults⟩ := hkeeps.answers fun request hrequest stream hstream =>
    List.mem_append_right _ (List.mem_filterMap.mpr ⟨request, hrequest, hstream⟩)
  exact ⟨_, _, rfl, answers_input requests parser, readsOneList _, hlast, hresults,
    current_answers requests parser, fun _ _ => nextToken_pushBack⟩

/-- Prepared answers, with nones among them, and then none for ever. -/
structure Flicker where
  replies : List (Option Token)

instance : TokenStream Flicker := ⟨fun stream => (stream.replies.head?.join, ⟨stream.replies.tail⟩)⟩

/-- The token `z`, which comes after a none, is never read. -/
theorem answers_as_one_list_flicker :
    let a : Token := { kind := "a" }
    let b : Token := { kind := "b" }
    let c : Token := { kind := "c" }
    let z : Token := { kind := "z" }
    let parser : Parser Unit Unit Flicker := new () ⟨[some b, some c]⟩
    let requests := [.pushStream ⟨[some a, none, some z]⟩, .next, .next, .pushBack b, .popStream]
    ∃ last rest, answers serve requests parser =
        ([.done, .token (some a), .token (some b), .done, .stream (some ⟨[some c]⟩)], last) ∧
      last.current = some b ∧ last.Keeps [⟨[some b, some c]⟩, ⟨[some a, none, some z]⟩] ∧
      (∃ origin ∈ [⟨[some b, some c]⟩, ⟨[some a, none, some z]⟩],
        Unspent origin (⟨[some c]⟩ : Flicker)) ∧
      last.nextToken = (some b, rest) ∧ (rest.pushBack b).nextToken = (some b, rest) := by
  intro a b c z parser requests
  obtain ⟨results, last, hanswers, -, -, hkeeps, hback, hcurrent, hagain⟩ :=
    answers_as_one_list parser requests
  obtain ⟨rfl, rfl⟩ := Prod.mk.inj hanswers
  refine ⟨_, _, rfl, hcurrent, hkeeps, hback (.stream (some ⟨[some c]⟩)) ?_ ⟨[some c]⟩ rfl, rfl,
    hagain b _ rfl⟩
  exact .tail _ (.tail _ (.tail _ (.tail _ (.head _))))

end Parser

end Precedence
