import Precedence.TokenStream
import Precedence.TokenStream.Channel

/-!
# Tokens from the background

A producer takes tokens from a stream and hands them over through a channel until the stream ends
or nobody receives them.  Producer and consumer move in steps of their own, and the tokens that
are received do not depend on how the steps are interleaved; `Background.next` runs the producer
only where the consumer would have to wait for it.
-/

namespace Precedence

/-- How far a producer has come. -/
inductive Producer
  /-- It is about to ask its source for a token. -/
  | asking
  /-- It has taken a token and not yet sent it. -/
  | holding (token : Token)
  /-- Its source had no token. -/
  | finished
  /-- The token came back because nobody receives it. -/
  | refused (token : Token)

/-- The token that a producer has taken and not sent. -/
def Producer.hand? : Producer → Option Token
  | .holding token | .refused token => some token
  | .asking | .finished => none

structure Background (τ : Type) where
  source : τ
  producer : Producer
  channel : Channel
  /-- Whether the consumer has yet to learn that the producer is done. -/
  attached : Bool

namespace Background

variable {τ : Type}

def defaultCapacity : Nat := 20

def ofStream (source : τ) (capacity : Nat) : Background τ :=
  ⟨source, .asking, .ofCapacity capacity, true⟩

/-- The producer takes a token, or is finished where the stream has none. -/
def take [TokenStream τ] (b : Background τ) : Background τ :=
  match b.producer with
  | .asking =>
      match TokenStream.next b.source with
      | (some token, source) => { b with source, producer := .holding token }
      | (none, source) => { b with source, producer := .finished }
  | _ => b

/-- The producer sends the token in its hand; it is done when the token comes back. -/
def send (b : Background τ) : Background τ :=
  match b.producer with
  | .holding token =>
      match b.channel.send token with
      | (.sent, channel) => { b with producer := .asking, channel }
      | (.blocked, _) => b
      | (.returned token, channel) => { b with producer := .refused token, channel }
  | _ => b

/-- A producer that is done lets go of its end of the channel. -/
def stop (b : Background τ) : Background τ :=
  match b.producer with
  | .finished | .refused _ => { b with channel := b.channel.dropSender }
  | .asking | .holding _ => b

/-- The consumer asks for a token.  A channel without room hands over directly. -/
def receive (b : Background τ) : Receiving × Background τ :=
  match b.channel.receive, b.producer with
  | (.token token, channel), _ => (.token token, { b with channel })
  | (.closed, _), _ => (.closed, { b with attached := false })
  | (.blocked, _), .holding token =>
      if b.channel.capacity = 0 then (.token token, { b with producer := .asking })
      else (.blocked, b)
  | (.blocked, _), _ => (.blocked, b)

/-- The consumer stops receiving. -/
def drop (b : Background τ) : Background τ := { b with channel := b.channel.dropReceiver }

def next [TokenStream τ] (b : Background τ) : Option Token × Background τ :=
  let (received, b) :=
    match b.receive with
    | (.blocked, b) => b.take.send.stop.receive
    | result => result
  match received with
  | .token token => (some token, b)
  | .closed | .blocked => (none, b)

instance [TokenStream τ] : TokenStream (Background τ) := ⟨next⟩

def inspect (b : Background τ) : String := b.channel.inspectReceiver b.attached

end Background

end Precedence
