import Precedence.Proofs.Session
import Precedence.TokenStream.Background

/-!
# Steps of a hand-over

A producer and its consumer move by steps of their own, in any order: a schedule is a list of moves,
and a move that cannot be made yet changes nothing.  All that a step can do is listed once, by
`Step`, and what can be seen of it is an event.
-/

namespace Precedence

/-- Whether a producer has nothing more to do but to let go of the channel. -/
def Producer.isDone : Producer → Bool
  | .finished | .refused _ => true
  | .asking | .holding _ => false

namespace Background

/-- A step of the producer or of the consumer. -/
inductive Move
  | take
  | send
  | stop
  | receive
  | drop
  deriving DecidableEq

/-- What a step comes to. -/
inductive Event
  /-- The source is asked for a token. -/
  | asked (given : Option Token)
  /-- A token comes back to the producer. -/
  | refused (token : Token)
  | received (token : Token)
  /-- The consumer is told that there are no more tokens. -/
  | closed
  /-- Nothing is asked or received; it may be that the step has to wait. -/
  | quiet
  deriving DecidableEq

namespace Event

def asked? : Event → Option (Option Token)
  | .asked given => some given
  | _ => none

def received? : Event → Option Token
  | .received token => some token
  | _ => none

/-- Whether the producer is done from here on. -/
def isFinal : Event → Bool
  | .asked none | .refused _ => true
  | _ => false

end Event

/-- The answers of the source. -/
def asked (events : List Event) : List (Option Token) := events.filterMap Event.asked?

/-- The tokens that the consumer was given. -/
def received (events : List Event) : List Token := events.filterMap Event.received?

variable {τ : Type}

@[simp] theorem received_nil : received [] = [] := rfl

@[simp] theorem received_cons (event : Event) (events : List Event) :
    received (event :: events) = event.received?.toList ++ received events := by
  rw [received, List.filterMap_cons]
  cases event.received? <;> rfl

/-- What is to be seen of a step, and the state after it.  A consumer that has stopped receiving
asks for nothing. -/
def act [TokenStream τ] : Move → Background τ → Event × Background τ
  | .take, b =>
      (match b.producer with
        | .asking => .asked (TokenStream.next b.source).1
        | .holding _ | .finished | .refused _ => .quiet, b.take)
  | .send, b =>
      (match b.producer with
        | .holding token =>
            match (b.channel.send token).1 with
            | .returned token => .refused token
            | .sent | .blocked => .quiet
        | .asking | .finished | .refused _ => .quiet, b.send)
  | .stop, b => (.quiet, b.stop)
  | .receive, b =>
      if b.channel.receiver then
        (match b.receive.1 with
          | .token token => .received token
          | .closed => .closed
          | .blocked => .quiet, b.receive.2)
      else (.quiet, b)
  | .drop, b => (.quiet, b.drop)

/-- All that a step can do. -/
inductive Step [TokenStream τ] (b : Background τ) : Event → Background τ → Prop
  | waited : Step b .quiet b
  | took {token : Token} {source : τ} (hproducer : b.producer = .asking)
      (hnext : TokenStream.next b.source = (some token, source)) :
      Step b (.asked (some token)) { b with source, producer := .holding token }
  | ended {source : τ} (hproducer : b.producer = .asking)
      (hnext : TokenStream.next b.source = (none, source)) :
      Step b (.asked none) { b with source, producer := .finished }
  | sent {token : Token} (hproducer : b.producer = .holding token)
      (hroom : b.channel.queue.length < b.channel.capacity) :
      Step b .quiet { b with
        producer := .asking
        channel := { b.channel with queue := b.channel.queue ++ [token] } }
  | refused {token : Token} (hproducer : b.producer = .holding token)
      (hreceiver : b.channel.receiver = false) :
      Step b (.refused token) { b with producer := .refused token }
  | stopped (hdone : b.producer.isDone = true) :
      Step b .quiet { b with channel := b.channel.dropSender }
  | received {token : Token} {queue : List Token} (hqueue : b.channel.queue = token :: queue) :
      Step b (.received token) { b with channel := { b.channel with queue } }
  | met {token : Token} (hqueue : b.channel.queue = []) (hproducer : b.producer = .holding token) :
      Step b (.received token) { b with producer := .asking }
  | closed (hreceiver : b.channel.receiver = true) (hqueue : b.channel.queue = [])
      (hsenders : b.channel.senders = 0) : Step b .closed { b with attached := false }
  | dropped : Step b .quiet b.drop

section Steps

variable [TokenStream τ] (b : Background τ)

theorem step_take : Step b (act .take b).1 (act .take b).2 := by
  obtain ⟨source, producer, channel, attached⟩ := b
  cases producer with
  | asking =>
      rcases hnext : TokenStream.next source with ⟨_ | token, rest⟩
      · simp only [act, take, hnext]
        exact .ended rfl hnext
      · simp only [act, take, hnext]
        exact .took rfl hnext
  | holding token => exact .waited
  | finished => exact .waited
  | refused token => exact .waited

theorem step_send : Step b (act .send b).1 (act .send b).2 := by
  obtain ⟨source, producer, channel, attached⟩ := b
  cases producer with
  | holding token =>
      cases hreceiver : channel.receiver with
      | false =>
          have hsend : channel.send token = (.returned token, channel) := by
            simp [Channel.send, hreceiver]
          simp only [act, send, hsend]
          exact .refused rfl hreceiver
      | true =>
          by_cases hroom : channel.queued < channel.capacity
          · have hsend : channel.send token =
                (.sent, { channel with queue := channel.queue ++ [token] }) := by
              simp [Channel.send, hreceiver, hroom]
            simp only [act, send, hsend]
            exact .sent rfl hroom
          · have hsend : channel.send token = (.blocked, channel) := by
              simp [Channel.send, hreceiver, hroom]
            simp only [act, send, hsend]
            exact .waited
  | asking => exact .waited
  | finished => exact .waited
  | refused token => exact .waited

theorem step_stop : Step b (act .stop b).1 (act .stop b).2 := by
  obtain ⟨source, producer, channel, attached⟩ := b
  cases producer with
  | asking => exact .waited
  | holding token => exact .waited
  | finished => exact .stopped rfl
  | refused token => exact .stopped rfl

theorem step_receive : Step b (act .receive b).1 (act .receive b).2 := by
  cases hreceiver : b.channel.receiver with
  | false => simpa [act, hreceiver] using .waited
  | true =>
      rw [act, if_pos hreceiver, receive, Channel.receive]
      cases hqueue : b.channel.queue with
      | cons token queue => exact .received hqueue
      | nil =>
          by_cases hsenders : b.channel.senders = 0
          · simpa [hsenders] using .closed hreceiver hqueue hsenders
          · cases hproducer : b.producer with
            | holding token =>
                by_cases hcapacity : b.channel.capacity = 0
                · simpa [hsenders, hcapacity] using .met hqueue hproducer
                · simpa [hsenders, hcapacity] using .waited
            | asking => simpa [hsenders] using .waited
            | finished => simpa [hsenders] using .waited
            | refused token => simpa [hsenders] using .waited

theorem step_act (move : Move) : Step b (act move b).1 (act move b).2 := by
  cases move with
  | take => exact step_take b
  | send => exact step_send b
  | stop => exact step_stop b
  | receive => exact step_receive b
  | drop => exact .dropped

end Steps

/-- Steps that follow one another. -/
inductive Run [TokenStream τ] : Background τ → List Event → Background τ → Prop
  | nil {b : Background τ} : Run b [] b
  | cons {b b' last : Background τ} {event : Event} {events : List Event}
      (hstep : Step b event b') (hrest : Run b' events last) : Run b (event :: events) last

theorem run_answers [TokenStream τ] (moves : List Move) (b : Background τ) :
    Run b (answers act moves b).1 (answers act moves b).2 := by
  induction moves generalizing b with
  | nil => exact .nil
  | cons move moves ih => exact .cons (step_act b move) (ih _)

end Background

end Precedence
