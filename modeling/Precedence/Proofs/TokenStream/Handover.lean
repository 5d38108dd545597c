import Precedence.Proofs.TokenStream.Interleaving
import Precedence.Proofs.TokenStream.Tokens

/-!
# Handing tokens over

However the steps of a producer and of its consumer are interleaved, what was received, what is in
the channel, what the producer holds and what its source still has make up the tokens of the source
in order.  So the consumer is told that there is no more only when it has had every token, and
whoever stops receiving has had the first of them.  The source is not asked again once it has given
none or a token has come back.
-/

namespace Precedence

/-- The token that whoever asks is given. -/
def Receiving.token? : Receiving → Option Token
  | .token given => some given
  | .blocked | .closed => none

namespace Background

open TokenStream

variable {τ : Type}

/-- The tokens that the producer has yet to take. -/
def remaining [TokenStream τ] (b : Background τ) : Stream'.Seq Token :=
  match b.producer with
  | .finished => .nil
  | .asking | .holding _ | .refused _ => tokens b.source

/-- The tokens that have left the source and not reached the consumer. -/
def inTransit (b : Background τ) : List Token := b.channel.queue ++ b.producer.hand?.toList

/-- The tokens that the consumer has yet to receive. -/
def ahead [TokenStream τ] (b : Background τ) : Stream'.Seq Token :=
  (Stream'.Seq.ofList b.inTransit).append b.remaining

/-- What holds at every moment. -/
structure Sound (capacity : Nat) (b : Background τ) : Prop where
  capacity_eq : b.channel.capacity = capacity
  length_le : b.channel.queue.length ≤ capacity
  senders_eq : b.producer.isDone = false → b.channel.senders = 1
  senders_le : b.channel.senders ≤ 1
  receiver_eq : ∀ token, b.producer = .refused token → b.channel.receiver = false

/-- Every token has been received. -/
structure Drained (b : Background τ) : Prop where
  producer_eq : b.producer = .finished
  queue_eq : b.channel.queue = []
  senders_eq : b.channel.senders = 0

theorem sound_ofStream (source : τ) (capacity : Nat) :
    (ofStream source capacity).Sound capacity where
  capacity_eq := rfl
  length_le := Nat.zero_le capacity
  senders_eq _ := rfl
  senders_le := Nat.le_refl 1
  receiver_eq := nofun

section Runs

variable [TokenStream τ] {b b' last : Background τ} {event : Event} {events : List Event}

/-- A step hands over at most the first of the tokens ahead. -/
theorem Step.ahead_eq (hstep : Step b event b') :
    b.ahead = (Stream'.Seq.ofList event.received?.toList).append b'.ahead := by
  obtain ⟨source, producer, ⟨capacity, queue, senders, receiver⟩, attached⟩ := b
  cases hstep with
  | took hproducer hnext =>
      cases hproducer
      simp [ahead, remaining, inTransit, Producer.hand?, tokens_of_some hnext, Event.received?]
  | ended hproducer hnext =>
      cases hproducer
      simp [ahead, remaining, inTransit, Producer.hand?, tokens_of_none hnext, Event.received?]
  | sent hproducer hroom =>
      cases hproducer
      simp [ahead, remaining, inTransit, Producer.hand?, Event.received?]
  | refused hproducer hreceiver =>
      cases hproducer
      simp [ahead, remaining, inTransit, Producer.hand?, Event.received?]
  | stopped hproducer => simp [ahead, remaining, inTransit, Channel.dropSender, Event.received?]
  | received hqueue =>
      cases hqueue
      simp [ahead, remaining, inTransit, Event.received?]
  | met hqueue hproducer =>
      cases hqueue
      cases hproducer
      simp [ahead, remaining, inTransit, Producer.hand?, Event.received?]
  | closed hreceiver hqueue hsenders => simp [ahead, remaining, inTransit, Event.received?]
  | dropped => simp [ahead, remaining, inTransit, drop, Channel.dropReceiver, Event.received?]
  | waited => simp [Event.received?]

/-- The consumer has received the tokens that are no longer ahead of it. -/
theorem Run.ahead_eq (hrun : Run b events last) :
    b.ahead = (Stream'.Seq.ofList (received events)).append last.ahead := by
  induction hrun with
  | nil => exact (Stream'.Seq.nil_append _).symm
  | cons hstep hrest ih =>
      rw [hstep.ahead_eq, ih, received_cons, Stream'.Seq.ofList_append, Stream'.Seq.append_assoc]

theorem Step.sound {capacity : Nat} (hstep : Step b event b') (hsound : b.Sound capacity) :
    b'.Sound capacity := by
  obtain ⟨hcapacity, hlength, hsenders, hone, hreceiver⟩ := hsound
  obtain ⟨source, producer, ⟨room, queue, senders, receiver⟩, attached⟩ := b
  cases hstep with
  | took hproducer hnext =>
      cases hproducer
      exact ⟨hcapacity, hlength, hsenders, hone, nofun⟩
  | ended hproducer hnext => exact ⟨hcapacity, hlength, nofun, hone, nofun⟩
  | sent hproducer hroom =>
      cases hproducer
      refine ⟨hcapacity, ?_, hsenders, hone, nofun⟩
      rw [List.length_append]
      exact hcapacity ▸ hroom
  | refused hproducer hclosed => exact ⟨hcapacity, hlength, nofun, hone, fun _ _ => hclosed⟩
  | stopped hproducer =>
      have hone' : senders - 1 ≤ 1 := Nat.le_trans (Nat.sub_le _ 1) hone
      exact ⟨hcapacity, hlength, fun hbusy => absurd hproducer (by simp [hbusy]), hone', hreceiver⟩
  | received hqueue =>
      cases hqueue
      exact ⟨hcapacity, Nat.le_trans (Nat.le_succ _) hlength, hsenders, hone, hreceiver⟩
  | met hqueue hproducer =>
      cases hproducer
      exact ⟨hcapacity, hlength, hsenders, hone, nofun⟩
  | closed hopen hqueue hnone => exact ⟨hcapacity, hlength, hsenders, hone, hreceiver⟩
  | dropped => exact ⟨hcapacity, hlength, hsenders, hone, fun _ _ => rfl⟩
  | waited => exact ⟨hcapacity, hlength, hsenders, hone, hreceiver⟩

theorem Run.sound {capacity : Nat} (hrun : Run b events last) (hsound : b.Sound capacity) :
    last.Sound capacity := by
  induction hrun with
  | nil => exact hsound
  | cons hstep hrest ih => exact ih (hstep.sound hsound)

/-- A producer that is done asks for nothing more. -/
theorem Step.done (hstep : Step b event b') (hdone : b.producer.isDone = true) :
    b'.producer.isDone = true ∧ event.asked? = none := by
  cases hstep with
  | took hproducer hnext => simp [hproducer, Producer.isDone] at hdone
  | ended hproducer hnext => simp [hproducer, Producer.isDone] at hdone
  | sent hproducer hroom => simp [hproducer, Producer.isDone] at hdone
  | met hqueue hproducer => simp [hproducer, Producer.isDone] at hdone
  | refused hproducer hreceiver => exact ⟨rfl, rfl⟩
  | stopped hproducer => exact ⟨hdone, rfl⟩
  | received hqueue => exact ⟨hdone, rfl⟩
  | closed hreceiver hqueue hsenders => exact ⟨hdone, rfl⟩
  | dropped => exact ⟨hdone, rfl⟩
  | waited => exact ⟨hdone, rfl⟩

theorem Run.done (hrun : Run b events last) (hdone : b.producer.isDone = true) :
    ∀ event ∈ events, event.asked? = none := by
  induction hrun with
  | nil => exact nofun
  | cons hstep hrest ih =>
      obtain ⟨hstays, hfirst⟩ := hstep.done hdone
      exact List.forall_mem_cons.mpr ⟨hfirst, ih hstays⟩

theorem Step.done_of_isFinal (hstep : Step b event b') (hfinal : event.isFinal = true) :
    b'.producer.isDone = true := by
  cases hstep with
  | ended hproducer hnext => rfl
  | refused hproducer hreceiver => rfl
  | _ => simp [Event.isFinal] at hfinal

theorem Run.pairwise (hrun : Run b events last) :
    events.Pairwise fun earlier later => earlier.isFinal = true → later.asked? = none := by
  induction hrun with
  | nil => exact .nil
  | cons hstep hrest ih =>
      refine .cons (fun later hlater hfinal => ?_) ih
      exact hrest.done (hstep.done_of_isFinal hfinal) later hlater

theorem Step.next_eq (hstep : Step b event b') {given : Option Token}
    (hasked : event.asked? = some given) : TokenStream.next b.source = (given, b'.source) := by
  cases hstep with
  | took hproducer hnext =>
      cases hasked
      exact hnext
  | ended hproducer hnext =>
      cases hasked
      exact hnext
  | _ => cases hasked

theorem Step.source_eq (hstep : Step b event b') (hasked : event.asked? = none) :
    b'.source = b.source := by
  cases hstep with
  | took hproducer hnext => cases hasked
  | ended hproducer hnext => cases hasked
  | _ => rfl

/-- The source has been asked just as often as the run says. -/
theorem Run.take_eq (hrun : Run b events last) :
    TokenStream.take (asked events).length b.source = (asked events, last.source) := by
  induction hrun with
  | nil => rfl
  | @cons b b' last event events hstep hrest ih =>
      cases hasked : event.asked? with
      | none =>
          rw [asked, List.filterMap_cons_none hasked, ← hstep.source_eq hasked]
          exact ih
      | some given =>
          rw [asked, List.filterMap_cons_some hasked, List.length_cons, TokenStream.take,
            hstep.next_eq hasked]
          exact congrArg (fun taken => (given :: taken.1, taken.2)) ih

theorem Step.drained (hstep : Step b event b') (hdrained : b.Drained) : b'.Drained := by
  obtain ⟨hproducer, hqueue, hsenders⟩ := hdrained
  cases hstep with
  | took hasking hnext => simp [hproducer] at hasking
  | ended hasking hnext => exact ⟨rfl, hqueue, hsenders⟩
  | sent hholding hroom => simp [hproducer] at hholding
  | refused hholding hreceiver => simp [hproducer] at hholding
  | stopped hdone => exact ⟨hproducer, hqueue, by simp [Channel.dropSender, hsenders]⟩
  | received hnonempty => simp [hqueue] at hnonempty
  | met hempty hholding => simp [hproducer] at hholding
  | closed hreceiver hempty hnone => exact ⟨hproducer, hqueue, hsenders⟩
  | dropped => exact ⟨hproducer, hqueue, hsenders⟩
  | waited => exact ⟨hproducer, hqueue, hsenders⟩

/-- The consumer is told that there is no more only when it has had every token. -/
theorem Step.drained_of_closed {capacity : Nat} (hsound : b.Sound capacity)
    (hstep : Step b .closed b') : b'.Drained := by
  cases hstep with
  | closed hreceiver hqueue hsenders =>
      refine ⟨?_, hqueue, hsenders⟩
      cases hproducer : b.producer with
      | finished => rfl
      | refused token => simp [hsound.receiver_eq token hproducer] at hreceiver
      | asking => simp [hsound.senders_eq (by rw [hproducer]; rfl)] at hsenders
      | holding token => simp [hsound.senders_eq (by rw [hproducer]; rfl)] at hsenders

theorem Run.drained (hrun : Run b events last) (hdrained : b.Drained) : last.Drained := by
  induction hrun with
  | nil => exact hdrained
  | cons hstep hrest ih => exact ih (hstep.drained hdrained)

theorem Run.drained_of_closed {capacity : Nat} (hsound : b.Sound capacity)
    (hrun : Run b events last) (hclosed : .closed ∈ events) : last.Drained := by
  induction hrun with
  | nil => cases hclosed
  | cons hstep hrest ih =>
      cases hclosed with
      | head => exact hrest.drained (hstep.drained_of_closed hsound)
      | tail _ hlater => exact ih (hstep.sound hsound) hlater

theorem Drained.ahead_eq (hdrained : b.Drained) : b.ahead = .nil := by
  simp [ahead, remaining, inTransit, hdrained.producer_eq, hdrained.queue_eq, Producer.hand?]

/-- From then on every call says so again. -/
theorem Drained.act_receive (hdrained : b.Drained) (hreceiver : b.channel.receiver = true) :
    (act .receive b).1 = .closed := by
  simp [act, receive, Channel.receive, hreceiver, hdrained.queue_eq, hdrained.senders_eq]

omit [TokenStream τ] in
/-- A token in the producer's hand reaches a consumer that waits for it. -/
theorem receive_of_holding {token : Token} {source : τ} {capacity : Nat} {attached : Bool} :
    (receive (stop (send ⟨source, .holding token, ⟨capacity, [], 1, true⟩, attached⟩))).1 =
      .token token := by
  cases capacity <;> rfl

theorem receive_of_waiting {capacity : Nat} (hsound : b.Sound capacity)
    (hreceiver : b.channel.receiver = true) (hblocked : b.receive.1 = .blocked) :
    b.take.send.stop.receive.1 ≠ .blocked := by
  obtain ⟨-, -, hsenders, hone, hrefused⟩ := hsound
  obtain ⟨source, producer, ⟨room, queue, senders, receiver⟩, attached⟩ := b
  cases hreceiver
  cases queue with
  | cons token queue => cases hblocked
  | nil =>
      cases producer with
      | asking =>
          cases hsenders rfl
          rcases hnext : TokenStream.next source with ⟨_ | token, rest⟩
          · simp only [take, hnext]
            exact Receiving.noConfusion
          · simp only [take, hnext, receive_of_holding]
            exact Receiving.noConfusion
      | holding token =>
          cases hsenders rfl
          simp only [take, receive_of_holding]
          exact Receiving.noConfusion
      | finished =>
          have hnone : senders - 1 = 0 := Nat.sub_eq_zero_of_le hone
          simp [take, send, stop, receive, Channel.receive, Channel.dropSender, hnone]
      | refused token => cases hrefused token rfl

theorem channel_take (b : Background τ) : b.take.channel = b.channel := by
  rw [take]
  split
  · split <;> rfl
  · rfl

omit [TokenStream τ] in
theorem receiver_send (b : Background τ) : b.send.channel.receiver = b.channel.receiver := by
  obtain ⟨source, producer, ⟨capacity, queue, senders, receiver⟩, attached⟩ := b
  cases producer with
  | holding token => grind [send, Channel.send]
  | _ => rfl

omit [TokenStream τ] in
theorem receiver_stop (b : Background τ) : b.stop.channel.receiver = b.channel.receiver := by
  rw [stop]
  split <;> rfl

/-- The consumer is given something only when it asks. -/
theorem received_act (b : Background τ) (move : Move) (hmove : move ≠ .receive) :
    (act move b).1.received? = none := by
  cases move with
  | receive => exact absurd rfl hmove
  | take =>
      rw [act]
      cases b.producer <;> rfl
  | send =>
      rw [act]
      cases b.producer with
      | holding token => grind [Event.received?]
      | _ => rfl
  | stop => rfl
  | drop => rfl

omit [TokenStream τ] in
theorem eq_of_receive_blocked {rest : Background τ} (hreceive : b.receive = (.blocked, rest)) :
    rest = b := by
  rw [receive] at hreceive
  split at hreceive
  · cases hreceive
  · cases hreceive
  · split at hreceive
    · cases hreceive
    · exact (Prod.mk.inj hreceive).2.symm
  · exact (Prod.mk.inj hreceive).2.symm

/-- A call of the consumer that need not wait. -/
theorem run_receive {answer : Receiving} (hreceiver : b.channel.receiver = true)
    (hreceive : b.receive = (answer, last)) (hready : answer ≠ .blocked) :
    ∃ event, Run b [event] last ∧ event.received? = answer.token? ∧
      (answer.token? = none → event = .closed) := by
  have hstep := b.step_receive
  cases answer with
  | blocked => exact absurd rfl hready
  | token token =>
      simp only [act, if_pos hreceiver, hreceive] at hstep
      exact ⟨_, .cons hstep .nil, rfl, fun hnone => absurd hnone (Option.some_ne_none token)⟩
  | closed =>
      simp only [act, if_pos hreceiver, hreceive] at hstep
      exact ⟨_, .cons hstep .nil, rfl, fun _ => rfl⟩

/-- A call that waits comes to some steps, the last of which answers the consumer. -/
theorem run_next {capacity : Nat} (hsound : b.Sound capacity)
    (hreceiver : b.channel.receiver = true) :
    ∃ events, Run b events b.next.2 ∧ received events = b.next.1.toList ∧
      (b.next.1 = none → .closed ∈ events) := by
  rcases hreceive : b.receive with ⟨answer, rest⟩
  by_cases hblocked : answer = .blocked
  · have hready := receive_of_waiting hsound hreceiver (by rw [hreceive, hblocked])
    cases hblocked
    cases eq_of_receive_blocked hreceive
    rcases hagain : b.take.send.stop.receive with ⟨answer, last⟩
    rw [hagain] at hready
    have hopen : b.take.send.stop.channel.receiver = true := by
      rw [receiver_stop, receiver_send, channel_take, hreceiver]
    obtain ⟨event, hrun, hevent, hclosed⟩ := run_receive hopen hagain hready
    have hnext : b.next = (answer.token?, last) := by
      rw [next, hreceive]
      dsimp only
      rw [hagain]
      cases answer <;> rfl
    rw [hnext]
    refine ⟨_, .cons b.step_take (.cons b.take.step_send (.cons b.take.send.step_stop hrun)),
      ?_, fun hnone => ?_⟩
    · have htake := b.received_act .take nofun
      have hsend := b.take.received_act .send nofun
      have hstop := b.take.send.received_act .stop nofun
      simp [htake, hsend, hstop, hevent]
    · simp [hclosed hnone]
  · obtain ⟨event, hrun, hevent, hclosed⟩ := run_receive hreceiver hreceive hblocked
    have hnext : b.next = (answer.token?, rest) := by
      rw [next, hreceive]
      cases answer with
      | blocked => exact absurd rfl hblocked
      | _ => rfl
    rw [hnext]
    refine ⟨_, hrun, ?_, fun hnone => ?_⟩
    · simp [hevent]
    · simp [hclosed hnone]

/-- A call that waits is given the first of the tokens ahead, or none if there is none. -/
theorem next_eq_head {capacity : Nat} (hsound : b.Sound capacity)
    (hreceiver : b.channel.receiver = true) :
    b.next.1 = b.ahead.head ∧ b.next.2.ahead = b.ahead.tail := by
  obtain ⟨events, hrun, hreceived, hclosed⟩ := run_next hsound hreceiver
  rw [hrun.ahead_eq, hreceived]
  cases hnext : b.next.1 with
  | some token => simp
  | none =>
      have hdrained := hrun.drained_of_closed hsound (hclosed hnext)
      simp [hdrained.ahead_eq]

end Runs

/-- In any interleaving, what was received, what is in the channel, what the producer holds and what
its source still has make up the tokens of the source in order, so that a consumer that stops
receiving has had the first of them.  The consumer is told that there is no more only when it has
had them all, and then whenever it asks.  The source is asked as often as the events say, and not
again once it has given none or a token has come back.  A call that waits as long as it has to is
given the next token. -/
theorem hands_over_in_order [TokenStream τ] (source : τ) (capacity : Nat) (moves : List Move) :
    ∃ events last, answers act moves (ofStream source capacity) = (events, last) ∧
      tokens source = (Stream'.Seq.ofList
        (received events ++ last.channel.queue ++ last.producer.hand?.toList)).append
          last.remaining ∧
      (∃ lost, tokens source = (Stream'.Seq.ofList (received events)).append lost) ∧
      last.channel.queue.length ≤ capacity ∧
      (.closed ∈ events → tokens source = .ofList (received events) ∧
        (last.channel.receiver = true → (act .receive last).1 = .closed)) ∧
      TokenStream.take (asked events).length source = (asked events, last.source) ∧
      (events.Pairwise fun earlier later => earlier.isFinal = true → later.asked? = none) ∧
      (last.channel.receiver = true →
        last.next.1 = last.ahead.head ∧ last.next.2.ahead = last.ahead.tail) := by
  have hrun := run_answers moves (ofStream source capacity)
  have hstart := sound_ofStream source capacity
  have hsound := hrun.sound hstart
  have htokens : tokens source = (Stream'.Seq.ofList _).append _ :=
    (Stream'.Seq.nil_append _).symm.trans hrun.ahead_eq
  refine ⟨_, _, rfl, ?_, ⟨_, htokens⟩, hsound.length_le, fun hclosed => ?_, hrun.take_eq,
    hrun.pairwise, next_eq_head hsound⟩
  · rw [htokens, ahead, inTransit, ← Stream'.Seq.append_assoc, ← Stream'.Seq.ofList_append,
      List.append_assoc]
  · have hdrained := hrun.drained_of_closed hstart hclosed
    rw [hdrained.ahead_eq, Stream'.Seq.append_nil] at htokens
    exact ⟨htokens, hdrained.act_receive⟩

/-- Without room in the channel each token waits in the producer's hand, and the consumer, which
has to wait for the second one, waits for the end too. -/
theorem hands_over_in_order_rendezvous :
    let a : Token := { kind := "a" }
    let b : Token := { kind := "b" }
    let moves := [.take, .send, .receive, .receive, .take, .receive, .take, .receive, .stop,
      .receive]
    ∃ last, answers act moves (ofStream (TokenList.mk [a, b]) 0) =
        ([.asked (some a), .quiet, .received a, .quiet, .asked (some b), .received b, .asked none,
          .quiet, .quiet, .closed], last) ∧
      tokens (TokenList.mk [a, b]) = .ofList [a, b] ∧
      TokenStream.take 3 (TokenList.mk [a, b]) = ([some a, some b, none], last.source) := by
  intro a b moves
  obtain ⟨events, last, hanswers, -, -, -, hclosed, hasked, -, -⟩ :=
    hands_over_in_order (TokenList.mk [a, b]) 0 moves
  have hevents : events = [.asked (some a), .quiet, .received a, .quiet, .asked (some b),
      .received b, .asked none, .quiet, .quiet, .closed] :=
    (congrArg Prod.fst hanswers).symm.trans (by decide +kernel)
  subst hevents
  exact ⟨last, hanswers, (hclosed (by simp)).1, hasked⟩

end Background

end Precedence
