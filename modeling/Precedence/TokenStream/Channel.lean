import Precedence.Token
import Precedence.Text.Record

/-!
# Bounded token channels

A channel holds at most `capacity` tokens in the order they were sent.  Its receiving end learns
that it is closed when it is empty and no sender is left; a sender whose receiver is gone gets
its token back.
-/

namespace Precedence

structure Channel where
  capacity : Nat
  queue : List Token
  senders : Nat
  receiver : Bool

/-- What comes of sending a token. -/
inductive Sending
  | sent
  /-- The sender has to wait for room. -/
  | blocked
  | returned (token : Token)

/-- What comes of asking for a token. -/
inductive Receiving
  | token (token : Token)
  /-- The receiver has to wait for a token. -/
  | blocked
  | closed

namespace Channel

def ofCapacity (capacity : Nat) : Channel := ⟨capacity, [], 1, true⟩

def queued (channel : Channel) : Nat := channel.queue.length

def send (token : Token) (channel : Channel) : Sending × Channel :=
  if !channel.receiver then (.returned token, channel)
  else if channel.queued < channel.capacity then
    (.sent, { channel with queue := channel.queue ++ [token] })
  else (.blocked, channel)

def receive (channel : Channel) : Receiving × Channel :=
  match channel.queue with
  | token :: queue => (.token token, { channel with queue })
  | [] => (if channel.senders = 0 then .closed else .blocked, channel)

def addSender (channel : Channel) : Channel := { channel with senders := channel.senders + 1 }

def dropSender (channel : Channel) : Channel := { channel with senders := channel.senders - 1 }

/-- The tokens in the channel stay queued, although nobody will receive them. -/
def dropReceiver (channel : Channel) : Channel := { channel with receiver := false }

def inspectSender (channel : Channel) : String :=
  Text.record "TokenSender" [("queued", toString channel.queued)]

/-- The receiving end; `attached` tells whether it still has a producer to wait for. -/
def inspectReceiver (attached : Bool) (channel : Channel) : String :=
  Text.record "AsyncTokenStream" [("queued", toString channel.queued),
    ("producer", Text.truth attached)]

end Channel

end Precedence
