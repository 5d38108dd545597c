import Precedence.Error

/-!
# Reading and decoding bytes

An intake reads a byte source through a buffer of `Intake.capacity` bytes and decodes UTF-8 from
it, one scalar value or one undecodable byte at a time.  A source that has ended or failed is
never read again, and a failure is reported once, after every byte that came before it.
-/

namespace Precedence

/-- One thing that a byte source does when it is read. -/
inductive Delivery
  | bytes (chunk : List UInt8)
  | interrupted
  | failure (message : String)
  | finish

/-- What a read brings; a read of no bytes is the end. -/
inductive Arrival
  | bytes (chunk : List UInt8)
  | failure (message : String)

/-- One read with room for `space` bytes.  Interruptions and empty chunks are passed over, and
what does not fit of a chunk is left for the next read. -/
def Delivery.receive (space : Nat) : List Delivery → Arrival × List Delivery
  | [] => (.bytes [], [])
  | .bytes chunk :: rest =>
      if chunk.isEmpty then receive space rest
      else if (chunk.drop space).isEmpty then (.bytes chunk, rest)
      else (.bytes (chunk.take space), .bytes (chunk.drop space) :: rest)
  | .interrupted :: rest => receive space rest
  | .failure message :: rest => (.failure message, rest)
  | .finish :: rest => (.bytes [], rest)

structure Intake where
  /-- Missing once the source has ended or failed. -/
  source : Option (List Delivery)
  /-- Where the unread bytes begin in the buffer. -/
  start : Nat := 0
  unread : List UInt8 := []
  /-- A failure that waits for the unread bytes to be read. -/
  failure : Option String := none

namespace Intake

def capacity : Nat := 4096

/-- No encoded scalar value is longer. -/
def maxEncoded : Nat := 4

def ofDeliveries (source : List Delivery) : Intake := { source := some source }

/-- Where the unread bytes end in the buffer. -/
def stop (intake : Intake) : Nat := intake.start + intake.unread.length

/-- The room that the next read is offered, once the unread bytes are shifted to the front. -/
def space (intake : Intake) : Nat := capacity - intake.unread.length

def drop (n : Nat) (intake : Intake) : Intake :=
  { intake with start := intake.start + n, unread := intake.unread.drop n }

/-- Shifts the unread bytes to the front of the buffer and reads once. -/
def fill (intake : Intake) : Intake :=
  match intake.source with
  | none => intake
  | some source =>
      match Delivery.receive intake.space source with
      | (.bytes [], _) => { intake with source := none, start := 0 }
      | (.bytes chunk, rest) =>
          { intake with source := some rest, start := 0, unread := intake.unread ++ chunk }
      | (.failure message, _) =>
          { intake with source := none, start := 0, failure := some message }

/-- Reads until a whole encoded scalar value must be there or the source is gone; each read
brings a byte or ends the source, so `maxEncoded` reads are enough. -/
def topUp : Nat → Intake → Intake
  | 0, intake => intake
  | n + 1, intake =>
      if (intake.unread.drop (maxEncoded - 1)).isEmpty && intake.source.isSome then
        topUp n intake.fill
      else intake

/-- The scalar value that starts the bytes, if they start with the encoding of one. -/
def scalar? (bytes : List UInt8) : Option Char :=
  (bytes.take maxEncoded).toByteArray.utf8DecodeChar? 0

/-- Decodes one rune.  An undecodable byte is taken alone. -/
def decode (intake : Intake) : Except Error Rune × Intake :=
  let intake := if intake.unread.isEmpty then intake.fill else intake
  match intake.unread with
  | [] =>
      match intake.failure with
      | some message => (.error (.io message), { intake with failure := none })
      | none => (.ok .eof, intake)
  | byte :: _ =>
      if byte < 0x80 then (.ok (.char (Char.ofUInt8 byte)), intake.drop 1)
      else
        let intake := topUp maxEncoded intake
        match scalar? intake.unread with
        | some c => (.ok (.char c), intake.drop c.utf8Size)
        | none => (.ok .undecodable, intake.drop 1)

end Intake

end Precedence
