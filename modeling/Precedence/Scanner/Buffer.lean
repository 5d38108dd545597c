import Precedence.Scanner.Intake

/-!
# The buffer of an intake, cell by cell

An intake speaks of unread bytes.  In memory they lie in the cells of a buffer, between two
indices that filling and decoding move.  Here every use of an index is checked: an operation has
no result if it would touch a cell that does not exist, or if the unread bytes would end before
they begin.  A buffer also keeps an account of the reads that were made for it.
-/

namespace Precedence

/-- A read as it was made: the room that it offered, and what the source had yet to deliver.  One
that is interrupted is made again with the same room. -/
structure Offer where
  space : Nat
  source : List Delivery

/-- What the read brought. -/
def Offer.arrival (offer : Offer) : Arrival := (Delivery.receive offer.space offer.source).1

abbrev Cells := Vector UInt8 Intake.capacity

namespace Cells

/-- The bytes from index `start` on, up to index `stop`. -/
def slice? (cells : Cells) (start stop : Nat) : Option (List UInt8) :=
  if start ≤ stop ∧ stop ≤ Intake.capacity then some ((cells.toList.take stop).drop start)
  else none

/-- Puts bytes into the cells from index `first` on. -/
def write? (cells : Cells) (first : Nat) : List UInt8 → Option Cells
  | [] => some cells
  | byte :: bytes =>
      if hfirst : first < Intake.capacity then write? (cells.set first byte) (first + 1) bytes
      else none

end Cells

structure Buffer where
  cells : Cells := Vector.replicate Intake.capacity 0
  /-- The index of the first unread byte. -/
  start : Nat := 0
  /-- The index behind the last unread byte. -/
  stop : Nat := 0
  /-- Missing once the source has ended or failed. -/
  source : Option (List Delivery)
  /-- A failure that waits for the unread bytes to be read. -/
  failure : Option String := none
  /-- The reads that were made, the latest first. -/
  offers : List Offer := []

namespace Buffer

def ofDeliveries (source : List Delivery) : Buffer := { source := some source }

/-- How many bytes are unread. -/
def size? (buffer : Buffer) : Option Nat :=
  if buffer.start ≤ buffer.stop then some (buffer.stop - buffer.start) else none

/-- Moves the unread bytes to the front of the cells. -/
def shift? (buffer : Buffer) : Option Buffer :=
  if 0 < buffer.start then do
    let unread ← buffer.cells.slice? buffer.start buffer.stop
    let cells ← buffer.cells.write? 0 unread
    return { buffer with cells, start := 0, stop := buffer.stop - buffer.start }
  else some buffer

/-- Takes in what a read brought, and what the source has left after it. -/
def store? : Arrival × List Delivery → Buffer → Option Buffer
  | (.bytes [], _), buffer => some { buffer with source := none }
  | (.bytes chunk, rest), buffer => do
      let cells ← buffer.cells.write? buffer.stop chunk
      return { buffer with cells, stop := buffer.stop + chunk.length, source := some rest }
  | (.failure message, _), buffer =>
      some { buffer with source := none, failure := some message }

/-- Reads once from the source, into all the cells behind the unread bytes. -/
def receive? (source : List Delivery) (buffer : Buffer) : Option Buffer := do
  let room ← buffer.cells.slice? buffer.stop Intake.capacity
  let noted := { buffer with offers := ⟨room.length, source⟩ :: buffer.offers }
  noted.store? (Delivery.receive room.length source)

def fill? (buffer : Buffer) : Option Buffer :=
  match buffer.source with
  | none => some buffer
  | some source => do
      let shifted ← buffer.shift?
      shifted.receive? source

/-- Reads until a whole encoded scalar value must be there or the source is gone.  There is no
result either if `n` rounds of the loop are not enough. -/
def topUp? : Nat → Buffer → Option Buffer
  | 0, _ => none
  | n + 1, buffer => do
      let size ← buffer.size?
      if size < Intake.maxEncoded ∧ buffer.source.isSome then
        let filled ← buffer.fill?
        topUp? n filled
      else return buffer

/-- Decodes the rune that starts with `byte`, the first unread one. -/
def decodeFrom? (byte : UInt8) (buffer : Buffer) : Option (Except Error Rune × Buffer) :=
  if byte < 0x80 then
    some (.ok (.char (Char.ofUInt8 byte)), { buffer with start := buffer.start + 1 })
  else do
    let topped ← topUp? (Intake.maxEncoded + 1) buffer
    let window ← topped.cells.slice? topped.start
      (min topped.stop (topped.start + Intake.maxEncoded))
    match Intake.scalar? window with
    | some c => some (.ok (.char c), { topped with start := topped.start + c.utf8Size })
    | none => some (.ok .undecodable, { topped with start := topped.start + 1 })

/-- Decodes one rune of the unread bytes.  Without any, the source is gone. -/
def decodeUnread? (buffer : Buffer) : Option (Except Error Rune × Buffer) :=
  if buffer.start = buffer.stop then
    match buffer.failure with
    | some message => some (.error (.io message), { buffer with failure := none })
    | none => some (.ok .eof, buffer)
  else do
    let byte ← buffer.cells[buffer.start]?
    buffer.decodeFrom? byte

def decode? (buffer : Buffer) : Option (Except Error Rune × Buffer) :=
  if buffer.start = buffer.stop then do
    let filled ← buffer.fill?
    filled.decodeUnread?
  else buffer.decodeUnread?

/-- The next `n` runes. -/
def decodings? : Nat → Buffer → Option (List (Except Error Rune) × Buffer)
  | 0, buffer => some ([], buffer)
  | n + 1, buffer => do
      let (result, buffer) ← buffer.decode?
      let (results, buffer) ← decodings? n buffer
      return (result :: results, buffer)

/-- The bytes between the indices. -/
def unread (buffer : Buffer) : List UInt8 :=
  (buffer.cells.toList.take buffer.stop).drop buffer.start

/-- The intake whose buffer this is. -/
def intake (buffer : Buffer) : Intake where
  source := buffer.source
  start := buffer.start
  unread := buffer.unread
  failure := buffer.failure

end Buffer

end Precedence
