import Precedence.Scanner.Intake

/-!
# The tape behind a byte source

However its reads are cut, a source delivers one sequence of bytes and then ends or fails: its
tape.  An intake holds its tape in two pieces, the unread bytes of the buffer and what the source
has still to deliver.  Filling the buffer moves the cut between them, and decoding takes from the
front what it would take if all the bytes were there at once.
-/

namespace Precedence

/-- The bytes that are still to come and the failure, if any, that comes after them. -/
structure Tape where
  bytes : List UInt8
  failure : Option String
  deriving DecidableEq

namespace Tape

def prepend (chunk : List UInt8) (tape : Tape) : Tape := ⟨chunk ++ tape.bytes, tape.failure⟩

theorem prepend_prepend (first second : List UInt8) (tape : Tape) :
    (tape.prepend second).prepend first = tape.prepend (first ++ second) := by
  simp [prepend]

/-- What a source delivers up to its first end or failure. -/
def ofDeliveries : List Delivery → Tape
  | [] => ⟨[], none⟩
  | .bytes chunk :: rest => (ofDeliveries rest).prepend chunk
  | .interrupted :: rest => ofDeliveries rest
  | .failure message :: _ => ⟨[], some message⟩
  | .finish :: _ => ⟨[], none⟩

/-- The rune at the front of some bytes and the number of bytes it takes. -/
def leading (byte : UInt8) (rest : List UInt8) : Rune × Nat :=
  if byte < 0x80 then (.char (Char.ofUInt8 byte), 1)
  else
    match Intake.scalar? (byte :: rest) with
    | some c => (.char c, c.utf8Size)
    | none => (.undecodable, 1)

/-- Decodes one rune from bytes that are all there. -/
def decode : Tape → Except Error Rune × Tape
  | ⟨[], some message⟩ => (.error (.io message), ⟨[], none⟩)
  | ⟨[], none⟩ => (.ok .eof, ⟨[], none⟩)
  | ⟨byte :: rest, failure⟩ =>
      (.ok (leading byte rest).1, ⟨(byte :: rest).drop (leading byte rest).2, failure⟩)

/-- What the next `n` decodings give once the bytes are used up: the failure, and then the end. -/
def ending : Option String → Nat → List (Except Error Rune)
  | none, n => List.replicate n (.ok .eof)
  | some _, 0 => []
  | some message, n + 1 => .error (.io message) :: List.replicate n (.ok .eof)

theorem leading_pos (byte : UInt8) (rest : List UInt8) : 0 < (leading byte rest).2 := by
  rw [leading]
  split
  · exact Nat.one_pos
  · split
    · exact Char.utf8Size_pos _
    · exact Nat.one_pos

theorem utf8Size_le_of_scalar? {bytes : List UInt8} {c : Char}
    (hscalar : Intake.scalar? bytes = some c) : c.utf8Size ≤ bytes.length := by
  have hsize := ByteArray.le_size_of_utf8DecodeChar?_eq_some hscalar
  rw [List.size_toByteArray, List.length_take] at hsize
  omega

theorem leading_le (byte : UInt8) (rest : List UInt8) :
    (leading byte rest).2 ≤ (byte :: rest).length := by
  rw [leading]
  split
  · exact Nat.succ_le_succ (Nat.zero_le _)
  · split
    · next hscalar => exact utf8Size_le_of_scalar? hscalar
    · exact Nat.succ_le_succ (Nat.zero_le _)

theorem scalar?_append {bytes : List UInt8} (later : List UInt8)
    (hwhole : Intake.maxEncoded ≤ bytes.length) :
    Intake.scalar? (bytes ++ later) = Intake.scalar? bytes := by
  rw [Intake.scalar?, Intake.scalar?, List.take_append_of_le_length hwhole]

/-- The first `Intake.maxEncoded` bytes decide the front rune. -/
theorem leading_append (byte : UInt8) (rest later : List UInt8)
    (hready : later = [] ∨ byte < 0x80 ∨ Intake.maxEncoded ≤ (byte :: rest).length) :
    leading byte (rest ++ later) = leading byte rest := by
  rcases hready with rfl | hascii | hwhole
  · rw [List.append_nil]
  · rw [leading, leading, if_pos hascii, if_pos hascii]
  · rw [leading, leading, ← List.cons_append, scalar?_append later hwhole]

/-- The runes of some bytes, of which the first `skip` belong to a rune already counted. -/
def runesFrom : Nat → List UInt8 → List Rune
  | _, [] => []
  | skip + 1, _ :: rest => runesFrom skip rest
  | 0, byte :: rest => (leading byte rest).1 :: runesFrom ((leading byte rest).2 - 1) rest

def runes (bytes : List UInt8) : List Rune := runesFrom 0 bytes

theorem runesFrom_eq_runes_drop (skip : Nat) (bytes : List UInt8) :
    runesFrom skip bytes = runes (bytes.drop skip) := by
  induction bytes generalizing skip with
  | nil =>
      rw [List.drop_nil]
      cases skip <;> rfl
  | cons byte rest ih =>
      cases skip with
      | zero => rfl
      | succ skip => exact ih skip

theorem runes_cons (byte : UInt8) (rest : List UInt8) :
    runes (byte :: rest) =
      (leading byte rest).1 :: runes ((byte :: rest).drop (leading byte rest).2) := by
  obtain ⟨width, hwidth⟩ := Nat.exists_eq_succ_of_ne_zero (Nat.ne_of_gt (leading_pos byte rest))
  rw [runes, runesFrom, runesFrom_eq_runes_drop, hwidth]
  rfl

theorem leading_ne_eof (byte : UInt8) (rest : List UInt8) : (leading byte rest).1 ≠ .eof := by
  rw [leading]
  split
  · exact nofun
  · split
    · exact nofun
    · exact nofun

theorem eof_notMem_runesFrom (skip : Nat) (bytes : List UInt8) : .eof ∉ runesFrom skip bytes := by
  induction bytes generalizing skip with
  | nil =>
      cases skip with
      | zero | succ => exact List.not_mem_nil
  | cons byte rest ih =>
      cases skip with
      | zero =>
          rw [runesFrom, List.mem_cons, not_or]
          exact ⟨(leading_ne_eof byte rest).symm, ih _⟩
      | succ skip => exact ih skip

theorem eof_notMem_runes (bytes : List UInt8) : .eof ∉ runes bytes := eof_notMem_runesFrom 0 bytes

theorem decode_of_runes_cons {tape : Tape} {rune : Rune} {text : List Rune}
    (hrunes : runes tape.bytes = rune :: text) :
    rune ≠ .eof ∧
      ∃ bytes, tape.decode = (.ok rune, ⟨bytes, tape.failure⟩) ∧ runes bytes = text := by
  obtain ⟨bytes, failure⟩ := tape
  cases bytes with
  | nil => exact absurd hrunes nofun
  | cons byte rest =>
      rw [runes_cons] at hrunes
      obtain ⟨rfl, rfl⟩ := List.cons.inj hrunes
      exact ⟨leading_ne_eof byte rest, _, rfl, rfl⟩

theorem eq_nil_of_runes_nil {bytes : List UInt8} (hrunes : runes bytes = []) : bytes = [] := by
  cases bytes with
  | nil => rfl
  | cons byte rest =>
      rw [runes_cons] at hrunes
      exact absurd hrunes nofun

end Tape

/-- What a read of a source leaves to be read after it, the bytes it brought included. -/
def Arrival.tape (later : Tape) : Arrival → Tape
  | .bytes [] => ⟨[], none⟩
  | .bytes chunk => later.prepend chunk
  | .failure message => ⟨[], some message⟩

namespace Delivery

theorem tape_receive {space : Nat} (hspace : 0 < space) (source : List Delivery) :
    (receive space source).1.tape (Tape.ofDeliveries (receive space source).2) =
      Tape.ofDeliveries source := by
  fun_induction receive space source with
  | case1 => rfl
  | case2 chunk rest hempty ih =>
      rw [List.isEmpty_iff.mp hempty]
      exact ih
  | case3 chunk rest hchunk hfits =>
      cases chunk with
      | nil => exact absurd rfl hchunk
      | cons => rfl
  | case4 chunk rest hchunk hfits =>
      cases chunk with
      | nil => exact absurd rfl hchunk
      | cons byte chunk =>
          obtain ⟨space, rfl⟩ := Nat.exists_eq_succ_of_ne_zero (Nat.ne_of_gt hspace)
          change ((Tape.ofDeliveries rest).prepend _).prepend _ = _
          rw [Tape.prepend_prepend, List.take_append_drop]
          rfl
  | case5 rest ih => exact ih
  | case6 => rfl
  | case7 => rfl

theorem length_receive {space : Nat} {source rest : List Delivery} {chunk : List UInt8}
    (hread : receive space source = (.bytes chunk, rest)) : chunk.length ≤ space := by
  fun_induction receive space source with
  | case1 | case7 =>
      cases hread
      exact Nat.zero_le _
  | case2 _ _ _ ih => exact ih hread
  | case3 _ _ _ hfits =>
      cases hread
      simpa using hfits
  | case4 chunk =>
      cases hread
      exact List.length_take_le space chunk
  | case5 _ ih => exact ih hread
  | case6 => cases hread

end Delivery

end Precedence
