import Precedence.Scanner.Buffer
import Precedence.Proofs.Scanner.Segmentation
import Precedence.Proofs.Scanner.Steps

/-!
# The bounds of the buffer

A buffer goes through its checked operations just as its intake goes through its own, and none of
them is ever without a result.  The buffer is filled only while fewer than `Intake.maxEncoded`
bytes are unread, so that every read is offered nearly all of it, and a read that brings nothing
has come to the end of the source, not of the buffer.
-/

namespace Precedence

namespace Cells

variable (cells : Cells)

theorem slice?_of_le {start stop : Nat} (hstart : start ≤ stop) (hstop : stop ≤ Intake.capacity) :
    cells.slice? start stop = some ((cells.toList.take stop).drop start) :=
  if_pos ⟨hstart, hstop⟩

theorem take_set {index : Nat} (hindex : index < Intake.capacity) (byte : UInt8) :
    (cells.set index byte).toList.take (index + 1) = cells.toList.take index ++ [byte] := by
  have hlength : index < cells.toList.length := by rwa [Vector.length_toList]
  rw [Vector.toList_set, List.take_add_one, List.take_set_of_le (Nat.le_refl index),
    List.getElem?_set_self hlength]
  rfl

/-- Where there are enough cells, writing leaves the cells before them as they were. -/
theorem exists_write {first : Nat} {bytes : List UInt8}
    (hroom : first + bytes.length ≤ Intake.capacity) :
    ∃ written, cells.write? first bytes = some written ∧
      written.toList.take (first + bytes.length) = cells.toList.take first ++ bytes := by
  induction bytes generalizing cells first with
  | nil => exact ⟨cells, rfl, (List.append_nil _).symm⟩
  | cons byte bytes ih =>
      have hfirst : first < Intake.capacity := by
        rw [List.length_cons] at hroom
        omega
      have hlength : first + (byte :: bytes).length = first + 1 + bytes.length := by
        rw [List.length_cons]
        omega
      obtain ⟨written, hwritten, htake⟩ := ih (cells.set first byte) (hlength ▸ hroom)
      refine ⟨written, ?_, ?_⟩
      · rw [write?, dif_pos hfirst, hwritten]
      · rw [hlength, htake, take_set cells hfirst byte, List.append_assoc]
        rfl

end Cells

namespace Intake

/-- A fill shifts the unread bytes to the front anyway. -/
theorem fill_front {intake : Intake} {source : List Delivery}
    (hsource : intake.source = some source) : { intake with start := 0 }.fill = intake.fill := by
  rw [fill, fill, hsource]
  rfl

/-- An intake that is empty decodes what its fill brings. -/
theorem decode_fill {intake : Intake} {byte : UInt8} {rest : List UInt8}
    (hempty : intake.unread = []) (hfilled : intake.fill.unread = byte :: rest) :
    intake.decode = intake.fill.decode := by
  simp only [decode, hempty, hfilled, List.isEmpty_nil, List.isEmpty_cons, if_true,
    Bool.false_eq_true, if_false]

theorem decode_of_end {intake : Intake} (hempty : intake.unread = [])
    (hfilled : intake.fill.unread = []) (hfailure : intake.fill.failure = none) :
    intake.decode = (.ok .eof, intake.fill) := by
  simp only [decode, hempty, List.isEmpty_nil, if_true, hfilled, hfailure]

theorem decode_of_failure {intake : Intake} {message : String} (hempty : intake.unread = [])
    (hfilled : intake.fill.unread = []) (hfailure : intake.fill.failure = some message) :
    intake.decode = (.error (.io message), { intake.fill with failure := none }) := by
  simp only [decode, hempty, List.isEmpty_nil, if_true, hfilled, hfailure]

theorem decode_cons {intake : Intake} {byte : UInt8} {rest : List UInt8}
    (hunread : intake.unread = byte :: rest) :
    intake.decode =
      if byte < 0x80 then (.ok (.char (Char.ofUInt8 byte)), intake.drop 1)
      else
        match scalar? (topUp maxEncoded intake).unread with
        | some c => (.ok (.char c), (topUp maxEncoded intake).drop c.utf8Size)
        | none => (.ok .undecodable, (topUp maxEncoded intake).drop 1) := by
  cases hscalar : scalar? (topUp maxEncoded intake).unread with
  | none | some c =>
      simp only [decode, hunread, List.isEmpty_cons, Bool.false_eq_true, if_false, hscalar]

theorem scalar?_take (bytes : List UInt8) : scalar? (bytes.take maxEncoded) = scalar? bytes := by
  rw [scalar?, List.take_take, Nat.min_self]
  rfl

theorem decodings_succ (n : Nat) (intake : Intake) :
    (decodings (n + 1) intake).2 = (decodings n intake).2.decode.2 := by
  induction n generalizing intake with
  | zero => rfl
  | succ n ih => exact ih intake.decode.2

end Intake

namespace Buffer

/-- The indices are in order and in the buffer, and every read was offered room for all but the
bytes of an unfinished encoding. -/
structure Sound (buffer : Buffer) : Prop where
  start_le_stop : buffer.start ≤ buffer.stop
  stop_le : buffer.stop ≤ Intake.capacity
  roomy : ∀ offer ∈ buffer.offers, Intake.capacity - 3 ≤ offer.space

/-- The run has a result, a sound buffer, and it is that of the intake. -/
def Reaches (run : Option Buffer) (intake : Intake) : Prop :=
  ∃ buffer, run = some buffer ∧ buffer.Sound ∧ buffer.intake = intake

/-- The run has a result, that of the intake, and leaves a sound buffer of the intake. -/
def Gives {A : Type} (run : Option (A × Buffer)) (outcome : A × Intake) : Prop :=
  ∃ buffer, run = some (outcome.1, buffer) ∧ buffer.Sound ∧ buffer.intake = outcome.2

variable {buffer : Buffer}

theorem Sound.length_unread (hsound : buffer.Sound) :
    buffer.unread.length = buffer.stop - buffer.start := by
  rw [unread, List.length_drop, List.length_take, Vector.length_toList,
    Nat.min_eq_left hsound.stop_le]

theorem Sound.size?_eq (hsound : buffer.Sound) : buffer.size? = some buffer.unread.length := by
  rw [size?, if_pos hsound.start_le_stop, hsound.length_unread]

theorem Sound.unread_eq_nil_iff (hsound : buffer.Sound) :
    buffer.unread = [] ↔ buffer.start = buffer.stop := by
  have hle := hsound.start_le_stop
  rw [← List.length_eq_zero_iff, hsound.length_unread]
  omega

theorem sound_ofDeliveries (source : List Delivery) : (ofDeliveries source).Sound where
  start_le_stop := Nat.le_refl 0
  stop_le := Nat.zero_le _
  roomy _ hmem := absurd hmem List.not_mem_nil

theorem Sound.reaches_shift (hsound : buffer.Sound) :
    Reaches buffer.shift? { buffer.intake with start := 0 } := by
  have hstop := hsound.stop_le
  rw [shift?]
  split
  · have hroom : 0 + buffer.unread.length ≤ Intake.capacity := by
      rw [hsound.length_unread]
      omega
    obtain ⟨cells, hwrite, htake⟩ := buffer.cells.exists_write hroom
    rw [Nat.zero_add, hsound.length_unread, List.take_zero, List.nil_append] at htake
    rw [buffer.cells.slice?_of_le hsound.start_le_stop hstop]
    change Reaches ((buffer.cells.write? 0 buffer.unread).bind _) _
    rw [hwrite]
    exact ⟨_, rfl, ⟨Nat.zero_le _, Nat.le_trans (Nat.sub_le _ _) hstop, hsound.roomy⟩,
      congrArg (Intake.mk buffer.source 0 · buffer.failure) htake⟩
  · next hstart =>
      have hzero : buffer.start = 0 := Nat.eq_zero_of_not_pos hstart
      exact ⟨buffer, rfl, hsound,
        congrArg (Intake.mk buffer.source · buffer.unread buffer.failure) hzero⟩

theorem receive?_of_le (hstop : buffer.stop ≤ Intake.capacity) (source : List Delivery) :
    buffer.receive? source =
      { buffer with offers := ⟨Intake.capacity - buffer.stop, source⟩ :: buffer.offers }.store?
        (Delivery.receive (Intake.capacity - buffer.stop) source) := by
  have hlength : ((buffer.cells.toList.take Intake.capacity).drop buffer.stop).length =
      Intake.capacity - buffer.stop := by
    rw [List.length_drop, List.length_take, Vector.length_toList, Nat.min_self]
  rw [receive?, buffer.cells.slice?_of_le hstop (Nat.le_refl _), ← hlength]
  rfl

/-- A read that finds the unread bytes in front is a fill of the intake.  It is offered enough
room if there are fewer of them than the longest encoding has. -/
theorem Sound.reaches_receive (hsound : buffer.Sound) {source : List Delivery}
    (hstart : buffer.start = 0) (hsource : buffer.source = some source)
    (hroom : buffer.unread.length < Intake.maxEncoded) :
    Reaches (buffer.receive? source) buffer.intake.fill := by
  have hspace : Intake.capacity - buffer.stop = buffer.intake.space := by
    have hlength := hsound.length_unread
    rw [hstart, Nat.sub_zero] at hlength
    rw [← hlength]
    rfl
  have hroomy : ∀ offer ∈ (⟨buffer.intake.space, source⟩ :: buffer.offers : List Offer),
      Intake.capacity - 3 ≤ offer.space := by
    refine List.forall_mem_cons.mpr ⟨?_, hsound.roomy⟩
    exact Nat.sub_le_sub_left (Nat.le_of_lt_succ hroom) _
  rw [receive?_of_le hsound.stop_le, hspace]
  have hfilling := buffer.intake.filling
  generalize buffer.intake.fill = filled at hfilling ⊢
  cases hfilling with
  | closed hclosed => cases hclosed.symm.trans hsource
  | finish hsome hread =>
      cases hsome.symm.trans hsource
      rw [hread]
      exact ⟨_, rfl, ⟨hsound.start_le_stop, hsound.stop_le, hroomy⟩,
        congrArg (Intake.mk none · buffer.unread buffer.failure) hstart⟩
  | @bytes _ rest byte chunk hsome hread =>
      cases hsome.symm.trans hsource
      have hlength : buffer.stop + (byte :: chunk).length ≤ Intake.capacity := by
        have hfits := Delivery.length_receive hread
        have hstop := hsound.stop_le
        omega
      obtain ⟨cells, hwrite, htake⟩ := buffer.cells.exists_write hlength
      rw [hread]
      change Reaches ((buffer.cells.write? buffer.stop (byte :: chunk)).bind _) _
      rw [hwrite]
      have hle := Nat.le_trans hsound.start_le_stop (Nat.le_add_right _ (byte :: chunk).length)
      have hunread : buffer.unread = buffer.cells.toList.take buffer.stop := by
        rw [unread, hstart, List.drop_zero]
      rw [← hunread] at htake
      refine ⟨_, rfl, ⟨hle, hlength, hroomy⟩, ?_⟩
      change Intake.mk (some rest) buffer.start (List.drop buffer.start _) buffer.failure = _
      rw [hstart, htake]
      rfl
  | failure hsome hread =>
      cases hsome.symm.trans hsource
      rw [hread]
      exact ⟨_, rfl, ⟨hsound.start_le_stop, hsound.stop_le, hroomy⟩,
        congrArg (Intake.mk none · buffer.unread _) hstart⟩

theorem Sound.reaches_fill (hsound : buffer.Sound)
    (hroom : buffer.unread.length < Intake.maxEncoded) :
    Reaches buffer.fill? buffer.intake.fill := by
  rw [fill?]
  cases hsource : buffer.source with
  | none =>
      have hclosed : buffer.intake.source = none := hsource
      exact ⟨buffer, rfl, hsound, by rw [Intake.fill, hclosed]⟩
  | some source =>
      -- The buffer shifts before it reads, where the intake does both at once.
      obtain ⟨shifted, hshift, hshifted, hintake⟩ := hsound.reaches_shift
      have hsame : shifted.intake.fill = buffer.intake.fill := by
        rw [hintake, Intake.fill_front hsource]
      change Reaches (buffer.shift?.bind _) _
      rw [hshift, ← hsame]
      obtain ⟨hlive, hstart, hunread, -⟩ := Intake.mk.inj hintake
      exact hshifted.reaches_receive hstart (hlive.trans hsource) (hunread ▸ hroom)

theorem Sound.topUp?_succ (hsound : buffer.Sound) (n : Nat) :
    topUp? (n + 1) buffer =
      if buffer.unread.length < Intake.maxEncoded ∧ buffer.source.isSome then
        buffer.fill?.bind (topUp? n)
      else some buffer := by
  rw [topUp?, hsound.size?_eq]
  rfl

/-- The loop of reads ends by itself: each round but the last brings a byte or closes the source. -/
theorem Sound.reaches_topUp (n : Nat) (hsound : buffer.Sound)
    (henough : buffer.source = none ∨ Intake.maxEncoded ≤ buffer.unread.length + n) :
    Reaches (topUp? (n + 1) buffer) (Intake.topUp n buffer.intake) := by
  rw [hsound.topUp?_succ]
  induction n generalizing buffer with
  | zero =>
      have hready : ¬(buffer.unread.length < Intake.maxEncoded ∧ buffer.source.isSome) := by
        rintro ⟨hshort, hsome⟩
        have hlong := henough.resolve_left (Option.isSome_iff_ne_none.mp hsome)
        exact absurd hshort (Nat.not_lt.mpr hlong)
      rw [if_neg hready]
      exact ⟨buffer, rfl, hsound, rfl⟩
  | succ n ih =>
      have hshort_iff : ((buffer.intake.unread.drop (Intake.maxEncoded - 1)).isEmpty &&
          buffer.intake.source.isSome) = true ↔
            buffer.unread.length < Intake.maxEncoded ∧ buffer.source.isSome := by
        rw [Bool.and_eq_true, List.isEmpty_iff, List.drop_eq_nil_iff]
        exact and_congr_left' Nat.lt_succ_iff.symm
      rw [Intake.topUp]
      by_cases hshort : buffer.unread.length < Intake.maxEncoded ∧ buffer.source.isSome
      · have hreads := henough.resolve_left (Option.isSome_iff_ne_none.mp hshort.2)
        rw [if_pos hshort, if_pos (hshort_iff.mpr hshort)]
        obtain ⟨filled, hfill, hfilled, hintake⟩ := hsound.reaches_fill hshort.1
        have hprogress := buffer.intake.filling.progress
        rw [← hintake] at hprogress ⊢
        rw [hfill, Option.bind_some, hfilled.topUp?_succ]
        apply ih hfilled
        rcases hprogress with hclosed | hgrown
        · exact .inl hclosed
        · change buffer.unread.length < filled.unread.length at hgrown
          exact .inr (by omega)
      · rw [if_neg hshort, if_neg (mt hshort_iff.mp hshort)]
        exact ⟨buffer, rfl, hsound, rfl⟩

theorem Sound.gives_advance {A : Type} (result : A) (hsound : buffer.Sound) {n : Nat}
    (hn : n ≤ buffer.unread.length) :
    Gives (some (result, { buffer with start := buffer.start + n }))
      (result, buffer.intake.drop n) := by
  have hle := hsound.start_le_stop
  rw [hsound.length_unread] at hn
  refine ⟨_, rfl, ⟨?_, hsound.stop_le, hsound.roomy⟩, ?_⟩
  · dsimp only
    omega
  · exact congrArg (Intake.mk buffer.source (buffer.start + n) · buffer.failure)
      List.drop_drop.symm

theorem Sound.window_eq (hsound : buffer.Sound) :
    buffer.cells.slice? buffer.start (min buffer.stop (buffer.start + Intake.maxEncoded)) =
      some (buffer.intake.unread.take Intake.maxEncoded) := by
  have hstart := hsound.start_le_stop
  have hstop := hsound.stop_le
  rw [buffer.cells.slice?_of_le (by omega) (by omega), intake, unread, List.drop_take,
    List.drop_take, List.take_take]
  congr 2
  omega

theorem Sound.gives_decodeFrom (hsound : buffer.Sound) {byte : UInt8} {rest : List UInt8}
    (hunread : buffer.intake.unread = byte :: rest) :
    Gives (buffer.decodeFrom? byte) buffer.intake.decode := by
  rw [Intake.decode_cons hunread, decodeFrom?]
  split
  · have hone : 1 ≤ buffer.intake.unread.length := by
      rw [hunread]
      exact Nat.succ_le_succ (Nat.zero_le _)
    exact hsound.gives_advance _ hone
  · obtain ⟨topped, htopUp, htopped, hintake⟩ :=
      hsound.reaches_topUp Intake.maxEncoded (.inr (Nat.le_add_left _ _))
    have hone : 1 ≤ topped.intake.unread.length := by
      obtain ⟨chunk, hchunk⟩ := (Intake.refills_topUp Intake.maxEncoded buffer.intake).unread_eq
      rw [hintake, hchunk, hunread]
      exact Nat.succ_le_succ (Nat.zero_le _)
    -- The window has all the bytes that a scalar value is looked for in.
    rw [htopUp, ← hintake]
    change Gives (Option.bind (topped.cells.slice? _ _) _) _
    rw [htopped.window_eq]
    dsimp only [Option.bind]
    rw [Intake.scalar?_take]
    cases hscalar : Intake.scalar? topped.intake.unread with
    | none => exact htopped.gives_advance _ hone
    | some c => exact htopped.gives_advance _ (Tape.utf8Size_le_of_scalar? hscalar)

theorem Sound.first_eq (hsound : buffer.Sound) {byte : UInt8} {rest : List UInt8}
    (hunread : buffer.unread = byte :: rest) : buffer.cells[buffer.start]? = some byte := by
  have hlt : buffer.start < buffer.stop := by
    have hlength := hsound.length_unread
    rw [hunread, List.length_cons] at hlength
    omega
  have hfirst : buffer.unread[0]? = some byte := by rw [hunread, List.getElem?_cons_zero]
  rw [unread, List.getElem?_drop, Nat.add_zero, List.getElem?_take_of_lt hlt] at hfirst
  rw [← hfirst, Vector.getElem?_toList]

theorem Sound.gives_decodeUnread (hsound : buffer.Sound) {byte : UInt8} {rest : List UInt8}
    (hunread : buffer.unread = byte :: rest) :
    Gives buffer.decodeUnread? buffer.intake.decode := by
  have hsome : ¬buffer.start = buffer.stop := by
    rw [← hsound.unread_eq_nil_iff, hunread]
    exact List.cons_ne_nil byte rest
  rw [decodeUnread?, if_neg hsome, hsound.first_eq hunread]
  exact hsound.gives_decodeFrom hunread

/-- A buffer that stays empty when it is filled gives the failure or the end. -/
theorem Sound.gives_end (hsound : buffer.Sound) {intake : Intake} (hempty : intake.unread = [])
    (hfilled : buffer.intake = intake.fill) (hunread : buffer.intake.unread = []) :
    Gives buffer.decodeUnread? intake.decode := by
  have hread : intake.fill.unread = [] := hfilled ▸ hunread
  rw [decodeUnread?, if_pos (hsound.unread_eq_nil_iff.mp hunread)]
  cases hfailure : buffer.failure with
  | none =>
      have hnone : intake.fill.failure = none := hfilled ▸ hfailure
      rw [Intake.decode_of_end hempty hread hnone]
      exact ⟨buffer, rfl, hsound, hfilled⟩
  | some message =>
      have hsome : intake.fill.failure = some message := hfilled ▸ hfailure
      rw [Intake.decode_of_failure hempty hread hsome, ← hfilled]
      exact ⟨_, rfl, ⟨hsound.start_le_stop, hsound.stop_le, hsound.roomy⟩, rfl⟩

theorem Sound.gives_decode (hsound : buffer.Sound) : Gives buffer.decode? buffer.intake.decode := by
  rw [decode?]
  split
  · next hempty =>
      have hunread : buffer.unread = [] := hsound.unread_eq_nil_iff.mpr hempty
      obtain ⟨filled, hfill, hfilled, hintake⟩ := hsound.reaches_fill (by rw [hunread]; decide)
      rw [hfill]
      change Gives filled.decodeUnread? _
      cases hread : filled.unread with
      | nil => exact hfilled.gives_end hunread hintake hread
      | cons byte rest =>
          have hfirst : buffer.intake.fill.unread = byte :: rest := hintake ▸ hread
          rw [Intake.decode_fill hunread hfirst, ← hintake]
          exact hfilled.gives_decodeUnread hread
  · next hfull =>
      have hsome : buffer.unread ≠ [] := mt hsound.unread_eq_nil_iff.mp hfull
      obtain ⟨byte, rest, hunread⟩ := List.exists_cons_of_ne_nil hsome
      exact hsound.gives_decodeUnread hunread

theorem Sound.gives_decodings (hsound : buffer.Sound) (n : Nat) :
    Gives (decodings? n buffer) (Intake.decodings n buffer.intake) := by
  induction n generalizing buffer with
  | zero => exact ⟨buffer, rfl, hsound, rfl⟩
  | succ n ih =>
      obtain ⟨next, hnext, hnext_sound, hintake⟩ := hsound.gives_decode
      obtain ⟨last, hlast, hlast_sound, hlast_intake⟩ := ih hnext_sound
      rw [hintake] at hlast hlast_intake
      refine ⟨last, ?_, hlast_sound, hlast_intake⟩
      rw [decodings?, hnext]
      change (decodings? n next).bind _ = _
      rw [hlast]
      rfl

/-- The bytes that the source has yet to deliver. -/
def toCome (buffer : Buffer) : List UInt8 := (buffer.source.elim ⟨[], none⟩ Tape.ofDeliveries).bytes

theorem bytes_tape_intake (buffer : Buffer) :
    buffer.intake.tape.bytes = buffer.unread ++ buffer.toCome := by
  cases hsource : buffer.source with
  | none =>
      have hclosed : buffer.intake.source = none := hsource
      rw [Intake.tape_none hclosed, toCome, hsource]
      exact (List.append_nil _).symm
  | some source =>
      have hopen : buffer.intake.source = some source := hsource
      rw [Intake.tape_some hopen, toCome, hsource]
      rfl

end Buffer

/-- With room, a read brings nothing just where the source has come to its end. -/
theorem Offer.arrival_eq_nil_iff {offer : Offer} (hspace : 0 < offer.space) :
    offer.arrival = .bytes [] ↔ Tape.ofDeliveries offer.source = ⟨[], none⟩ := by
  rw [← Delivery.tape_receive hspace, arrival]
  cases (Delivery.receive offer.space offer.source).1 with
  | bytes chunk =>
      cases chunk with
      | nil => exact iff_of_true rfl rfl
      | cons byte chunk => exact iff_of_false nofun nofun
  | failure message => exact iff_of_false nofun nofun

/-- Without room, one brings nothing although there is more to come. -/
example : Offer.arrival ⟨0, [.bytes [0x61]]⟩ = .bytes [] := rfl

namespace TextScanner

/-- All that the calls of a scanner do to its intake is to decode some runes. -/
theorem exists_decodings (source : List Delivery) (location : Location) (options : TextOptions)
    (n : Nat) :
    ∃ m, (Scanner.take n (new source location options)).2.intake =
      (Intake.decodings m (.ofDeliveries source)).2 := by
  apply (invariant_intake (P := fun intake =>
    ∃ m, intake = (Intake.decodings m (.ofDeliveries source)).2) ?_).take
  · exact ⟨0, rfl⟩
  · rintro _ ⟨m, rfl⟩
    exact ⟨m + 1, (Intake.decodings_succ m _).symm⟩

/-- After any number of calls, the intake is that of a buffer whose checked operations have all
had results, so that no index was ever out of range.  The unread bytes lie between its indices,
which are in order and in the buffer.  With what the source has yet to deliver they are just the
bytes of the pieces that are not decoded.  Each read was offered the whole buffer but for three
cells at most, and brought nothing just where the source came to its end.  A list of deliveries
has what a source does for as long as it is read, so this is about any source that brings no
more than there is room for. -/
theorem buffer_within_bounds (source : List Delivery) (location : Location)
    (options : TextOptions) (n : Nat) :
    ∃ m results buffer pieces,
      Buffer.decodings? m (.ofDeliveries source) = some (results, buffer) ∧
      (Scanner.take n (new source location options)).2.intake = buffer.intake ∧
      buffer.start ≤ buffer.stop ∧ buffer.stop ≤ Intake.capacity ∧
      Segments (Tape.ofDeliveries source).bytes pieces ∧
      results = (pieces.take m).map (fun piece => .ok piece.1) ++
        Tape.ending (Tape.ofDeliveries source).failure (m - pieces.length) ∧
      buffer.unread ++ buffer.toCome = (pieces.drop m).flatMap Prod.snd ∧
      ∀ offer ∈ buffer.offers, Intake.capacity - 3 ≤ offer.space ∧
        (offer.arrival = .bytes [] ↔ Tape.ofDeliveries offer.source = ⟨[], none⟩) := by
  obtain ⟨m, hintake⟩ := exists_decodings source location options n
  obtain ⟨buffer, hbuffer, hsound, hsame⟩ := (Buffer.sound_ofDeliveries source).gives_decodings m
  obtain ⟨pieces, hsegments⟩ := Segments.exists_pieces (Tape.ofDeliveries source).bytes
  obtain ⟨hresults, htape⟩ := hsegments.decodings_eq (Intake.sound_ofDeliveries source) rfl m
  refine ⟨m, _, buffer, pieces, hbuffer, hintake.trans hsame.symm, hsound.start_le_stop,
    hsound.stop_le, hsegments, hresults, ?_, ?_⟩
  · rw [← buffer.bytes_tape_intake, hsame]
    exact congrArg Tape.bytes htape
  · intro offer hoffer
    have hspace := hsound.roomy offer hoffer
    exact ⟨hspace, Offer.arrival_eq_nil_iff (Nat.lt_of_lt_of_le (by decide) hspace)⟩

end TextScanner

end Precedence
