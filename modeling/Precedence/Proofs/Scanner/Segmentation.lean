import Mathlib.Data.List.Basic
import Precedence.Proofs.Scanner.Layout

/-!
# Segmentation of bytes

Bytes are cut from the front into pieces, and each piece is read as one rune: the encoding of a
scalar value where the bytes begin with one, and else one byte alone, which is undecodable.  The
bytes leave no choice in this, and decoding cuts them in just this way, whatever window of the
buffer it looks at.
-/

namespace Precedence

open String (utf8EncodeChar)

/-- Some bytes cut into pieces, each with the rune that it is read as. -/
inductive Segments : List UInt8 → List (Rune × List UInt8) → Prop
  | nil : Segments [] []
  | scalar (c : Char) {bytes : List UInt8} {pieces : List (Rune × List UInt8)}
      (hrest : Segments bytes pieces) :
      Segments (utf8EncodeChar c ++ bytes) ((.char c, utf8EncodeChar c) :: pieces)
  | stray {byte : UInt8} {bytes : List UInt8} {pieces : List (Rune × List UInt8)}
      (hstray : ∀ c, ¬utf8EncodeChar c <+: byte :: bytes) (hrest : Segments bytes pieces) :
      Segments (byte :: bytes) ((.undecodable, [byte]) :: pieces)

/-- The next `n` runes that an intake decodes. -/
def Intake.decodings : Nat → Intake → List (Except Error Rune) × Intake
  | 0, intake => ([], intake)
  | n + 1, intake =>
      let (result, intake) := intake.decode
      let (results, intake) := decodings n intake
      (result :: results, intake)

namespace Encoding

/-- A byte that goes on with an encoding and begins none. -/
def Continues (byte : UInt8) : Prop := 0x80 ≤ byte.toNat ∧ byte.toNat < 0xC0

/-- The length of an encoding, as its first byte tells it. -/
def width (first : UInt8) : Nat :=
  if first.toNat < 0x80 then 1
  else if first.toNat < 0xE0 then 2
  else if first.toNat < 0xF0 then 3
  else 4

theorem encode_ascii {byte : UInt8} (hascii : byte < 0x80) :
    utf8EncodeChar (Char.ofUInt8 byte) = [byte] := by
  have hbyte : byte.toNat ≤ 127 := Nat.le_of_lt_succ (UInt8.lt_iff_toNat_lt.mp hascii)
  have hval : (Char.ofUInt8 byte).val = byte.toUInt32 := rfl
  simp [utf8EncodeChar, hval, hbyte]

theorem continues_cons (n : Nat) {rest : List UInt8} (hrest : ∀ byte ∈ rest, Continues byte) :
    ∀ byte ∈ UInt8.ofNat (n % 64 + 128) :: rest, Continues byte := by
  refine List.forall_mem_cons.mpr ⟨?_, hrest⟩
  rw [Continues, UInt8.toNat_ofNat']
  omega

theorem not_continues_ofNat {n : Nat} (hn : n % 256 < 0x80 ∨ 0xC0 ≤ n % 256) :
    ¬Continues (UInt8.ofNat n) := by
  rw [Continues, UInt8.toNat_ofNat']
  omega

/-- An encoding is a first byte that tells its length, and bytes that go on with it. -/
theorem encode_eq_cons (c : Char) :
    ∃ first rest, utf8EncodeChar c = first :: rest ∧ ¬Continues first ∧
      (∀ byte ∈ rest, Continues byte) ∧ width first = rest.length + 1 := by
  rw [utf8EncodeChar]
  generalize c.val.toNat = v
  have hnone := List.forall_mem_nil Continues
  have hone := continues_cons v hnone
  have htwo := continues_cons (v / 64) hone
  have hthree := continues_cons (v / 4096) htwo
  split
  · refine ⟨_, _, rfl, not_continues_ofNat (by omega), hnone, ?_⟩
    rw [width, UInt8.toNat_ofNat', if_pos (by omega)]
    rfl
  · split
    · refine ⟨_, _, rfl, not_continues_ofNat (by omega), hone, ?_⟩
      rw [width, UInt8.toNat_ofNat', if_neg (by omega), if_pos (by omega)]
      rfl
    · split
      · refine ⟨_, _, rfl, not_continues_ofNat (by omega), htwo, ?_⟩
        rw [width, UInt8.toNat_ofNat', if_neg (by omega), if_neg (by omega), if_pos (by omega)]
        rfl
      · refine ⟨_, _, rfl, not_continues_ofNat (by omega), hthree, ?_⟩
        rw [width, UInt8.toNat_ofNat', if_neg (by omega), if_neg (by omega), if_neg (by omega)]
        rfl

end Encoding

open Encoding

namespace Tape

theorem scalar?_eq_some_iff {bytes : List UInt8} {c : Char} :
    Intake.scalar? bytes = some c ↔ utf8EncodeChar c <+: bytes := by
  constructor
  · intro hscalar
    obtain ⟨later, hbytes⟩ := ByteArray.exists_of_utf8DecodeChar?_eq_some hscalar
    have hprefix : utf8EncodeChar c ++ later.data.toList = bytes.take Intake.maxEncoded := by
      simpa using (congrArg (fun array => array.data.toList) hbytes).symm
    exact List.IsPrefix.trans ⟨_, hprefix⟩ (List.take_prefix _ _)
  · rintro ⟨later, rfl⟩
    have hlength : (utf8EncodeChar c).length ≤ Intake.maxEncoded := by
      rw [String.length_utf8EncodeChar]
      exact Char.utf8Size_le_four c
    rw [Intake.scalar?, List.take_append, List.take_of_length_le hlength, List.toByteArray_append]
    exact ByteArray.utf8DecodeChar?_utf8EncodeChar_append

/-- Bytes begin with the encoding of one scalar value at most. -/
theorem eq_of_encodings {bytes : List UInt8} {c d : Char} (hc : utf8EncodeChar c <+: bytes)
    (hd : utf8EncodeChar d <+: bytes) : c = d :=
  Option.some.inj ((scalar?_eq_some_iff.mpr hc).symm.trans (scalar?_eq_some_iff.mpr hd))

theorem leading_of_encoding {byte : UInt8} {rest : List UInt8} {c : Char}
    (hc : utf8EncodeChar c <+: byte :: rest) :
    leading byte rest = (.char c, (utf8EncodeChar c).length) := by
  rw [leading]
  split
  · next hascii =>
      have hone : utf8EncodeChar (Char.ofUInt8 byte) <+: byte :: rest := by
        rw [encode_ascii hascii]
        exact ⟨rest, rfl⟩
      rw [eq_of_encodings hc hone, encode_ascii hascii]
      rfl
  · rw [scalar?_eq_some_iff.mpr hc, String.length_utf8EncodeChar]

theorem leading_of_stray {byte : UInt8} {rest : List UInt8}
    (hstray : ∀ c, ¬utf8EncodeChar c <+: byte :: rest) :
    leading byte rest = (.undecodable, 1) := by
  rw [leading]
  split
  · next hascii =>
      have hone : utf8EncodeChar (Char.ofUInt8 byte) <+: byte :: rest := by
        rw [encode_ascii hascii]
        exact ⟨rest, rfl⟩
      exact absurd hone (hstray _)
  · split
    · next c hscalar => exact absurd (scalar?_eq_some_iff.mp hscalar) (hstray c)
    · rfl

theorem leading_encode (c : Char) (bytes : List UInt8) :
    ∃ byte rest, utf8EncodeChar c ++ bytes = byte :: rest ∧
      leading byte rest = (.char c, (utf8EncodeChar c).length) := by
  obtain ⟨byte, tail, hencode, -⟩ := encode_eq_cons c
  refine ⟨byte, tail ++ bytes, by rw [hencode]; rfl, leading_of_encoding ⟨bytes, ?_⟩⟩
  rw [hencode]
  rfl

end Tape

namespace Segments

variable {bytes later : List UInt8} {pieces other : List (Rune × List UInt8)} {rune : Rune}
  {piece : List UInt8}

/-- The first piece is what is decoded first. -/
theorem decode_cons (hsegments : Segments bytes ((rune, piece) :: pieces))
    (failure : Option String) :
    ∃ rest, bytes = piece ++ rest ∧ Segments rest pieces ∧
      Tape.decode ⟨bytes, failure⟩ = (.ok rune, ⟨rest, failure⟩) := by
  cases hsegments with
  | @scalar c rest _ hrest =>
      refine ⟨rest, rfl, hrest, ?_⟩
      obtain ⟨byte, tail, hbytes, hleading⟩ := Tape.leading_encode c rest
      rw [hbytes, Tape.decode, hleading, ← hbytes, List.drop_left]
  | @stray byte rest _ hstray hrest =>
      refine ⟨rest, rfl, hrest, ?_⟩
      rw [Tape.decode, Tape.leading_of_stray hstray]
      rfl

theorem exists_pieces (bytes : List UInt8) : ∃ pieces, Segments bytes pieces := by
  induction hlength : bytes.length using Nat.strong_induction_on generalizing bytes with
  | h length ih =>
      subst hlength
      by_cases hscalar : ∃ c, utf8EncodeChar c <+: bytes
      · obtain ⟨c, rest, rfl⟩ := hscalar
        have hlonger : rest.length < (utf8EncodeChar c ++ rest).length := by
          rw [List.length_append, String.length_utf8EncodeChar]
          exact Nat.lt_add_of_pos_left c.utf8Size_pos
        obtain ⟨pieces, hrest⟩ := ih _ hlonger rest rfl
        exact ⟨_, .scalar c hrest⟩
      · cases bytes with
        | nil => exact ⟨[], .nil⟩
        | cons byte rest =>
            obtain ⟨pieces, hrest⟩ := ih _ (Nat.lt_succ_self _) rest rfl
            exact ⟨_, .stray (not_exists.mp hscalar) hrest⟩

theorem unique (hsegments : Segments bytes pieces) (hother : Segments bytes other) :
    other = pieces := by
  induction hsegments generalizing other with
  | nil =>
      generalize hbytes : ([] : List UInt8) = bytes at hother
      cases hother with
      | nil => rfl
      | scalar c =>
          exact absurd (List.append_eq_nil_iff.mp hbytes.symm).1 (String.utf8EncodeChar_ne_nil)
      | stray => exact absurd hbytes nofun
  | @scalar c rest pieces hrest ih =>
      generalize hbytes : utf8EncodeChar c ++ rest = bytes at hother
      cases hother with
      | nil => exact absurd (List.append_eq_nil_iff.mp hbytes).1 (String.utf8EncodeChar_ne_nil)
      | @scalar d rest' _ hrest' =>
          obtain rfl : c = d := Tape.eq_of_encodings ⟨rest, hbytes⟩ ⟨rest', rfl⟩
          obtain rfl := List.append_cancel_left hbytes
          rw [ih hrest']
      | stray hstray => exact absurd ⟨rest, hbytes⟩ (hstray c)
  | @stray byte rest pieces hstray hrest ih =>
      generalize hbytes : byte :: rest = bytes at hother
      cases hother with
      | nil => exact absurd hbytes nofun
      | @scalar d rest' => exact absurd ⟨rest', hbytes.symm⟩ (hstray d)
      | stray _ hrest' =>
          obtain ⟨rfl, rfl⟩ := List.cons.inj hbytes
          rw [ih hrest']

theorem flatMap_eq (hsegments : Segments bytes pieces) : pieces.flatMap Prod.snd = bytes := by
  induction hsegments with
  | nil => rfl
  | scalar c hrest ih => rw [List.flatMap_cons, ih]
  | stray hstray hrest ih =>
      rw [List.flatMap_cons, ih]
      rfl

theorem runes_eq (hsegments : Segments bytes pieces) :
    Tape.runes bytes = pieces.map Prod.fst := by
  induction hsegments with
  | nil => rfl
  | @scalar c rest pieces hrest ih =>
      obtain ⟨byte, tail, hbytes, hleading⟩ := Tape.leading_encode c rest
      rw [hbytes, Tape.runes_cons, hleading, ← hbytes, List.drop_left, ih]
      rfl
  | stray hstray hrest ih =>
      rw [Tape.runes_cons, Tape.leading_of_stray hstray]
      exact congrArg (_ :: ·) ih

/-- The encodings of some scalar values are cut into these encodings. -/
theorem of_encodings (text : List Char) :
    Segments (text.flatMap utf8EncodeChar) (text.map fun c => (.char c, utf8EncodeChar c)) := by
  induction text with
  | nil => exact .nil
  | cons c text ih => exact .scalar c ih

/-- Bytes that go on with an encoding which has not begun are cut one by one. -/
theorem of_continues {loose : List UInt8} (hloose : ∀ byte ∈ loose, Continues byte)
    (hlater : Segments later pieces) :
    Segments (loose ++ later) (loose.map (fun byte => (.undecodable, [byte])) ++ pieces) := by
  induction loose with
  | nil => exact hlater
  | cons byte loose ih =>
      obtain ⟨hbyte, hloose⟩ := List.forall_mem_cons.mp hloose
      refine .stray (fun c hprefix => ?_) (ih hloose)
      obtain ⟨first, rest, hencode, hfirst, -, -⟩ := encode_eq_cons c
      rw [hencode] at hprefix
      obtain ⟨rfl, -⟩ := List.cons_prefix_cons.mp hprefix
      exact hfirst hbyte

/-- An encoding that is cut short is cut into its bytes. -/
theorem of_truncated (c : Char) {k : Nat} (hk : k < (utf8EncodeChar c).length)
    (hhead : ∀ byte ∈ later.head?, ¬Continues byte) (hlater : Segments later pieces) :
    Segments ((utf8EncodeChar c).take k ++ later)
      (((utf8EncodeChar c).take k).map (fun byte => (.undecodable, [byte])) ++ pieces) := by
  obtain ⟨first, rest, hencode, -, hrest, hwidth⟩ := encode_eq_cons c
  rw [hencode] at hk ⊢
  cases k with
  | zero => exact hlater
  | succ k =>
      have hloose : ∀ byte ∈ rest.take k, Continues byte :=
        fun byte hmem => hrest byte (List.mem_of_mem_take hmem)
      refine .stray (fun d hprefix => ?_) (of_continues hloose hlater)
      obtain ⟨first', rest', hencode', -, hrest', hwidth'⟩ := encode_eq_cons d
      rw [hencode'] at hprefix
      obtain ⟨rfl, tail, htail⟩ := List.cons_prefix_cons.mp hprefix
      -- The first byte promises more bytes than are left of the encoding.
      have hlonger : k < rest'.length := by
        simp only [List.length_cons] at hk
        omega
      have hgoes : later.head? = some rest'[k] := by
        have hkth := congrArg (·[k]?) htail
        simp only [List.getElem?_append_left hlonger, List.getElem?_eq_getElem hlonger] at hkth
        rw [hkth, List.append_eq, List.getElem?_append_right (List.length_take_le k rest)]
        rw [List.length_take, Nat.min_eq_left (by simp at hk; omega), Nat.sub_self]
        exact List.head?_eq_getElem?
      exact hhead _ hgoes (hrest' _ (List.getElem_mem hlonger))

/-- Decoding goes from piece to piece and leaves the bytes of the pieces that are still to come. -/
theorem decodings_eq {intake : Intake} {failure : Option String} (hsegments : Segments bytes pieces)
    (hsound : intake.Sound) (htape : intake.tape = ⟨bytes, failure⟩) (n : Nat) :
    (Intake.decodings n intake).1 = (pieces.take n).map (fun piece => .ok piece.1) ++
        Tape.ending failure (n - pieces.length) ∧
      (Intake.decodings n intake).2.tape = ⟨(pieces.drop n).flatMap Prod.snd,
        failure.filter fun _ => n ≤ pieces.length⟩ := by
  induction n generalizing intake bytes pieces failure with
  | zero =>
      rw [List.drop_zero, hsegments.flatMap_eq, Nat.zero_sub]
      cases failure with
      | none => exact ⟨rfl, htape⟩
      | some message => exact ⟨rfl, htape⟩
  | succ n ih =>
      have hdecode := intake.tape_decode hsound
      have hrest := intake.sound_decode hsound
      rw [htape] at hdecode
      rcases hnext : intake.decode with ⟨result, next⟩
      rw [hnext] at hdecode hrest
      simp only [Intake.decodings, hnext]
      cases pieces with
      | nil =>
          -- Once the failure is reported, the tape ends like any other.
          obtain rfl := hsegments.flatMap_eq
          cases failure with
          | none | some =>
              obtain ⟨rfl, hstays⟩ := Prod.mk.inj hdecode
              obtain ⟨hresults, hlast⟩ := ih .nil hrest hstays.symm
              rw [List.take_nil, List.length_nil, Nat.sub_zero] at hresults ⊢
              rw [List.drop_nil] at hlast ⊢
              exact ⟨congrArg (_ :: ·) hresults, hlast⟩
      | cons piece pieces =>
          obtain ⟨rest, -, hlater, hpiece⟩ := decode_cons hsegments failure
          obtain ⟨rfl, hstays⟩ := Prod.mk.inj (hdecode.symm.trans hpiece)
          obtain ⟨hresults, hlast⟩ := ih hlater hrest hstays
          rw [hresults, hlast, List.length_cons, Nat.add_sub_add_right]
          simp only [Nat.add_le_add_iff_right]
          exact ⟨rfl, rfl⟩

end Segments

/-- The encodings of a text are decoded to its characters. -/
theorem Tape.runes_encodings (text : List Char) :
    runes (text.flatMap utf8EncodeChar) = text.map .char := by
  rw [(Segments.of_encodings text).runes_eq, List.map_map]
  rfl

namespace TextScanner

variable {options : TextOptions} {location : Location}

theorem runes_layout {runes : List Rune} (hruns : .undecodable ∉ runes) :
    (options.layout runes.length location (runes.map .ok)).map (Except.map Symbol.rune) =
      runes.map .ok := by
  induction runes generalizing location with
  | nil => rfl
  | cons rune runes ih =>
      obtain ⟨hrune, hruns⟩ := not_or.mp (mt List.mem_cons.mpr hruns)
      have hreport : report options.onBadEncoding (location.advance rune options.tabStop) rune =
          .ok ⟨rune, some (location.advance rune options.tabStop)⟩ := if_neg (Ne.symm hrune)
      simp only [List.map_cons, List.length_cons, TextOptions.layout, List.headD_cons,
        List.tail_cons, hreport, ih hruns]
      rfl

end TextScanner

/-- Text that has no line endings is read as it was encoded, whatever the line style. -/
theorem TextScanner.take_encodings {source : List Delivery} {text : List Char}
    (htape : Tape.ofDeliveries source = ⟨text.flatMap utf8EncodeChar, none⟩)
    (hreturn : '\r' ∉ text) (hnewline : '\n' ∉ text) (location : Location) (options : TextOptions)
    (n : Nat) :
    (Scanner.take (text.length + n) (new source location options)).1.map (Except.map Symbol.rune) =
      text.map (fun c => .ok (.char c)) ++ List.replicate n (.ok .eof) := by
  let runes := text.map Rune.char
  have hplain : options.lineStyle.normalize runes = runes := by
    apply LineStyle.normalize_of_plain
    · simpa [runes, Rune.newline] using hnewline
    · simpa [runes, Rune.carriageReturn] using hreturn
  have hclean : .undecodable ∉ runes := by simp [runes]
  calc (Scanner.take (text.length + n) (new source location options)).1.map (Except.map Symbol.rune)
      = (options.layout (runes.length + n) location (runes.map .ok ++ [])).map
          (Except.map Symbol.rune) := by
        rw [take_new htape, Tape.runes_encodings, LineStyle.results, hplain, List.length_map]
        rfl
    _ = (options.layout runes.length location (runes.map .ok)).map (Except.map Symbol.rune) ++
          (options.layout n (options.after location (runes.map .ok)) []).map
            (Except.map Symbol.rune) := by
        rw [options.layout_runes, List.map_append]
    _ = runes.map .ok ++ List.replicate n (.ok .eof) := by
        rw [runes_layout hclean, options.layout_nil, List.map_replicate]
        rfl
    _ = text.map (fun c => .ok (.char c)) ++ List.replicate n (.ok .eof) := by
        rw [List.map_map]
        rfl

/-- The bytes that a source delivers are cut into pieces in one way only, and nothing of them is
lost.  Decoding gives the rune of each piece in turn, and then the end for ever, and leaves just the
pieces that are still to come.  An encoding that is cut short is cut into single bytes; the
encodings of a text are cut into themselves, so that a text without line endings is read as it
was. -/
theorem bytes_decoded_in_segments {source : List Delivery} {bytes : List UInt8}
    (htape : Tape.ofDeliveries source = ⟨bytes, none⟩) :
    ∃ pieces, Segments bytes pieces ∧ (∀ other, Segments bytes other → other = pieces) ∧
      pieces.flatMap Prod.snd = bytes ∧
      (∀ n, (Intake.decodings n (.ofDeliveries source)).1 =
          (pieces.take n).map (fun piece => .ok piece.1) ++
            List.replicate (n - pieces.length) (.ok .eof) ∧
        (Intake.decodings n (.ofDeliveries source)).2.tape =
          ⟨(pieces.drop n).flatMap Prod.snd, none⟩) ∧
      (∀ c k later after, bytes = (utf8EncodeChar c).take k ++ later →
        k < (utf8EncodeChar c).length → (∀ byte ∈ later.head?, ¬Continues byte) →
        Segments later after →
          pieces = ((utf8EncodeChar c).take k).map (fun byte => (.undecodable, [byte])) ++ after) ∧
      ∀ text : List Char, bytes = text.flatMap utf8EncodeChar → '\r' ∉ text → '\n' ∉ text →
        ∀ location options n,
          (Scanner.take (text.length + n) (TextScanner.new source location options)).1.map
              (Except.map Symbol.rune) =
            text.map (fun c => .ok (.char c)) ++ List.replicate n (.ok .eof) := by
  obtain ⟨pieces, hsegments⟩ := Segments.exists_pieces bytes
  refine ⟨pieces, hsegments, fun other hother => hsegments.unique hother, hsegments.flatMap_eq,
    hsegments.decodings_eq (Intake.sound_ofDeliveries source) htape, ?_, ?_⟩
  · rintro c k later after rfl hk hhead hlater
    exact (hsegments.unique (.of_truncated c hk hhead hlater)).symm
  · rintro text rfl hreturn hnewline location options n
    exact TextScanner.take_encodings htape hreturn hnewline location options n

/-- A sign that is cut short, across two reads, and a text whose last character is. -/
theorem bytes_decoded_in_segments_euro :
    (Intake.decodings 4 (.ofDeliveries [.bytes [0xE2], .interrupted, .bytes [0x82, 0x41]])).1 =
        [.ok .undecodable, .ok .undecodable, .ok (.char 'A'), .ok .eof] ∧
      (Scanner.take (2 + 1) (TextScanner.new [.bytes [0x61, 0xC3], .bytes [0xA9]] (.ofFile "x")
        { lineStyle := .mac })).1.map (Except.map Symbol.rune) =
          [.ok (.char 'a'), .ok (.char 'é'), .ok .eof] := by
  constructor
  · have htape : Tape.ofDeliveries [.bytes [0xE2], .interrupted, .bytes [0x82, 0x41]] =
        ⟨[0xE2, 0x82, 0x41], none⟩ := by decide
    obtain ⟨pieces, -, -, -, hdecodings, hcut, -⟩ := bytes_decoded_in_segments htape
    have hpieces := hcut '€' 2 [0x41] _ (by decide) (by decide)
      (by simp [Encoding.Continues]) (.scalar 'A' .nil)
    obtain ⟨hresults, -⟩ := hdecodings 4
    rw [hresults, hpieces]
    rfl
  · have htape : Tape.ofDeliveries [.bytes [0x61, 0xC3], .bytes [0xA9]] =
        ⟨[0x61, 0xC3, 0xA9], none⟩ := by decide
    obtain ⟨pieces, -, -, -, -, -, htext⟩ := bytes_decoded_in_segments htape
    exact htext ['a', 'é'] (by decide) (by decide) (by decide) (.ofFile "x") { lineStyle := .mac } 1

end Precedence
