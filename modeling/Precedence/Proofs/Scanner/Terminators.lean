import Precedence.Proofs.Scanner.Segmentation

/-!
# Texts that differ in their line terminators

The lines of a text may be ended by line feeds, by carriage returns or by both together.  A scanner
that is not told which takes the first line ending for all of them, and then gives the same symbols
at the same places for all three.  The bytes of a line are decoded alike whichever terminator comes
after them, for no terminator goes on with an encoding.
-/

namespace Precedence

open String (utf8EncodeChar)

/-- What ends the lines of a text. -/
inductive Terminator
  | lf
  | cr
  | crlf
  deriving DecidableEq

namespace Terminator

def bytes : Terminator → List UInt8
  | .lf => [0x0A]
  | .cr => [0x0D]
  | .crlf => [0x0D, 0x0A]

def runes : Terminator → List Rune
  | .lf => [.newline]
  | .cr => [.carriageReturn]
  | .crlf => [.carriageReturn, .newline]

def style : Terminator → LineStyle
  | .lf => .unix
  | .cr => .mac
  | .crlf => .dos

end Terminator

/-- Lines with an ending between each two of them, and after the last one if that is terminated
too. -/
def endLines {α : Type} (ending : List α) (terminated : Bool) (lines : List (List α)) : List α :=
  ending.intercalate lines ++ if terminated then ending else []

section Lines

variable {α : Type} (ending : List α) (terminated : Bool)

theorem endLines_singleton (line : List α) :
    endLines ending terminated [line] = line ++ endLines ending terminated [] := by
  rw [endLines, endLines, List.intercalate_singleton, List.intercalate_nil, List.nil_append]

theorem endLines_cons_cons (line next : List α) (lines : List (List α)) :
    endLines ending terminated (line :: next :: lines) =
      line ++ (ending ++ endLines ending terminated (next :: lines)) := by
  rw [endLines, endLines, List.intercalate_cons_cons]
  simp only [List.append_assoc]

theorem mem_endLines {ending : List α} {terminated : Bool} {lines : List (List α)} {x : α}
    (hmem : x ∈ endLines ending terminated lines) : x ∈ ending ∨ ∃ line ∈ lines, x ∈ line := by
  induction lines with
  | nil =>
      cases terminated with
      | false => exact absurd hmem List.not_mem_nil
      | true => exact .inl hmem
  | cons line lines ih =>
      have hlater : (x ∈ ending ∨ ∃ line ∈ lines, x ∈ line) →
          x ∈ ending ∨ ∃ other ∈ line :: lines, x ∈ other :=
        Or.imp_right fun ⟨other, hother, hx⟩ => ⟨other, List.mem_cons_of_mem line hother, hx⟩
      have hline : x ∈ line → ∃ other ∈ line :: lines, x ∈ other :=
        fun hx => ⟨line, List.mem_cons_self, hx⟩
      cases lines with
      | nil =>
          rw [endLines_singleton, List.mem_append] at hmem
          exact hmem.elim (fun hx => .inr (hline hx)) fun hx => hlater (ih hx)
      | cons next lines =>
          rw [endLines_cons_cons, List.mem_append, List.mem_append] at hmem
          rcases hmem with hx | hx | hx
          · exact .inr (hline hx)
          · exact .inl hx
          · exact hlater (ih hx)

end Lines

namespace Segments

open Encoding

variable {bytes later : List UInt8} {pieces after : List (Rune × List UInt8)}

/-- No encoding reaches over into bytes that do not go on with one. -/
theorem encoding_of_append {c : Char} (hnonempty : bytes ≠ [])
    (hhead : ∀ byte ∈ later.head?, ¬Continues byte)
    (hencoding : utf8EncodeChar c <+: bytes ++ later) : utf8EncodeChar c <+: bytes := by
  rcases List.prefix_or_prefix_of_prefix hencoding (List.prefix_append bytes later) with
    hwithin | ⟨tail, htail⟩
  · exact hwithin
  cases tail with
  | nil =>
      rw [List.append_nil] at htail
      exact ⟨[], (List.append_nil _).trans htail.symm⟩
  | cons byte tail =>
      -- The encoding would go on with the first of the later bytes.
      rw [← htail, List.prefix_append_right_inj] at hencoding
      obtain ⟨rest, rfl⟩ := hencoding
      obtain ⟨first, continuing, hencode, -, hcontinuing, -⟩ := encode_eq_cons c
      obtain ⟨start, middle, rfl⟩ := List.exists_cons_of_ne_nil hnonempty
      rw [hencode, List.cons_append] at htail
      obtain ⟨-, rfl⟩ := List.cons.inj htail
      exact absurd (hcontinuing byte (by simp)) (hhead byte rfl)

/-- Bytes are cut alike whatever comes after them, unless it goes on with an encoding. -/
theorem append (hhead : ∀ byte ∈ later.head?, ¬Continues byte) (hsegments : Segments bytes pieces)
    (hlater : Segments later after) : Segments (bytes ++ later) (pieces ++ after) := by
  induction hsegments with
  | nil => exact hlater
  | scalar c hrest ih =>
      rw [List.append_assoc]
      exact .scalar c ih
  | stray hstray hrest ih =>
      exact .stray (fun c hencoding =>
        hstray c (encoding_of_append (List.cons_ne_nil _ _) hhead hencoding)) ih

/-- The encoding of a character that is decoded is there. -/
theorem encoding_subset (hsegments : Segments bytes pieces) {c : Char}
    (hmem : .char c ∈ pieces.map Prod.fst) : utf8EncodeChar c ⊆ bytes := by
  induction hsegments with
  | nil => exact absurd hmem List.not_mem_nil
  | scalar d hrest ih =>
      rcases List.mem_cons.mp hmem with hhead | htail
      · cases hhead
        exact List.subset_append_left _ _
      · exact List.subset_append_of_subset_right _ (ih htail)
  | stray hstray hrest ih =>
      rcases List.mem_cons.mp hmem with hhead | htail
      · exact absurd hhead nofun
      · exact List.subset_cons_of_subset _ (ih htail)

end Segments

namespace Tape

open Encoding

theorem runes_append {later : List UInt8} (hhead : ∀ byte ∈ later.head?, ¬Continues byte)
    (bytes : List UInt8) : runes (bytes ++ later) = runes bytes ++ runes later := by
  obtain ⟨pieces, hsegments⟩ := Segments.exists_pieces bytes
  obtain ⟨after, hlater⟩ := Segments.exists_pieces later
  rw [(hsegments.append hhead hlater).runes_eq, hsegments.runes_eq, hlater.runes_eq,
    List.map_append]

theorem encoding_subset_of_mem_runes {bytes : List UInt8} {c : Char}
    (hmem : .char c ∈ runes bytes) : utf8EncodeChar c ⊆ bytes := by
  obtain ⟨pieces, hsegments⟩ := Segments.exists_pieces bytes
  rw [hsegments.runes_eq] at hmem
  exact hsegments.encoding_subset hmem

theorem runes_ascii {byte : UInt8} (hascii : byte < 0x80) (later : List UInt8) :
    runes (byte :: later) = .char (Char.ofUInt8 byte) :: runes later := by
  rw [runes_cons, leading, if_pos hascii]
  rfl

end Tape

namespace Terminator

open Encoding

variable (terminator : Terminator)

theorem not_continues_head (later : List UInt8) :
    ∀ byte ∈ (terminator.bytes ++ later).head?, ¬Continues byte := by
  intro byte hbyte
  cases terminator with
  | lf | cr | crlf =>
      cases hbyte
      rw [Continues]
      decide

theorem runes_bytes_append (later : List UInt8) :
    Tape.runes (terminator.bytes ++ later) = terminator.runes ++ Tape.runes later := by
  cases terminator with
  | lf => exact Tape.runes_ascii (by decide) later
  | cr => exact Tape.runes_ascii (by decide) later
  | crlf =>
      calc Tape.runes (0x0D :: 0x0A :: later)
          = .carriageReturn :: Tape.runes (0x0A :: later) := Tape.runes_ascii (by decide) _
        _ = .carriageReturn :: .newline :: Tape.runes later :=
          congrArg _ (Tape.runes_ascii (by decide) later)

/-- Lines are decoded one by one. -/
theorem runes_endLines (terminated : Bool) (lines : List (List UInt8)) :
    Tape.runes (endLines terminator.bytes terminated lines) =
      endLines terminator.runes terminated (lines.map Tape.runes) := by
  induction lines with
  | nil =>
      cases terminator with
      | lf | cr | crlf => cases terminated <;> rfl
  | cons line lines ih =>
      cases lines with
      | nil =>
          have hhead : ∀ byte ∈ (endLines terminator.bytes terminated []).head?,
              ¬Continues byte := by
            cases terminated with
            | false => exact nofun
            | true => simpa [endLines] using terminator.not_continues_head []
          rw [endLines_singleton, Tape.runes_append hhead, ih, List.map_singleton,
            endLines_singleton]
          rfl
      | cons next lines =>
          rw [endLines_cons_cons, Tape.runes_append (terminator.not_continues_head _),
            runes_bytes_append, ih]
          simp only [List.map_cons, endLines_cons_cons]

end Terminator

namespace LineStyle

/-- A terminator becomes a newline in its own style, and gives its style to a text that has none.
A carriage return is taken for a terminator unless a line feed comes after it. -/
theorem normalize_terminator_append {style : LineStyle} {terminator : Terminator}
    (hstyle : style = .unknown ∨ style = terminator.style) {later : List Rune}
    (hlater : terminator = .cr → .newline ∉ later) :
    style.normalize (terminator.runes ++ later) =
      .newline :: terminator.style.normalize later := by
  cases terminator with
  | lf => rcases hstyle with rfl | rfl <;> rfl
  | crlf => rcases hstyle with rfl | rfl <;> rfl
  | cr =>
      have hhead : later.head? ≠ some .newline :=
        fun hhead => hlater rfl (List.mem_of_head? hhead)
      have hdetect : detect (.carriageReturn :: later) = .mac := by
        rw [detect, if_neg (by decide), if_pos rfl, if_neg hhead]
      rcases hstyle with rfl | rfl
      · change rewrite (resolve .unknown (.carriageReturn :: later)) _ = _
        rw [resolve, if_pos rfl, hdetect]
        rfl
      · rfl

/-- Lines that are ended by one terminator are the same lines ended by newlines. -/
theorem normalize_endLines (terminator : Terminator) (terminated : Bool) {lines : List (List Rune)}
    (hlines : ∀ line ∈ lines, .newline ∉ line ∧ .carriageReturn ∉ line) {style : LineStyle}
    (hstyle : style = .unknown ∨ style = terminator.style) :
    style.normalize (endLines terminator.runes terminated lines) =
      endLines [.newline] terminated lines := by
  induction lines generalizing style with
  | nil =>
      cases terminated with
      | false => exact style.normalize_nil
      | true =>
          have hnewline := normalize_terminator_append hstyle fun _ => List.not_mem_nil
          rwa [List.append_nil, normalize_nil] at hnewline
  | cons line lines ih =>
      obtain ⟨⟨hnewline, hreturn⟩, hrest⟩ := List.forall_mem_cons.mp hlines
      cases lines with
      | nil =>
          rw [endLines_singleton, normalize_line_append style hnewline hreturn, ih hrest hstyle,
            endLines_singleton]
      | cons next lines =>
          have hlater : terminator = .cr →
              .newline ∉ endLines terminator.runes terminated (next :: lines) := by
            rintro rfl hmem
            rcases mem_endLines hmem with hterminator | ⟨other, hother, hmem⟩
            · exact absurd hterminator (by decide)
            · exact (hrest other hother).1 hmem
          rw [endLines_cons_cons, normalize_line_append style hnewline hreturn,
            normalize_terminator_append hstyle hlater, ih hrest (.inr rfl), endLines_cons_cons]
          rfl

end LineStyle

namespace TextScanner

/-- A text, however its lines are ended, gives its lines with a newline after each, and what comes
after the text. -/
theorem take_endLines {lines : List (List UInt8)}
    (hlines : ∀ line ∈ lines, 0x0A ∉ line ∧ 0x0D ∉ line) {terminated : Bool}
    {terminator : Terminator} {source : List Delivery} {failure : Option String}
    (htape : Tape.ofDeliveries source = ⟨endLines terminator.bytes terminated lines, failure⟩)
    (location : Location) (tabStop : UInt32) (onBadEncoding : Option EncodingHandler) (n : Nat) :
    (Scanner.take n (new source location { tabStop, onBadEncoding })).1 =
      TextOptions.layout { tabStop, onBadEncoding } n location
        ((endLines [.newline] terminated (lines.map Tape.runes)).map .ok ++
          failure.toList.map fun message => .error (.io message)) := by
  have hrunes : ∀ line ∈ lines.map Tape.runes, .newline ∉ line ∧ .carriageReturn ∉ line := by
    intro runes hmem
    obtain ⟨line, hline, rfl⟩ := List.mem_map.mp hmem
    obtain ⟨hnewline, hreturn⟩ := hlines line hline
    constructor
    · exact fun hmem => hnewline (Tape.encoding_subset_of_mem_runes hmem (by decide))
    · exact fun hmem => hreturn (Tape.encoding_subset_of_mem_runes hmem (by decide))
  rw [take_new htape, terminator.runes_endLines, LineStyle.results,
    LineStyle.normalize_endLines terminator terminated hrunes (.inl rfl)]

/-- Let two sources deliver the same lines, each with terminators of its own, and then end or fail
alike.  Without a line style to go by, both are scanned alike: every line, and a newline with the
place of the whole terminator where one was. -/
theorem take_eq_of_terminators {lines : List (List UInt8)}
    (hlines : ∀ line ∈ lines, 0x0A ∉ line ∧ 0x0D ∉ line) {terminated : Bool}
    {left right : Terminator} {source other : List Delivery} {failure : Option String}
    (hsource : Tape.ofDeliveries source = ⟨endLines left.bytes terminated lines, failure⟩)
    (hother : Tape.ofDeliveries other = ⟨endLines right.bytes terminated lines, failure⟩)
    (location : Location) (tabStop : UInt32) (onBadEncoding : Option EncodingHandler) (n : Nat) :
    (Scanner.take n (new source location { tabStop, onBadEncoding })).1 =
        (Scanner.take n (new other location { tabStop, onBadEncoding })).1 ∧
      (Scanner.take n (new source location { tabStop, onBadEncoding })).1 =
        TextOptions.layout { tabStop, onBadEncoding } n location
          ((endLines [.newline] terminated (lines.map Tape.runes)).map .ok ++
            failure.toList.map fun message => .error (.io message)) := by
  have hleft := take_endLines hlines hsource location tabStop onBadEncoding n
  have hright := take_endLines hlines hother location tabStop onBadEncoding n
  exact ⟨hleft.trans hright.symm, hleft⟩

/-- A broken byte before a terminator that two reads share, an empty line, and an encoding that is
cut short at the end. -/
theorem take_eq_of_terminators_split :
    let lines : List (List UInt8) := [[0x61, 0xFF], [], [0xE2, 0x82]]
    (∀ line ∈ lines, 0x0A ∉ line ∧ 0x0D ∉ line) ∧
      (Scanner.take 8 (new [.bytes [0x61, 0xFF, 0x0D], .interrupted,
          .bytes [0x0A, 0x0D, 0x0A, 0xE2, 0x82]] (.ofFile "x") {})).1 =
        (Scanner.take 8 (new [.bytes [0x61, 0xFF, 0x0D, 0x0D, 0xE2], .bytes [0x82]]
          (.ofFile "x") {})).1 ∧
      (Scanner.take 8 (new [.bytes [0x61, 0xFF, 0x0D], .interrupted,
          .bytes [0x0A, 0x0D, 0x0A, 0xE2, 0x82]] (.ofFile "x") {})).1 =
        TextOptions.layout {} 8 (.ofFile "x") [.ok (.char 'a'), .ok .undecodable, .ok .newline,
          .ok .newline, .ok .undecodable, .ok .undecodable] := by
  intro lines
  have hlines : ∀ line ∈ lines, 0x0A ∉ line ∧ 0x0D ∉ line := by decide
  have hsource : Tape.ofDeliveries [.bytes [0x61, 0xFF, 0x0D], .interrupted,
      .bytes [0x0A, 0x0D, 0x0A, 0xE2, 0x82]] =
        ⟨endLines Terminator.crlf.bytes false lines, none⟩ := by decide
  have hother : Tape.ofDeliveries [.bytes [0x61, 0xFF, 0x0D, 0x0D, 0xE2], .bytes [0x82]] =
      ⟨endLines Terminator.cr.bytes false lines, none⟩ := by decide
  exact ⟨hlines, take_eq_of_terminators hlines hsource hother (.ofFile "x") 8 none 8⟩

end TextScanner

end Precedence
