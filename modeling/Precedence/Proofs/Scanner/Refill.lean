import Precedence.Proofs.Scanner.Tape

/-!
# Filling and decoding

Everything an intake does to its source is a fill, and a fill does one of four things.  Decoding a
rune is a few fills, each with fewer than `Intake.maxEncoded` bytes in the buffer, and then one
step over the bytes of the rune.
-/

namespace Precedence.Intake

/-- The bytes and the failure that are still to be given out. -/
def tape (intake : Intake) : Tape :=
  match intake.source with
  | none => ⟨intake.unread, intake.failure⟩
  | some source => (Tape.ofDeliveries source).prepend intake.unread

/-- The unread bytes lie in the buffer, and no failure waits while the source can be read. -/
structure Sound (intake : Intake) : Prop where
  stop_le : intake.stop ≤ capacity
  failure_none : intake.source.isSome → intake.failure = none

/-- What one fill can do. -/
inductive Filling (intake : Intake) : Intake → Prop
  | closed (hsource : intake.source = none) : Filling intake intake
  | finish {source rest : List Delivery} (hsource : intake.source = some source)
      (hread : Delivery.receive intake.space source = (.bytes [], rest)) :
      Filling intake { intake with source := none, start := 0 }
  | bytes {source rest : List Delivery} {byte : UInt8} {chunk : List UInt8}
      (hsource : intake.source = some source)
      (hread : Delivery.receive intake.space source = (.bytes (byte :: chunk), rest)) :
      Filling intake { intake with
        source := some rest, start := 0, unread := intake.unread ++ byte :: chunk }
  | failure {source rest : List Delivery} {message : String}
      (hsource : intake.source = some source)
      (hread : Delivery.receive intake.space source = (.failure message, rest)) :
      Filling intake { intake with source := none, start := 0, failure := some message }

theorem filling (intake : Intake) : intake.Filling intake.fill := by
  rw [fill]
  cases hsource : intake.source with
  | none => exact .closed hsource
  | some source =>
      rcases hread : Delivery.receive intake.space source with ⟨arrival, rest⟩
      simp only [hread]
      cases arrival with
      | bytes chunk =>
          cases chunk with
          | nil => exact .finish hsource hread
          | cons byte chunk => exact .bytes hsource hread
      | failure message => exact .failure hsource hread

theorem tape_none {intake : Intake} (hsource : intake.source = none) :
    intake.tape = ⟨intake.unread, intake.failure⟩ := by
  rw [tape, hsource]

theorem tape_some {intake : Intake} {source : List Delivery}
    (hsource : intake.source = some source) :
    intake.tape = (Tape.ofDeliveries source).prepend intake.unread := by
  rw [tape, hsource]

theorem tape_of_receive {intake : Intake} {source rest : List Delivery} {arrival : Arrival}
    (hsource : intake.source = some source) (hroom : intake.unread.length < maxEncoded)
    (hread : Delivery.receive intake.space source = (arrival, rest)) :
    intake.tape = (arrival.tape (Tape.ofDeliveries rest)).prepend intake.unread := by
  have hspace : 0 < intake.space := by
    unfold space capacity maxEncoded at *
    omega
  have htape := Delivery.tape_receive hspace source
  rw [hread] at htape
  rw [tape_some hsource, ← htape]

namespace Filling

variable {intake filled : Intake}

theorem tape_eq (hfill : intake.Filling filled) (hroom : intake.unread.length < maxEncoded)
    (hsound : intake.Sound) : filled.tape = intake.tape := by
  cases hfill with
  | closed hsource => rfl
  | finish hsource hread =>
      have hfailure : intake.failure = none := hsound.failure_none (by simp [hsource])
      rw [tape_none rfl, tape_of_receive hsource hroom hread]
      simp [Arrival.tape, Tape.prepend, hfailure]
  | bytes hsource hread =>
      rw [tape_some rfl, tape_of_receive hsource hroom hread]
      exact (Tape.prepend_prepend _ _ _).symm
  | failure hsource hread =>
      rw [tape_none rfl, tape_of_receive hsource hroom hread]
      simp [Arrival.tape, Tape.prepend]

theorem sound (hfill : intake.Filling filled) (hsound : intake.Sound) : filled.Sound := by
  have hunread : intake.unread.length ≤ capacity :=
    Nat.le_trans (Nat.le_add_left _ _) hsound.stop_le
  cases hfill with
  | closed hsource => exact hsound
  | finish hsource hread => exact ⟨by simpa [stop] using hunread, by simp⟩
  | bytes hsource hread =>
      have hlength := Delivery.length_receive hread
      constructor
      · simp only [stop, space, List.length_append] at hlength ⊢
        omega
      · intro _
        exact hsound.failure_none (by simp [hsource])
  | failure hsource hread => exact ⟨by simpa [stop] using hunread, by simp⟩

theorem unread_eq (hfill : intake.Filling filled) :
    ∃ chunk, filled.unread = intake.unread ++ chunk := by
  cases hfill with
  | closed | finish | failure => exact ⟨[], (List.append_nil _).symm⟩
  | bytes hsource hread => exact ⟨_, rfl⟩

/-- A fill brings a byte or closes the source. -/
theorem progress (hfill : intake.Filling filled) :
    filled.source = none ∨ intake.unread.length < filled.unread.length := by
  cases hfill with
  | closed hsource => exact .inl hsource
  | finish hsource hread => exact .inl rfl
  | bytes hsource hread => exact .inr (by simp)
  | failure hsource hread => exact .inl rfl

end Filling

/-- Fills in a row, each with fewer than `maxEncoded` bytes in the buffer. -/
inductive Refills : Intake → Intake → Prop
  | refl (intake : Intake) : Refills intake intake
  | step {intake filled last : Intake} (hroom : intake.unread.length < maxEncoded)
      (hfill : intake.Filling filled) (hrest : Refills filled last) : Refills intake last

namespace Refills

variable {intake filled : Intake}

theorem tape_eq (hfills : intake.Refills filled) (hsound : intake.Sound) :
    filled.tape = intake.tape := by
  induction hfills with
  | refl => rfl
  | step hroom hfill hrest ih =>
      rw [ih (hfill.sound hsound), hfill.tape_eq hroom hsound]

theorem sound (hfills : intake.Refills filled) (hsound : intake.Sound) : filled.Sound := by
  induction hfills with
  | refl => exact hsound
  | step hroom hfill hrest ih => exact ih (hfill.sound hsound)

theorem unread_eq (hfills : intake.Refills filled) :
    ∃ chunk, filled.unread = intake.unread ++ chunk := by
  induction hfills with
  | refl => exact ⟨[], (List.append_nil _).symm⟩
  | step hroom hfill hrest ih =>
      obtain ⟨first, hfirst⟩ := hfill.unread_eq
      obtain ⟨second, hsecond⟩ := ih
      exact ⟨first ++ second, by rw [hsecond, hfirst, List.append_assoc]⟩

theorem trans {middle last : Intake} (hfirst : intake.Refills middle)
    (hsecond : middle.Refills last) : intake.Refills last := by
  induction hfirst with
  | refl => exact hsecond
  | step hroom hfill hrest ih => exact .step hroom hfill (ih hsecond)

end Refills

theorem refills_topUp (n : Nat) (intake : Intake) : intake.Refills (topUp n intake) := by
  induction n generalizing intake with
  | zero => exact .refl intake
  | succ n ih =>
      rw [topUp]
      split
      · next hshort =>
          rw [Bool.and_eq_true, List.isEmpty_iff, List.drop_eq_nil_iff] at hshort
          exact .step (Nat.lt_succ_of_le hshort.1) intake.filling (ih intake.fill)
      · exact .refl intake

/-- Once topped up, an intake holds a whole encoded scalar value or has no source. -/
theorem topUp_ready (n : Nat) (intake : Intake)
    (henough : intake.source = none ∨ maxEncoded ≤ intake.unread.length + n) :
    (topUp n intake).source = none ∨ maxEncoded ≤ (topUp n intake).unread.length := by
  induction n generalizing intake with
  | zero => exact henough
  | succ n ih =>
      rw [topUp]
      split
      · next hshort =>
          rw [Bool.and_eq_true] at hshort
          apply ih
          rcases intake.filling.progress with hclosed | hgrown
          · exact .inl hclosed
          · rcases henough with hsource | henough
            · simp [hsource] at hshort
            · exact .inr (by omega)
      · next hlong =>
          rw [Bool.and_eq_true, List.isEmpty_iff, List.drop_eq_nil_iff, not_and] at hlong
          rcases Nat.lt_or_ge intake.unread.length maxEncoded with hroom | hwhole
          · exact .inl (by simpa using hlong (Nat.le_of_lt_succ hroom))
          · exact .inr hwhole

/-- What decoding one rune can do. -/
inductive Decoding (intake : Intake) : Except Error Rune × Intake → Prop
  | finish {filled : Intake} (hfills : intake.Refills filled) (hsource : filled.source = none)
      (hunread : filled.unread = []) (hfailure : filled.failure = none) :
      Decoding intake (.ok .eof, filled)
  | failure {filled : Intake} {message : String} (hfills : intake.Refills filled)
      (hsource : filled.source = none) (hunread : filled.unread = [])
      (hfailure : filled.failure = some message) :
      Decoding intake (.error (.io message), { filled with failure := none })
  | rune {filled : Intake} {byte : UInt8} {rest : List UInt8} (hfills : intake.Refills filled)
      (hunread : filled.unread = byte :: rest)
      (hready : filled.source = none ∨ byte < 0x80 ∨ maxEncoded ≤ (byte :: rest).length) :
      Decoding intake (.ok (Tape.leading byte rest).1, filled.drop (Tape.leading byte rest).2)

theorem refills_first (intake : Intake) :
    intake.Refills (if intake.unread.isEmpty then intake.fill else intake) := by
  split
  · next hempty =>
      have hroom : intake.unread.length < maxEncoded := by
        rw [List.isEmpty_iff.mp hempty]
        decide
      exact .step hroom intake.filling (.refl _)
  · exact .refl intake

/-- If the buffer stays empty, the source is gone. -/
theorem source_first {intake filled : Intake}
    (hfilled : (if intake.unread.isEmpty then intake.fill else intake) = filled)
    (hunread : filled.unread = []) : filled.source = none := by
  subst hfilled
  split at hunread
  · next hempty =>
      rw [if_pos hempty]
      rcases intake.filling.progress with hclosed | hgrown
      · exact hclosed
      · simp [hunread] at hgrown
  · next hempty => simp [hunread] at hempty

theorem Decoding.topUp {intake filled : Intake} {byte : UInt8} {rest : List UInt8}
    (hfills : intake.Refills filled) (hunread : filled.unread = byte :: rest)
    (hascii : ¬byte < 0x80) :
    intake.Decoding
      (match scalar? (topUp maxEncoded filled).unread with
      | some c => (.ok (.char c), (Intake.topUp maxEncoded filled).drop c.utf8Size)
      | none => (.ok .undecodable, (Intake.topUp maxEncoded filled).drop 1)) := by
  have htopUp := refills_topUp maxEncoded filled
  have hready := topUp_ready maxEncoded filled (.inr (Nat.le_add_left _ _))
  obtain ⟨chunk, htopped⟩ := htopUp.unread_eq
  rw [hunread, List.cons_append] at htopped
  rw [htopped] at hready
  have hrune := Decoding.rune (hfills.trans htopUp) htopped (hready.imp_right .inr)
  rw [Tape.leading, if_neg hascii] at hrune
  rw [htopped]
  cases hscalar : scalar? (byte :: (rest ++ chunk)) with
  | none =>
      simp only [hscalar] at hrune ⊢
      exact hrune
  | some c =>
      simp only [hscalar] at hrune ⊢
      exact hrune

theorem decoding (intake : Intake) : intake.Decoding intake.decode := by
  rw [decode]
  have hfills := intake.refills_first
  generalize hfilled : (if intake.unread.isEmpty then intake.fill else intake) = filled at hfills ⊢
  cases hunread : filled.unread with
  | nil =>
      have hclosed := source_first hfilled hunread
      cases hfailure : filled.failure with
      | none =>
          exact .finish hfills hclosed hunread hfailure
      | some message =>
          have hstep := Decoding.failure hfills hclosed hunread hfailure
          rw [hunread] at hstep
          exact hstep
  | cons byte rest =>
      dsimp only
      by_cases hascii : byte < 0x80
      · have hrune := Decoding.rune hfills hunread (.inr (.inl hascii))
        rw [Tape.leading, if_pos hascii] at hrune
        rw [if_pos hascii]
        exact hrune
      · rw [if_neg hascii]
        exact .topUp hfills hunread hascii

theorem tape_drop {intake : Intake} {n : Nat} (hn : n ≤ intake.unread.length) :
    (intake.drop n).tape = ⟨intake.tape.bytes.drop n, intake.tape.failure⟩ := by
  cases hsource : intake.source with
  | none =>
      rw [tape_none hsource, tape_none (by exact hsource)]
      rfl
  | some source =>
      rw [tape_some hsource, tape_some (by exact hsource)]
      simp only [Tape.prepend, List.drop_append_of_le_length hn]
      rfl

theorem Sound.drop {intake : Intake} {n : Nat} (hsound : intake.Sound)
    (hn : n ≤ intake.unread.length) : (intake.drop n).Sound := by
  constructor
  · have hstop := hsound.stop_le
    simp only [stop, Intake.drop, List.length_drop] at hstop ⊢
    omega
  · exact hsound.failure_none

namespace Decoding

variable {intake next : Intake} {result : Except Error Rune}

theorem sound (hdecode : intake.Decoding (result, next)) (hsound : intake.Sound) :
    next.Sound := by
  cases hdecode with
  | finish hfills => exact hfills.sound hsound
  | failure hfills => exact ⟨(hfills.sound hsound).stop_le, fun _ => rfl⟩
  | rune hfills hunread hready =>
      apply (hfills.sound hsound).drop
      rw [hunread]
      exact Tape.leading_le _ _

/-- Decoding from the buffer gives what decoding from the bare tape gives. -/
theorem tape_decode (hdecode : intake.Decoding (result, next)) (hsound : intake.Sound) :
    intake.tape.decode = (result, next.tape) := by
  cases hdecode with
  | finish hfills hsource hunread hfailure =>
      rw [← hfills.tape_eq hsound, tape_none hsource, hunread, hfailure]
      rfl
  | failure hfills hsource hunread hfailure =>
      rw [← hfills.tape_eq hsound, tape_none hsource, tape_none (by exact hsource), hunread,
        hfailure]
      rfl
  | @rune filled byte rest hfills hunread hready =>
      have hn : (Tape.leading byte rest).2 ≤ filled.unread.length := by
        rw [hunread]
        exact Tape.leading_le byte rest
      have hbytes : ∃ later, filled.tape.bytes = byte :: (rest ++ later) ∧
          (later = [] ∨ byte < 0x80 ∨ maxEncoded ≤ (byte :: rest).length) := by
        cases hsource : filled.source with
        | none => exact ⟨[], by rw [tape_none hsource, hunread, List.append_nil], .inl rfl⟩
        | some source =>
            refine ⟨_, by rw [tape_some hsource, Tape.prepend, hunread, List.cons_append], ?_⟩
            exact .inr (hready.resolve_left (by simp [hsource]))
      obtain ⟨later, hbytes, hready⟩ := hbytes
      have hleading := Tape.leading_append byte rest later hready
      have htape : filled.tape = ⟨byte :: (rest ++ later), filled.tape.failure⟩ := by
        rw [← hbytes]
      rw [← hfills.tape_eq hsound, tape_drop hn, htape, Tape.decode, hleading]

end Decoding

/-- One decoding, as seen from the tape. -/
theorem tape_decode (intake : Intake) (hsound : intake.Sound) :
    intake.tape.decode = (intake.decode.1, intake.decode.2.tape) :=
  intake.decoding.tape_decode hsound

theorem sound_decode (intake : Intake) (hsound : intake.Sound) : intake.decode.2.Sound :=
  intake.decoding.sound hsound

/-- Whatever fills preserve of a source, decoding preserves. -/
theorem source_decode {P : Option (List Delivery) → Prop}
    (hfilling : ∀ intake filled : Intake, intake.Filling filled → P intake.source → P filled.source)
    (intake : Intake) (hsource : P intake.source) : P intake.decode.2.source := by
  have hrefills : ∀ filled, intake.Refills filled → P filled.source := by
    intro filled hfills
    induction hfills with
    | refl => exact hsource
    | step hroom hfill hrest ih => exact ih (hfilling _ _ hfill hsource)
  have hdecode := intake.decoding
  generalize intake.decode = step at hdecode ⊢
  cases hdecode with
  | @finish filled hfills | @failure filled _ hfills | @rune filled _ _ hfills =>
      exact hrefills filled hfills

theorem sound_ofDeliveries (source : List Delivery) : (ofDeliveries source).Sound :=
  ⟨Nat.zero_le capacity, fun _ => rfl⟩

theorem tape_ofDeliveries (source : List Delivery) :
    (ofDeliveries source).tape = Tape.ofDeliveries source := rfl

/-- The intake is to give out these runes and then this failure, if it is one. -/
structure Holds (intake : Intake) (text : List Rune) (failure : Option String) : Prop where
  sound : intake.Sound
  runes_eq : Tape.runes intake.tape.bytes = text
  failure_eq : intake.tape.failure = failure

theorem holds_ofDeliveries {source : List Delivery} {bytes : List UInt8} {failure : Option String}
    (htape : Tape.ofDeliveries source = ⟨bytes, failure⟩) :
    (ofDeliveries source).Holds (Tape.runes bytes) failure := by
  rw [← tape_ofDeliveries] at htape
  exact ⟨sound_ofDeliveries source, by rw [htape], by rw [htape]⟩

namespace Holds

variable {intake : Intake} {text : List Rune} {failure : Option String}

theorem decode_cons {rune : Rune} (hintake : intake.Holds (rune :: text) failure) :
    rune ≠ .eof ∧ ∃ rest, intake.decode = (.ok rune, rest) ∧ rest.Holds text failure := by
  obtain ⟨hrune, bytes, hdecode, htext⟩ := Tape.decode_of_runes_cons hintake.runes_eq
  rw [intake.tape_decode hintake.sound] at hdecode
  obtain ⟨hresult, htape⟩ := Prod.mk.inj hdecode
  refine ⟨hrune, intake.decode.2, Prod.ext hresult rfl, ?_, ?_, ?_⟩
  · exact intake.sound_decode hintake.sound
  · rw [htape, htext]
  · rw [htape, hintake.failure_eq]

theorem tape_nil (hintake : intake.Holds [] failure) : intake.tape = ⟨[], failure⟩ := by
  rw [← hintake.failure_eq, ← Tape.eq_nil_of_runes_nil hintake.runes_eq]

theorem of_tape_nil (hsound : intake.Sound) (htape : intake.tape = ⟨[], failure⟩) :
    intake.Holds [] failure := by
  constructor
  · exact hsound
  · rw [htape]
    rfl
  · rw [htape]

theorem decode_end (hintake : intake.Holds [] none) :
    ∃ rest, intake.decode = (.ok .eof, rest) ∧ rest.Holds [] none := by
  have hdecode := intake.tape_decode hintake.sound
  rw [hintake.tape_nil] at hdecode
  obtain ⟨hresult, htape⟩ := Prod.mk.inj hdecode
  exact ⟨_, Prod.ext hresult.symm rfl,
    of_tape_nil (intake.sound_decode hintake.sound) htape.symm⟩

theorem decode_failure {message : String} (hintake : intake.Holds [] (some message)) :
    ∃ rest, intake.decode = (.error (.io message), rest) ∧ rest.Holds [] none := by
  have hdecode := intake.tape_decode hintake.sound
  rw [hintake.tape_nil] at hdecode
  obtain ⟨hresult, htape⟩ := Prod.mk.inj hdecode
  exact ⟨_, Prod.ext hresult.symm rfl,
    of_tape_nil (intake.sound_decode hintake.sound) htape.symm⟩

end Holds

end Precedence.Intake
