import Precedence.Proofs.Scanner.Refill
import Precedence.Proofs.Scanner.Steps

/-!
# Independence of the read schedule

Two text scanners whose sources have the same tape cannot be told apart by reading them: how the
bytes are cut into reads, where a read is interrupted and what lies beyond the end of the source
never shows.  The source itself is gone as soon as it has ended or failed.
-/

namespace Precedence

/-- What becomes of a source that is read again and again, until a read brings no bytes. -/
inductive Delivery.ReadTo (source : List Delivery) : Option (List Delivery) → Prop
  | unread : ReadTo source (some source)
  | bytes {space : Nat} {before after : List Delivery} {byte : UInt8} {chunk : List UInt8}
      (hbefore : ReadTo source (some before))
      (hread : receive space before = (.bytes (byte :: chunk), after)) : ReadTo source (some after)
  | finish {space : Nat} {before after : List Delivery} (hbefore : ReadTo source (some before))
      (hread : receive space before = (.bytes [], after)) : ReadTo source none
  | failure {space : Nat} {before after : List Delivery} {message : String}
      (hbefore : ReadTo source (some before))
      (hread : receive space before = (.failure message, after)) : ReadTo source none

namespace Intake

theorem Filling.readTo {source : List Delivery} {intake filled : Intake}
    (hfill : intake.Filling filled) (hintake : Delivery.ReadTo source intake.source) :
    Delivery.ReadTo source filled.source := by
  cases hfill with
  | closed => exact hintake
  | finish hsource hread => exact .finish (hsource ▸ hintake) hread
  | bytes hsource hread => exact .bytes (hsource ▸ hintake) hread
  | failure hsource hread => exact .failure (hsource ▸ hintake) hread

theorem Filling.source_none {intake filled : Intake} (hfill : intake.Filling filled)
    (hsource : intake.source = none) : filled.source = none := by
  cases hfill with
  | closed => exact hsource
  | finish => rfl
  | bytes hsome => exact absurd (hsource.symm.trans hsome) nofun
  | failure => rfl

/-- Two intakes that give out the same bytes and the same failure. -/
structure Alike (left right : Intake) : Prop where
  left_sound : left.Sound
  right_sound : right.Sound
  tape_eq : left.tape = right.tape

theorem Alike.decode {left right : Intake} (halike : left.Alike right) :
    ∃ result left' right', left.decode = (result, left') ∧ right.decode = (result, right') ∧
      left'.Alike right' := by
  have hleft := left.tape_decode halike.left_sound
  have hright := right.tape_decode halike.right_sound
  have hleft_sound := left.sound_decode halike.left_sound
  have hright_sound := right.sound_decode halike.right_sound
  rcases hdecode : left.decode with ⟨result, left'⟩
  rcases hdecode' : right.decode with ⟨result', right'⟩
  rw [hdecode] at hleft hleft_sound
  rw [hdecode'] at hright hright_sound
  rw [halike.tape_eq, hright] at hleft
  obtain ⟨rfl, htape⟩ := Prod.mk.inj hleft
  exact ⟨_, _, _, rfl, rfl, hleft_sound, hright_sound, htape.symm⟩

end Intake

namespace TextScanner

/-- Scanners that differ in their intakes alone, and there only in where the bytes are. -/
inductive Alike (left : TextScanner) : TextScanner → Prop
  | mk (intake : Intake) (hintake : left.intake.Alike intake) : Alike left { left with intake }

/-- A step that alike scanners take alike. -/
def Respects {A : Type} (step : TextScanner → A × TextScanner) : Prop :=
  ∀ left right, Alike left right → ∃ result left' right',
    step left = (result, left') ∧ step right = (result, right') ∧ Alike left' right'

theorem respects_takeRune : Respects takeRune := by
  rintro left _ ⟨intake, hintake⟩
  unfold takeRune
  cases left.saved with
  | some rune => exact ⟨_, _, _, rfl, rfl, .mk _ hintake⟩
  | none =>
      obtain ⟨result, left', right', hleft, hright, hrest⟩ := hintake.decode
      rw [hleft, hright]
      exact ⟨_, _, _, rfl, rfl, .mk _ hrest⟩

theorem respects_endLine (first : Rune) : Respects (endLine first) := by
  rintro left _ ⟨intake, hintake⟩
  obtain ⟨result, left', right', hleft, hright, hrest⟩ := hintake.decode
  rcases hone : left.lineStyle.accept [first] with ⟨disposition, style⟩
  by_cases hmore : disposition = .more
  · subst hmore
    cases result with
    | ok second =>
        rw [endLine_of_two left hone hleft rfl, endLine_of_two { left with intake } hone hright rfl]
        exact ⟨_, _, _, rfl, rfl, .mk _ hrest⟩
    | error error =>
        rw [endLine_of_failure left hone hleft rfl,
          endLine_of_failure { left with intake } hone hright rfl]
        exact ⟨_, _, _, rfl, rfl, .mk _ hrest⟩
  · rw [endLine_of_one left hone hmore, endLine_of_one { left with intake } hone hmore]
    exact ⟨_, _, _, rfl, rfl, .mk _ hintake⟩

theorem respects_settle (rune : Rune) : Respects (settle rune) := by
  intro left right halike
  unfold settle
  split
  · exact respects_endLine rune left right halike
  · exact ⟨_, _, _, rfl, rfl, halike⟩

theorem respects_deliver (rune : Rune) : Respects (deliver rune) := by
  rintro left _ ⟨intake, hintake⟩
  exact ⟨_, _, _, rfl, rfl, .mk _ hintake⟩

theorem respects_next : Respects next := by
  intro left right halike
  cases hdeferred : left.deferred with
  | some error =>
      obtain ⟨intake, hintake⟩ := halike
      rw [next_of_deferred hdeferred, next_of_deferred (by exact hdeferred)]
      exact ⟨_, _, _, rfl, rfl, .mk _ hintake⟩
  | none =>
      have hdeferred' : right.deferred = none := by
        obtain ⟨intake, hintake⟩ := halike
        exact hdeferred
      obtain ⟨result, taken, taken', htake, htake', htaken⟩ := respects_takeRune left right halike
      cases result with
      | error error =>
          rw [next_of_error hdeferred htake, next_of_error hdeferred' htake']
          exact ⟨_, _, _, rfl, rfl, htaken⟩
      | ok rune =>
          obtain ⟨rune', settled, settled', hsettle, hsettle', hsettled⟩ :=
            respects_settle rune taken taken' htaken
          rw [next_of_rune hdeferred htake hsettle, next_of_rune hdeferred' htake' hsettle']
          exact respects_deliver rune' settled settled' hsettled

theorem respects_take (n : Nat) : Respects (Scanner.take n) := by
  induction n with
  | zero =>
      intro left right halike
      exact ⟨_, _, _, rfl, rfl, halike⟩
  | succ n ih =>
      intro left right halike
      obtain ⟨reading, left', right', hnext, hnext', halike'⟩ := respects_next left right halike
      obtain ⟨readings, last, last', htake, htake', hlast⟩ := ih left' right' halike'
      exact ⟨reading :: readings, last, last', take_succ hnext htake, take_succ hnext' htake',
        hlast⟩

theorem alike_new {source source' : List Delivery}
    (htape : Tape.ofDeliveries source = Tape.ofDeliveries source') (location : Location)
    (options : TextOptions) : Alike (new source location options) (new source' location options) :=
  .mk (.ofDeliveries source')
    ⟨Intake.sound_ofDeliveries source, Intake.sound_ofDeliveries source', htape⟩

/-- A text scanner shows nothing of its source but the tape: sources that deliver the same bytes
and then end alike give the same readings, styles and locations, call for call.  And a source is
read until a read brings no bytes, and then never again. -/
theorem take_eq_of_tape_eq {source source' : List Delivery}
    (htape : Tape.ofDeliveries source = Tape.ofDeliveries source') (location : Location)
    (options : TextOptions) (n : Nat) :
    (Scanner.take n (new source location options)).1 =
        (Scanner.take n (new source' location options)).1 ∧
      (Scanner.take n (new source location options)).2.lineStyle =
        (Scanner.take n (new source' location options)).2.lineStyle ∧
      (Scanner.take n (new source location options)).2.location =
        (Scanner.take n (new source' location options)).2.location ∧
      Delivery.ReadTo source (Scanner.take n (new source location options)).2.intake.source ∧
      ∀ k, (Scanner.take n (new source location options)).2.intake.source = none →
        (Scanner.take (n + k) (new source location options)).2.intake.source = none := by
  obtain ⟨readings, last, last', htake, htake', hlast⟩ :=
    respects_take n _ _ (alike_new htape location options)
  have hread : Delivery.ReadTo source
      (Scanner.take n (new source location options)).2.intake.source := by
    apply (invariant_intake (P := fun intake => Delivery.ReadTo source intake.source) ?_).take
    · exact .unread
    · exact Intake.source_decode fun _ _ hfill => hfill.readTo
  have hclosed : ∀ k, (Scanner.take n (new source location options)).2.intake.source = none →
      (Scanner.take (n + k) (new source location options)).2.intake.source = none := by
    intro k hnone
    rw [Scanner.take_add]
    apply (invariant_intake (P := fun intake => intake.source = none) ?_).take
    · exact hnone
    · exact Intake.source_decode (P := (· = none)) fun _ _ hfill => hfill.source_none
  rw [htake] at hread hclosed
  rw [htake, htake']
  cases hlast with
  | mk intake hintake => exact ⟨rfl, rfl, rfl, hread, hclosed⟩

/-- One character cut in two, an interruption, and bytes beyond a failure. -/
theorem take_eq_of_tape_eq_split :
    (Scanner.take 4 (new [.bytes [0xC3], .interrupted, .bytes [0xA9, 0x0D], .failure "reset"]
        (.ofFile "x") {})).1 =
      (Scanner.take 4 (new [.bytes [0xC3, 0xA9], .bytes [0x0D], .failure "reset", .bytes [0x41]]
        (.ofFile "x") {})).1 ∧
      (Scanner.take (4 + 3) (new [.bytes [0xC3], .interrupted, .bytes [0xA9, 0x0D],
        .failure "reset"] (.ofFile "x") {})).2.intake.source = none := by
  have htape :
      Tape.ofDeliveries [.bytes [0xC3], .interrupted, .bytes [0xA9, 0x0D], .failure "reset"] =
        Tape.ofDeliveries [.bytes [0xC3, 0xA9], .bytes [0x0D], .failure "reset",
          .bytes [0x41]] := by decide
  obtain ⟨hreadings, _, _, _, hclosed⟩ := take_eq_of_tape_eq htape (.ofFile "x") {} 4
  exact ⟨hreadings, hclosed 3 (by rfl)⟩

end TextScanner

end Precedence
