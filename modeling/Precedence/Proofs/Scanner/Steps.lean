import Precedence.Proofs.Scanner.Transcript
import Precedence.Scanner.Text

/-!
# The steps of a text scanner

A call of a text scanner that has no failure to report takes a rune, settles the line ending that
the rune may start, and delivers what the rune came to.  The reading that is delivered depends on
that rune, the location it was moved over to and the handler, and on nothing else.
-/

namespace Precedence

namespace TextScanner

/-- The reading of a rune that ends at `location`. -/
def report (onBadEncoding : Option EncodingHandler) (location : Location) (rune : Rune) : Reading :=
  if rune = .undecodable then
    let error := Error.badEncoding.place (some location)
    match onBadEncoding.elim (some error) (fun handler => handler error) with
    | some error => .error error
    | none => .ok ⟨.replacement, some location⟩
  else .ok ⟨rune, some location⟩

/-- Ends the line if the rune is a carriage return or a line feed. -/
def settle (rune : Rune) (scanner : TextScanner) : Rune × TextScanner :=
  if rune = .carriageReturn ∨ rune = .newline then scanner.endLine rune else (rune, scanner)

/-- Moves over a rune and reports it. -/
def deliver (rune : Rune) (scanner : TextScanner) : Reading × TextScanner :=
  let location := scanner.location.advance rune scanner.tabStop
  (report scanner.onBadEncoding location rune, { scanner with location })

theorem reject_eq_deliver (scanner : TextScanner) :
    scanner.reject = scanner.deliver .undecodable := by
  rw [reject, deliver, report]
  cases scanner.onBadEncoding with
  | none => rfl
  | some handler =>
      dsimp only [Option.elim]
      rw [if_pos rfl]
      cases handler (Error.badEncoding.place
          (some (scanner.location.advance .undecodable scanner.tabStop))) with
      | some error => rfl
      | none => rfl

theorem emit_eq_deliver {rune : Rune} (hrune : rune ≠ .undecodable) (scanner : TextScanner) :
    scanner.emit rune = scanner.deliver rune := by
  simp only [emit, deliver, report, if_neg hrune]

theorem endLine_of_one (scanner : TextScanner) {first : Rune} {disposition : Disposition}
    {style : LineStyle} (haccept : scanner.lineStyle.accept [first] = (disposition, style))
    (hmore : disposition ≠ .more) :
    scanner.endLine first = (lineRune disposition, { scanner with lineStyle := style }) := by
  rw [endLine]
  rw [haccept]
  cases disposition with
  | more => exact absurd rfl hmore
  | newline | newlineSave | space => rfl

theorem endLine_of_two (scanner : TextScanner) {first second : Rune} {disposition : Disposition}
    {style style' : LineStyle} {intake : Intake}
    (hmore : scanner.lineStyle.accept [first] = (.more, style))
    (hdecode : scanner.intake.decode = (.ok second, intake))
    (haccept : style.accept [first, second] = (disposition, style')) :
    scanner.endLine first =
      (lineRune disposition, { scanner with
        intake, saved := if keepsSecond disposition then some second else none,
        lineStyle := style' }) := by
  rw [endLine]
  rw [hmore, hdecode]
  dsimp only
  rw [haccept]

theorem endLine_of_failure (scanner : TextScanner) {first : Rune} {disposition : Disposition}
    {style style' : LineStyle} {error : Error} {intake : Intake}
    (hmore : scanner.lineStyle.accept [first] = (.more, style))
    (hdecode : scanner.intake.decode = (.error error, intake))
    (haccept : style.accept [first, .eof] = (disposition, style')) :
    scanner.endLine first =
      (lineRune disposition, { scanner with
        intake, deferred := some error, lineStyle := style' }) := by
  rw [endLine]
  rw [hmore, hdecode]
  dsimp only
  rw [haccept]

/-- What settling a rune can do: a line ending is one rune or two, or a failure cuts it short. -/
inductive Settling (scanner : TextScanner) (rune : Rune) : Rune × TextScanner → Prop
  | other (hreturn : rune ≠ .carriageReturn) (hnewline : rune ≠ .newline) :
      Settling scanner rune (rune, scanner)
  | one {disposition : Disposition} {style : LineStyle}
      (haccept : scanner.lineStyle.accept [rune] = (disposition, style)) :
      Settling scanner rune (lineRune disposition, { scanner with lineStyle := style })
  | two {second : Rune} {disposition : Disposition} {style style' : LineStyle} {intake : Intake}
      (hmore : scanner.lineStyle.accept [rune] = (.more, style))
      (hdecode : scanner.intake.decode = (.ok second, intake))
      (haccept : style.accept [rune, second] = (disposition, style')) :
      Settling scanner rune (lineRune disposition, { scanner with
        intake, saved := if keepsSecond disposition then some second else none,
        lineStyle := style' })
  | failure {error : Error} {disposition : Disposition} {style style' : LineStyle}
      {intake : Intake} (hmore : scanner.lineStyle.accept [rune] = (.more, style))
      (hdecode : scanner.intake.decode = (.error error, intake))
      (haccept : style.accept [rune, .eof] = (disposition, style')) :
      Settling scanner rune (lineRune disposition, { scanner with
        intake, deferred := some error, lineStyle := style' })

theorem settling (rune : Rune) (scanner : TextScanner) :
    scanner.Settling rune (scanner.settle rune) := by
  rw [settle]
  split
  · rcases hone : scanner.lineStyle.accept [rune] with ⟨disposition, style⟩
    by_cases hmore : disposition = .more
    · subst hmore
      rcases hdecode : scanner.intake.decode with ⟨result, intake⟩
      cases result with
      | ok second =>
          rw [endLine_of_two scanner hone hdecode rfl]
          exact .two hone hdecode rfl
      | error error =>
          rw [endLine_of_failure scanner hone hdecode rfl]
          exact .failure hone hdecode rfl
    · rw [endLine_of_one scanner hone hmore]
      exact .one hone
  · next hline =>
      obtain ⟨hreturn, hnewline⟩ := not_or.mp hline
      exact .other hreturn hnewline

theorem next_of_deferred {scanner : TextScanner} {error : Error}
    (hdeferred : scanner.deferred = some error) :
    scanner.next = (.error error, { scanner with deferred := none }) := by
  rw [next, hdeferred]

theorem next_of_error {scanner taken : TextScanner} {error : Error}
    (hdeferred : scanner.deferred = none) (htake : scanner.takeRune = (.error error, taken)) :
    scanner.next = (.error error, taken) := by
  rw [next, hdeferred, htake]

theorem next_of_rune {scanner taken settled : TextScanner} {rune rune' : Rune}
    (hdeferred : scanner.deferred = none) (htake : scanner.takeRune = (.ok rune, taken))
    (hsettle : taken.settle rune = (rune', settled)) :
    scanner.next = settled.deliver rune' := by
  rw [next, hdeferred, htake]
  change (if (taken.settle rune).1 = .undecodable then (taken.settle rune).2.reject
    else (taken.settle rune).2.emit (taken.settle rune).1) = _
  rw [hsettle]
  split
  · next hrune =>
      cases hrune
      exact reject_eq_deliver settled
  · next hrune => exact emit_eq_deliver hrune settled

theorem take_succ {n : Nat} {scanner following last : TextScanner} {reading : Reading}
    {readings : List Reading} (hnext : scanner.next = (reading, following))
    (htake : Scanner.take n following = (readings, last)) :
    Scanner.take (n + 1) scanner = (reading :: readings, last) := by
  have hstep : Scanner.next scanner = (reading, following) := hnext
  simp only [Scanner.take, hstep, htake]

/-- What holds after each step of a call if it held before. -/
structure Invariant (P : TextScanner → Prop) : Prop where
  report : ∀ scanner, P scanner → P { scanner with deferred := none }
  takeRune : ∀ scanner, P scanner → P scanner.takeRune.2
  settle : ∀ rune scanner, P scanner → P (scanner.settle rune).2
  deliver : ∀ rune scanner, P scanner → P (scanner.deliver rune).2

theorem Invariant.next {P : TextScanner → Prop} (hinvariant : Invariant P)
    {scanner : TextScanner} (hscanner : P scanner) : P scanner.next.2 := by
  cases hdeferred : scanner.deferred with
  | some error =>
      rw [next_of_deferred hdeferred]
      exact hinvariant.report scanner hscanner
  | none =>
      have htaken := hinvariant.takeRune scanner hscanner
      rcases htake : scanner.takeRune with ⟨result, taken⟩
      rw [htake] at htaken
      cases result with
      | error error =>
          rw [next_of_error hdeferred htake]
          exact htaken
      | ok rune =>
          have hsettled := hinvariant.settle rune taken htaken
          rw [next_of_rune hdeferred htake rfl]
          exact hinvariant.deliver _ _ hsettled

theorem Invariant.take {P : TextScanner → Prop} (hinvariant : Invariant P) (n : Nat)
    {scanner : TextScanner} (hscanner : P scanner) : P (Scanner.take n scanner).2 := by
  induction n generalizing scanner with
  | zero => exact hscanner
  | succ n ih => exact ih (hinvariant.next hscanner)

/-- Whatever decoding preserves of an intake, a call preserves. -/
theorem invariant_intake {P : Intake → Prop}
    (hdecode : ∀ intake, P intake → P intake.decode.2) :
    Invariant fun scanner => P scanner.intake where
  report _ hscanner := hscanner
  takeRune scanner hscanner := by
    rw [TextScanner.takeRune]
    split
    · exact hscanner
    · exact hdecode _ hscanner
  settle rune scanner hscanner := by
    have hstep := scanner.settling rune
    generalize scanner.settle rune = step at hstep ⊢
    cases hstep with
    | other | one => exact hscanner
    | two _ hread _ | failure _ hread _ =>
        have hrest := hdecode _ hscanner
        rwa [hread] at hrest
  deliver _ _ hscanner := hscanner

/-- What stays as it is in a call until a rune is delivered. -/
def frame (scanner : TextScanner) : Location × UInt32 × Option EncodingHandler :=
  (scanner.location, scanner.tabStop, scanner.onBadEncoding)

theorem frame_takeRune (scanner : TextScanner) : scanner.takeRune.2.frame = scanner.frame := by
  rw [takeRune]
  split <;> rfl

theorem frame_settle (rune : Rune) (scanner : TextScanner) :
    (scanner.settle rune).2.frame = scanner.frame := by
  have hstep := scanner.settling rune
  generalize scanner.settle rune = step at hstep ⊢
  cases hstep with
  | other | one | two | failure => rfl

/-- What a call gives, and where it moves the location: over the rune that it reports, or nowhere
if it reports a failure of the source. -/
inductive Moves (scanner : TextScanner) : Reading × TextScanner → Prop
  | stays {error : Error} {following : TextScanner} (hframe : following.frame = scanner.frame) :
      Moves scanner (.error error, following)
  | passes {rune : Rune} {following : TextScanner}
      (hframe : following.frame =
        (scanner.location.advance rune scanner.tabStop, scanner.tabStop, scanner.onBadEncoding)) :
      Moves scanner (report scanner.onBadEncoding (scanner.location.advance rune scanner.tabStop) rune,
        following)

theorem moves_next (scanner : TextScanner) : scanner.Moves scanner.next := by
  cases hdeferred : scanner.deferred with
  | some error =>
      rw [next_of_deferred hdeferred]
      exact .stays rfl
  | none =>
      have htaken := scanner.frame_takeRune
      rcases htake : scanner.takeRune with ⟨result, taken⟩
      rw [htake] at htaken
      cases result with
      | error error =>
          rw [next_of_error hdeferred htake]
          exact .stays htaken
      | ok rune =>
          have hsettled := taken.frame_settle rune
          rcases hsettle : taken.settle rune with ⟨rune', settled⟩
          rw [hsettle] at hsettled
          have hframe : settled.frame = scanner.frame := hsettled.trans htaken
          simp only [frame, Prod.mk.injEq] at hframe
          obtain ⟨hlocation, htabStop, hhandler⟩ := hframe
          rw [next_of_rune hdeferred htake hsettle, deliver, hlocation, htabStop, hhandler]
          exact .passes rfl

end TextScanner

end Precedence
