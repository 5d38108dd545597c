import Precedence.Proofs.Scanner.Failure
import Precedence.Proofs.Scanner.ReadSchedule

/-!
# The end of the input

Each reading before the end takes at least one byte or reports the failure of the source, so the
end comes after at most that many.  By then the source is gone and nothing is held back: no rune,
because what may have been saved is the end itself, and no failure.  From there on the end is given
again and again, at the place where the input stopped.
-/

namespace Precedence

namespace Tape

theorem length_runesFrom_le (skip : Nat) (bytes : List UInt8) :
    (runesFrom skip bytes).length ≤ bytes.length := by
  induction bytes generalizing skip with
  | nil => cases skip <;> exact Nat.le_refl 0
  | cons byte rest ih =>
      cases skip with
      | zero => exact Nat.succ_le_succ (ih _)
      | succ skip => exact Nat.le_succ_of_le (ih skip)

end Tape

namespace LineStyle

theorem length_joinPairs_le (text : List Rune) : (joinPairs text).length ≤ text.length := by
  fun_induction joinPairs text with
  | case1 | case2 => exact Nat.le_refl _
  | case3 first second text hpair ih => exact Nat.succ_le_succ (Nat.le_succ_of_le ih)
  | case4 first second text hpair ih => exact Nat.succ_le_succ ih

theorem length_normalize_le (style : LineStyle) (text : List Rune) :
    (style.normalize text).length ≤ text.length := by
  rw [normalize, rewrite]
  split
  · exact length_joinPairs_le text
  · exact (List.length_map _).le

/-- A text gives no more results than it has bytes, and one for the failure. -/
theorem length_results_le (style : LineStyle) (tape : Tape) :
    (style.results (Tape.runes tape.bytes) tape.failure).length ≤
      tape.bytes.length + tape.failure.toList.length := by
  calc (style.results (Tape.runes tape.bytes) tape.failure).length
      = (style.normalize (Tape.runes tape.bytes)).length + tape.failure.toList.length := by
        rw [results, List.length_append, List.length_map, List.length_map]
    _ ≤ tape.bytes.length + tape.failure.toList.length := by
        apply Nat.add_le_add_right
        exact (style.length_normalize_le _).trans (Tape.length_runesFrom_le 0 tape.bytes)

theorem eof_notMem_results (style : LineStyle) (bytes : List UInt8) (failure : Option String) :
    .ok .eof ∉ style.results (Tape.runes bytes) failure := by
  intro hmem
  rcases List.mem_append.mp hmem with hread | hfailed
  · obtain ⟨rune, hrune, hok⟩ := List.mem_map.mp hread
    cases hok
    exact eof_notMem_normalize style bytes hrune
  · obtain ⟨message, -, herror⟩ := List.mem_map.mp hfailed
    cases herror

end LineStyle

/-- The empty span where the location stops. -/
def Location.ending : Location → Location
  | .file span => .file ⟨span.file, span.stop, span.stop⟩
  | .arg span => .arg ⟨span.stop, span.stop⟩
  | .mark span => .mark ⟨span.serial, span.stop, span.stop⟩

theorem Location.advance_eof (location : Location) (tabStop : UInt32) :
    location.advance .eof tabStop = location.ending := by
  cases location with
  | file | arg | mark => rfl

theorem Intake.source_of_eof {intake rest : Intake} (hdecode : intake.decode = (.ok .eof, rest)) :
    rest.source = none := by
  have hstep := intake.decoding
  rw [hdecode] at hstep
  generalize hresult : (Except.ok Rune.eof, rest) = step at hstep
  cases hstep with
  | finish _ hsource =>
      cases hresult
      exact hsource
  | failure => cases hresult
  | @rune _ byte rest =>
      obtain ⟨hrune, -⟩ := Prod.mk.inj hresult
      exact absurd (Except.ok.inj hrune).symm (Tape.leading_ne_eof byte rest)

/-- A source that is gone is not read again. -/
theorem Intake.closed_decode {intake : Intake} (hclosed : intake.source = none) :
    intake.decode.2.source = none :=
  Intake.source_decode (P := (· = none)) (fun _ _ hfill => hfill.source_none) intake hclosed

namespace TextScanner

/-- A scanner that has saved the end of the input has no source any more. -/
def EndSaved (scanner : TextScanner) : Prop :=
  scanner.saved = some .eof → scanner.intake.source = none

theorem invariant_endSaved : Invariant EndSaved where
  report _ hscanner := hscanner
  takeRune scanner hscanner := by
    rw [TextScanner.takeRune]
    split
    · intro hsaved
      cases hsaved
    · next hnone =>
        intro hsaved
        cases hnone.symm.trans hsaved
  settle rune scanner hscanner := by
    have hstep := scanner.settling rune
    generalize scanner.settle rune = step at hstep ⊢
    cases hstep with
    | other | one => exact hscanner
    | two _ hdecode _ =>
        -- The rune that is looked at to end the line may be the end, and is kept then.
        intro hsaved
        dsimp only at hsaved
        split at hsaved
        · cases hsaved
          exact Intake.source_of_eof hdecode
        · cases hsaved
    | failure _ hdecode _ =>
        intro hsaved
        have hclosed := Intake.closed_decode (hscanner hsaved)
        rwa [hdecode] at hclosed
  deliver _ _ hscanner := hscanner

theorem closed_of_takeRune {scanner taken : TextScanner} (hsaved : scanner.EndSaved)
    (htake : scanner.takeRune = (.ok .eof, taken)) : taken.intake.source = none := by
  rw [takeRune] at htake
  split at htake
  · next rune hrune =>
      obtain ⟨heof, rfl⟩ := Prod.mk.inj htake
      exact hsaved (hrune.trans (congrArg some (Except.ok.inj heof)))
  · rcases hdecode : scanner.intake.decode with ⟨result, intake⟩
    rw [hdecode] at htake
    obtain ⟨rfl, rfl⟩ := Prod.mk.inj htake
    exact Intake.source_of_eof hdecode

/-- A line ending never comes to the end of the input. -/
theorem settle_eof {taken settled : TextScanner} {rune : Rune}
    (hsettle : taken.settle rune = (.eof, settled)) : rune = .eof ∧ settled = taken := by
  have hstep := taken.settling rune
  have hlineRune : ∀ disposition, lineRune disposition ≠ .eof := by
    intro disposition
    cases disposition with
    | newline | newlineSave | space | more => decide
  rw [hsettle] at hstep
  generalize hresult : (Rune.eof, settled) = step at hstep
  cases hstep with
  | other =>
      obtain ⟨heof, hsame⟩ := Prod.mk.inj hresult
      exact ⟨heof.symm, hsame⟩
  | one | two | failure => exact absurd (congrArg Prod.fst hresult).symm (hlineRune _)

/-- Once the end is given, the source is gone. -/
theorem closed_of_next {scanner following : TextScanner} {reading : Reading}
    (hsaved : scanner.EndSaved) (hnext : scanner.next = (reading, following))
    (heof : reading.isEof = true) : following.intake.source = none := by
  cases hdeferred : scanner.deferred with
  | some error =>
      rw [next_of_deferred hdeferred] at hnext
      cases hnext
      cases heof
  | none =>
      rcases htake : scanner.takeRune with ⟨result, taken⟩
      cases result with
      | error error =>
          rw [next_of_error hdeferred htake] at hnext
          cases hnext
          cases heof
      | ok rune =>
          rcases hsettle : taken.settle rune with ⟨rune', settled⟩
          rw [next_of_rune hdeferred htake hsettle] at hnext
          cases hnext
          rw [isEof_report] at heof
          cases rune' with
          | char | undecodable | sentinel => cases heof
          | eof =>
              obtain ⟨rfl, rfl⟩ := settle_eof hsettle
              have hclosed := closed_of_takeRune hsaved htake
              exact hclosed

theorem location_of_report {onBadEncoding : Option EncodingHandler} {location : Location}
    {rune : Rune} {symbol : Symbol} (hreport : report onBadEncoding location rune = .ok symbol) :
    symbol.location = some location := by
  rw [report] at hreport
  split at hreport
  · dsimp only at hreport
    split at hreport
    · cases hreport
    · cases hreport
      rfl
  · cases hreport
    rfl

/-- A symbol lies where the scanner has come to, and an end where the scanner was already. -/
theorem location_of_next {scanner following : TextScanner} {symbol : Symbol}
    (hnext : scanner.next = (.ok symbol, following)) :
    symbol.location = some following.location ∧
      (symbol.isEof = true → following.location = scanner.location.ending) := by
  have hmoves := scanner.moves_next
  rw [hnext] at hmoves
  generalize hstep : (Except.ok symbol, following) = step at hmoves
  cases hmoves with
  | stays => cases hstep
  | @passes rune following hframe =>
      obtain ⟨hreport, rfl⟩ := Prod.mk.inj hstep
      have hlocation := congrArg Prod.fst hframe
      constructor
      · exact (location_of_report hreport.symm).trans (congrArg some hlocation.symm)
      · intro heof
        have hrune : rune.isEof = true := by
          rw [← isEof_report, ← hreport]
          exact heof
        cases rune with
        | char | undecodable | sentinel => cases hrune
        | eof => exact hlocation.trans (Location.advance_eof _ _)

/-- A new scanner gives the results of its text, none of which is the end, and then the end. -/
theorem take_results_end {source : List Delivery} {bytes : List UInt8} {failure : Option String}
    (htape : Tape.ofDeliveries source = ⟨bytes, failure⟩) (location : Location)
    (options : TextOptions) :
    ∃ readings symbol,
      readings.length = (options.lineStyle.results (Tape.runes bytes) failure).length ∧
      (∀ reading ∈ readings, reading.isEof = false) ∧ symbol.isEof = true ∧
      ∀ n, (Scanner.take (readings.length + n) (new source location options)).1 =
        readings ++ List.replicate n (.ok symbol) := by
  let results := options.lineStyle.results (Tape.runes bytes) failure
  let stop := options.after location results
  have hlength := options.length_layout results.length location results
  refine ⟨options.layout results.length location results,
    ⟨.eof, some (stop.advance .eof options.tabStop)⟩, hlength, ?_, rfl, ?_⟩
  · exact isEof_of_mem_results (LineStyle.eof_notMem_results _ bytes failure)
  · intro n
    rw [hlength, take_new htape, ← options.layout_nil]
    calc options.layout (results.length + n) location results
        = options.layout (results.length + n) location (results ++ []) := by rw [List.append_nil]
      _ = options.layout results.length location results ++ options.layout n stop [] :=
          options.layout_append n location results []

/-- The end comes after at most as many readings as there are bytes, and one for the failure of
the source.  It is an empty span where the last character stopped, and from then on it is all that
is given, from a source that is gone. -/
theorem end_reached_and_kept (source : List Delivery) (location : Location)
    (options : TextOptions) :
    ∃ count symbol,
      count ≤ (Tape.ofDeliveries source).bytes.length +
        (Tape.ofDeliveries source).failure.toList.length ∧
      (∀ k < count, (Scanner.transcript (new source location options) k).isEof = false) ∧
      (∀ k other, Scanner.transcript (new source location options) k = .ok other →
        other.location = some (Scanner.take (k + 1) (new source location options)).2.location) ∧
      symbol.isEof = true ∧
      symbol.location =
        some (Scanner.take count (new source location options)).2.location.ending ∧
      ∀ k ≥ count, Scanner.transcript (new source location options) k = .ok symbol ∧
        (Scanner.take (k + 1) (new source location options)).2.intake.source = none := by
  obtain ⟨readings, symbol, hlength, hreadings, heof, htake⟩ :=
    take_results_end rfl location options
  have htranscript := Scanner.transcript_of_take htake
  have hkept : ∀ k ≥ readings.length,
      Scanner.transcript (new source location options) k = .ok symbol := by
    intro k hk
    rw [htranscript, List.getElem?_eq_none hk]
    rfl
  have hstep : ∀ k other, Scanner.transcript (new source location options) k = .ok other →
      Scanner.next (Scanner.take k (new source location options)).2 =
        (.ok other, (Scanner.take (k + 1) (new source location options)).2) := by
    intro k other hother
    rw [Scanner.next_take, hother]
  refine ⟨readings.length, symbol, ?_, ?_, ?_, heof, ?_, ?_⟩
  · rw [hlength]
    exact LineStyle.length_results_le _ (Tape.ofDeliveries source)
  · intro k hk
    rw [htranscript, List.getElem?_eq_getElem hk]
    exact hreadings _ (List.getElem_mem hk)
  · intro k other hother
    exact (location_of_next (hstep k other hother)).1
  · obtain ⟨hlast, hending⟩ := location_of_next (hstep _ symbol (hkept _ le_rfl))
    rw [hlast, hending heof]
  · intro k hk
    have hsaved : (Scanner.take k (new source location options)).2.EndSaved :=
      invariant_endSaved.take k nofun
    exact ⟨hkept k hk, closed_of_next hsaved (hstep k symbol (hkept k hk)) heof⟩

end TextScanner

end Precedence
