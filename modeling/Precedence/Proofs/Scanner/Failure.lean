import Precedence.Proofs.Scanner.Layout

/-!
# A failure before the end

A source that fails after some bytes is read like one that ends after them.  The readings of the
bytes are the same, a line ending or an encoded scalar value that the failure cuts short included;
then the failure is reported, once, and moves nothing; and then the end is given, the same end as
without the failure.
-/

namespace Precedence.TextScanner

variable {options : TextOptions} {location : Location} {style : LineStyle}
variable {text : List Rune} {failure : Option String}

theorem Ahead.location_eq {scanner : TextScanner}
    (hahead : Ahead options location style text failure scanner) : scanner.location = location := by
  cases hahead with
  | unread | saved | savedEnd | deferred => rfl

/-- As many calls as the normalized text has runes leave nothing of the text. -/
theorem Ahead.take_text {scanner : TextScanner}
    (hahead : Ahead options location style text failure scanner) :
    ∃ location' style', Ahead options location' style' [] failure
      (Scanner.take (style.normalize text).length scanner).2 := by
  generalize hrunes : style.normalize text = runes
  induction runes generalizing location style text scanner with
  | nil =>
      cases text with
      | nil => exact ⟨location, style, hahead⟩
      | cons rune text =>
          obtain ⟨_, _, _, _, _, hyields, _⟩ := hahead.next_cons
          exact absurd (hyields.normalize_eq.symm.trans hrunes) (List.cons_ne_nil _ _)
  | cons rune runes ih =>
      cases text with
      | nil =>
          rw [LineStyle.normalize_nil] at hrunes
          exact absurd hrunes.symm (List.cons_ne_nil _ _)
      | cons first text =>
          obtain ⟨rune', next, rest, following, hnext, hyields, hfollowing⟩ := hahead.next_cons
          obtain ⟨-, hrest⟩ := List.cons.inj (hyields.normalize_eq.symm.trans hrunes)
          have hstep : scanner.next.2 = following := by rw [hnext]
          exact ih (hstep ▸ hfollowing) hrest

/-- The report of a failure moves nothing. -/
theorem Ahead.location_failure {scanner : TextScanner} {message : String}
    (hahead : Ahead options location style [] (some message) scanner) :
    scanner.next.2.location = scanner.location := by
  obtain ⟨following, hnext, hfollowing⟩ := hahead.next_failure
  calc scanner.next.2.location
      = following.location := by rw [hnext]
    _ = location := hfollowing.location_eq
    _ = scanner.location := hahead.location_eq.symm

theorem isEof_of_mem_results {results : List (Except Error Rune)} (heof : .ok .eof ∉ results) :
    ∀ reading ∈ options.layout results.length location results, reading.isEof = false := by
  induction results generalizing location with
  | nil => exact fun reading hmem => absurd hmem List.not_mem_nil
  | cons result results ih =>
      obtain ⟨hresult, hresults⟩ := not_or.mp (mt List.mem_cons.mpr heof)
      cases result with
      | error error =>
          intro reading hmem
          rcases List.mem_cons.mp hmem with rfl | hmem
          · rfl
          · exact ih hresults reading hmem
      | ok rune =>
          intro reading hmem
          rcases List.mem_cons.mp hmem with rfl | hmem
          · rw [isEof_report]
            cases rune with
            | eof => exact absurd rfl hresult
            | char | undecodable | sentinel => rfl
          · exact ih hresults reading hmem

theorem isEof_of_mem_layout {runes : List Rune} (heof : .eof ∉ runes) :
    ∀ reading ∈ options.layout runes.length location (runes.map .ok), reading.isEof = false := by
  have hresults : .ok .eof ∉ (runes.map .ok : List (Except Error Rune)) := by
    intro hmem
    obtain ⟨rune, hrune, hok⟩ := List.mem_map.mp hmem
    exact heof (Except.ok.inj hok ▸ hrune)
  have hlength : runes.length = (runes.map .ok : List (Except Error Rune)).length :=
    (List.length_map _).symm
  rw [hlength]
  exact isEof_of_mem_results hresults

/-- Of two sources that deliver the same bytes let one fail after them and the other one end.  Both
give the readings of the normalized text, none of them an end; then the first one gives the
failure, which leaves the location where it is, and from there on both give one and the same
end. -/
theorem failure_before_end {failing ending : List Delivery} {bytes : List UInt8} {message : String}
    (hfailing : Tape.ofDeliveries failing = ⟨bytes, some message⟩)
    (hending : Tape.ofDeliveries ending = ⟨bytes, none⟩) (location : Location)
    (options : TextOptions) :
    ∃ readings symbol,
      readings = options.layout (options.lineStyle.normalize (Tape.runes bytes)).length location
        ((options.lineStyle.normalize (Tape.runes bytes)).map .ok) ∧
      (∀ reading ∈ readings, reading.isEof = false) ∧ symbol.isEof = true ∧
      (∀ n, (Scanner.take (readings.length + n) (new ending location options)).1 =
        readings ++ List.replicate n (.ok symbol)) ∧
      (∀ n, (Scanner.take (readings.length + (n + 1)) (new failing location options)).1 =
        readings ++ .error (.io message) :: List.replicate n (.ok symbol)) ∧
      (Scanner.take (readings.length + 1) (new failing location options)).2.location =
        (Scanner.take readings.length (new failing location options)).2.location := by
  let text := options.lineStyle.normalize (Tape.runes bytes)
  let stop := options.after location (text.map .ok)
  let symbol : Symbol := ⟨.eof, some (stop.advance .eof options.tabStop)⟩
  have hend := fun n => options.layout_nil n stop
  have heof : .eof ∉ text := LineStyle.eof_notMem_normalize _ bytes
  refine ⟨_, symbol, rfl, isEof_of_mem_layout heof, rfl, fun n => ?_, fun n => ?_, ?_⟩
  · rw [TextOptions.length_layout, take_new hending, LineStyle.results, Option.toList_none,
      List.map_nil, ← hend n]
    exact options.layout_runes n location text []
  · rw [TextOptions.length_layout, take_new hfailing, LineStyle.results, ← hend n]
    exact options.layout_runes (n + 1) location text [.error (.io message)]
  · have hahead : Ahead options location options.lineStyle (Tape.runes bytes) (some message)
        (new failing location options) := ahead_new hfailing
    obtain ⟨location', style', hlast⟩ := hahead.take_text
    rw [TextOptions.length_layout, Scanner.take_add]
    exact hlast.location_failure

/-- The failure cuts an encoded scalar value short and comes after a carriage return. -/
theorem failure_before_end_return :
    ∃ readings symbol,
      readings.length = 4 ∧
      (Scanner.take (readings.length + 1) (new [.bytes [0x61, 0xE2, 0x82, 0x0D], .finish]
        (.ofFile "x") {})).1 = readings ++ [.ok symbol] ∧
      (Scanner.take (readings.length + (2 + 1)) (new [.bytes [0x61, 0xE2], .interrupted,
        .bytes [0x82, 0x0D], .failure "reset", .bytes [0x62]] (.ofFile "x") {})).1 =
          readings ++ [.error (.io "reset"), .ok symbol, .ok symbol] := by
  have hfailing : Tape.ofDeliveries [.bytes [0x61, 0xE2], .interrupted, .bytes [0x82, 0x0D],
      .failure "reset", .bytes [0x62]] = ⟨[0x61, 0xE2, 0x82, 0x0D], some "reset"⟩ := by decide
  have hending : Tape.ofDeliveries [.bytes [0x61, 0xE2, 0x82, 0x0D], .finish] =
      ⟨[0x61, 0xE2, 0x82, 0x0D], none⟩ := by decide
  obtain ⟨readings, symbol, hreadings, _, _, hended, hfailed, _⟩ :=
    failure_before_end hfailing hending (.ofFile "x") {}
  refine ⟨readings, symbol, ?_, hended 1, hfailed 2⟩
  rw [hreadings]
  rfl

end Precedence.TextScanner
