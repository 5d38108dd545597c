import Precedence.Proofs.Scanner.Refill
import Precedence.Proofs.Scanner.Steps
import Precedence.Proofs.Scanner.LineEndings

/-!
# The readings of a whole text

Reading a text gives its runes, with the line endings normalized, each moved over in turn, and then
the end of the input for ever.  The scanner gets there with one rune of look-ahead; `Ahead` says
what it has still to read in each of the states in which the look-ahead can leave it.
-/

namespace Precedence

/-- The first `n` readings of some runes and failures with the end of the input after them. -/
def TextOptions.layout (options : TextOptions) :
    Nat → Location → List (Except Error Rune) → List Reading
  | 0, _, _ => []
  | n + 1, location, results =>
      match results.headD (.ok .eof) with
      | .error error => .error error :: options.layout n location results.tail
      | .ok rune =>
          let location := location.advance rune options.tabStop
          TextScanner.report options.onBadEncoding location rune ::
            options.layout n location results.tail

namespace TextOptions

variable (options : TextOptions)

/-- Where a text goes on after some results. -/
def after (location : Location) : List (Except Error Rune) → Location
  | [] => location
  | .error _ :: results => after location results
  | .ok rune :: results => after (location.advance rune options.tabStop) results

@[simp]
theorem length_layout (n : Nat) (location : Location) (results : List (Except Error Rune)) :
    (options.layout n location results).length = n := by
  induction n generalizing location results with
  | zero => rfl
  | succ n ih =>
      rw [layout]
      split
      · exact congrArg (· + 1) (ih _ _)
      · exact congrArg (· + 1) (ih _ _)

/-- The reading of a rune is placed over it, from where the results before it have led. -/
theorem getElem?_layout {n i : Nat} (hi : i < n) (location : Location)
    {results : List (Except Error Rune)} {rune : Rune} (hrune : results[i]? = some (.ok rune)) :
    (options.layout n location results)[i]? =
      some (TextScanner.report options.onBadEncoding
        ((options.after location (results.take i)).advance rune options.tabStop) rune) := by
  induction i generalizing n location results with
  | zero =>
      obtain ⟨n, rfl⟩ := Nat.exists_eq_succ_of_ne_zero (Nat.ne_of_gt hi)
      cases results with
      | nil => cases hrune
      | cons result results =>
          cases Option.some.inj hrune
          rfl
  | succ i ih =>
      obtain ⟨n, rfl⟩ := Nat.exists_eq_succ_of_ne_zero (Nat.ne_of_gt (Nat.zero_lt_of_lt hi))
      cases results with
      | nil => cases hrune
      | cons result results =>
          cases result with
          | error error => exact ih (Nat.lt_of_succ_lt_succ hi) location hrune
          | ok rune => exact ih (Nat.lt_of_succ_lt_succ hi) _ hrune

theorem layout_append (n : Nat) (location : Location) (results later : List (Except Error Rune)) :
    options.layout (results.length + n) location (results ++ later) =
      options.layout results.length location results ++
        options.layout n (options.after location results) later := by
  induction results generalizing location with
  | nil =>
      rw [List.length_nil, Nat.zero_add]
      rfl
  | cons result results ih =>
      rw [List.length_cons, Nat.add_right_comm]
      cases result with
      | error error => exact congrArg (_ :: ·) (ih location)
      | ok rune => exact congrArg (_ :: ·) (ih _)

/-- A text whose runes are all read, with other results after it. -/
theorem layout_runes (n : Nat) (location : Location) (runes : List Rune)
    (later : List (Except Error Rune)) :
    options.layout (runes.length + n) location (runes.map .ok ++ later) =
      options.layout runes.length location (runes.map .ok) ++
        options.layout n (options.after location (runes.map .ok)) later := by
  have happend := options.layout_append n location (runes.map .ok) later
  rwa [List.length_map] at happend

/-- The end of a text is one symbol for ever: an end begins and stops where the text stops. -/
theorem layout_nil (n : Nat) (location : Location) :
    options.layout n location [] =
      List.replicate n (.ok ⟨.eof, some (location.advance .eof options.tabStop)⟩) := by
  induction n generalizing location with
  | zero => rfl
  | succ n ih =>
      have hstays : (location.advance .eof options.tabStop).advance .eof options.tabStop =
          location.advance .eof options.tabStop := by
        cases location with
        | file | arg | mark => rfl
      have hrest := ih (location.advance .eof options.tabStop)
      rw [hstays] at hrest
      rw [layout, List.replicate_succ]
      exact congrArg (_ :: ·) hrest

end TextOptions

/-- A whole text with its line endings normalized, and the failure after it. -/
def LineStyle.results (style : LineStyle) (text : List Rune) (failure : Option String) :
    List (Except Error Rune) :=
  (style.normalize text).map .ok ++ failure.toList.map (fun message => .error (.io message))

theorem LineStyle.eof_notMem_normalize (style : LineStyle) (bytes : List UInt8) :
    .eof ∉ style.normalize (Tape.runes bytes) := by
  intro hmem
  rcases LineStyle.mem_normalize hmem with hrune | hrune | hrune
  · exact absurd hrune (by decide)
  · exact absurd hrune (by decide)
  · exact Tape.eof_notMem_runes bytes hrune

/-- A scanner of these options at a location. -/
def TextOptions.scanner (options : TextOptions) (location : Location) (lineStyle : LineStyle)
    (intake : Intake) (deferred : Option Error) (saved : Option Rune) : TextScanner :=
  { intake, deferred, saved, lineStyle, location, tabStop := options.tabStop,
    onBadEncoding := options.onBadEncoding }

namespace TextScanner

/-- Scanners that have a text still to read and then, if there is one, a failure to report. -/
inductive Ahead (options : TextOptions) (location : Location) (style : LineStyle) :
    List Rune → Option String → TextScanner → Prop
  | unread {intake : Intake} {text : List Rune} {failure : Option String}
      (hintake : intake.Holds text failure) :
      Ahead options location style text failure (options.scanner location style intake none none)
  | saved {intake : Intake} {rune : Rune} {text : List Rune} {failure : Option String}
      (hrune : rune ≠ .eof) (hintake : intake.Holds text failure) :
      Ahead options location style (rune :: text) failure
        (options.scanner location style intake none (some rune))
  | savedEnd {intake : Intake} (hintake : intake.Holds [] none) :
      Ahead options location style [] none
        (options.scanner location style intake none (some .eof))
  | deferred {intake : Intake} {message : String} (hintake : intake.Holds [] none) :
      Ahead options location style [] (some message)
        (options.scanner location style intake (some (.io message)) none)

variable {options : TextOptions} {location : Location} {style : LineStyle}
variable {text : List Rune} {failure : Option String}

theorem ahead_new {source : List Delivery} {bytes : List UInt8}
    (htape : Tape.ofDeliveries source = ⟨bytes, failure⟩) :
    Ahead options location options.lineStyle (Tape.runes bytes) failure
      (new source location options) :=
  .unread (Intake.holds_ofDeliveries htape)

theorem Ahead.lineStyle_eq {scanner : TextScanner}
    (hahead : Ahead options location style text failure scanner) : scanner.lineStyle = style := by
  cases hahead with
  | unread | saved | savedEnd | deferred => rfl

theorem takeRune_unread {intake rest : Intake} {result : Except Error Rune}
    (hdecode : intake.decode = (result, rest)) :
    (options.scanner location style intake none none).takeRune =
      (result, options.scanner location style rest none none) := by
  simp only [takeRune, TextOptions.scanner, hdecode]

theorem Ahead.deliver {scanner : TextScanner} (rune : Rune)
    (hahead : Ahead options location style text failure scanner) :
    ∃ following, scanner.deliver rune =
        (report options.onBadEncoding (location.advance rune options.tabStop) rune, following) ∧
      Ahead options (location.advance rune options.tabStop) style text failure following := by
  cases hahead with
  | unread hintake => exact ⟨_, rfl, .unread hintake⟩
  | saved hrune hintake => exact ⟨_, rfl, .saved hrune hintake⟩
  | savedEnd hintake => exact ⟨_, rfl, .savedEnd hintake⟩
  | deferred hintake => exact ⟨_, rfl, .deferred hintake⟩

/-- A line ending is settled as normalizing the text settles it. -/
theorem ahead_endLine {intake : Intake} {first : Rune}
    (hfirst : first = .carriageReturn ∨ first = .newline) (hintake : intake.Holds text failure) :
    ∃ rune next rest settled,
      endLine first (options.scanner location style intake none none) = (rune, settled) ∧
      style.Yields (first :: text) rune next rest ∧
      Ahead options location next rest failure settled := by
  let scanner := options.scanner location style intake none none
  rcases hone : style.accept [first] with ⟨disposition, next⟩
  by_cases hmore : disposition = .more
  · subst hmore
    obtain ⟨rfl, rfl, hstyle⟩ := LineStyle.accept_more hone
    cases text with
    | nil =>
        rcases htwo : next.accept [.carriageReturn, .eof] with ⟨disposition, style⟩
        obtain ⟨hkeeps, hyields⟩ := LineStyle.yields_accept_end hstyle htwo
        cases failure with
        | none =>
            obtain ⟨rest, hdecode, hrest⟩ := hintake.decode_end
            have hend := endLine_of_two scanner hone hdecode htwo
            rw [if_pos hkeeps] at hend
            exact ⟨_, _, _, _, hend, hyields, .savedEnd hrest⟩
        | some message =>
            obtain ⟨rest, hdecode, hrest⟩ := hintake.decode_failure
            have hend := endLine_of_failure scanner hone hdecode htwo
            exact ⟨_, _, _, _, hend, hyields, .deferred hrest⟩
    | cons second text =>
        obtain ⟨hsecond, rest, hdecode, hrest⟩ := hintake.decode_cons
        rcases htwo : next.accept [.carriageReturn, second] with ⟨disposition, style⟩
        have hyields := LineStyle.yields_accept_two hstyle htwo text
        have hend := endLine_of_two scanner hone hdecode htwo
        refine ⟨_, _, _, _, hend, hyields, ?_⟩
        split
        · exact .saved hsecond hrest
        · exact .unread hrest
  · have hyields := LineStyle.yields_accept_one hfirst hone hmore text
    exact ⟨_, _, _, _, endLine_of_one scanner hone hmore, hyields, .unread hintake⟩

/-- A rune that was taken is settled as normalizing the text settles it. -/
theorem ahead_settle {intake : Intake} (rune : Rune) (hintake : intake.Holds text failure) :
    ∃ rune' next rest settled,
      settle rune (options.scanner location style intake none none) = (rune', settled) ∧
      style.Yields (rune :: text) rune' next rest ∧
      Ahead options location next rest failure settled := by
  rw [settle]
  split
  · next hline => exact ahead_endLine hline hintake
  · next hline =>
      obtain ⟨hreturn, hnewline⟩ := not_or.mp hline
      have hyields := LineStyle.yields_other hnewline hreturn style text
      exact ⟨_, _, _, _, rfl, hyields, .unread hintake⟩

theorem Ahead.next_cons {scanner : TextScanner} {rune : Rune}
    (hahead : Ahead options location style (rune :: text) failure scanner) :
    ∃ rune' next rest following,
      scanner.next =
        (report options.onBadEncoding (location.advance rune' options.tabStop) rune',
          following) ∧
      style.Yields (rune :: text) rune' next rest ∧
      Ahead options (location.advance rune' options.tabStop) next rest failure following := by
  have htake : scanner.deferred = none ∧ ∃ intake,
      scanner.takeRune = (.ok rune, options.scanner location style intake none none) ∧
      intake.Holds text failure := by
    cases hahead with
    | unread hintake =>
        obtain ⟨_, rest, hdecode, hrest⟩ := hintake.decode_cons
        exact ⟨rfl, rest, takeRune_unread hdecode, hrest⟩
    | saved hrune hintake => exact ⟨rfl, _, rfl, hintake⟩
  obtain ⟨hdeferred, intake, htake, hintake⟩ := htake
  obtain ⟨rune', next, rest, settled, hsettle, hyields, hsettled⟩ := ahead_settle rune hintake
  obtain ⟨following, hdeliver, hfollowing⟩ := hsettled.deliver rune'
  rw [next_of_rune hdeferred htake hsettle]
  exact ⟨rune', next, rest, following, hdeliver, hyields, hfollowing⟩

theorem Ahead.next_failure {scanner : TextScanner} {message : String}
    (hahead : Ahead options location style [] (some message) scanner) :
    ∃ following, scanner.next = (.error (.io message), following) ∧
      Ahead options location style [] none following := by
  cases hahead with
  | unread hintake =>
      obtain ⟨rest, hdecode, hrest⟩ := hintake.decode_failure
      exact ⟨_, next_of_error rfl (takeRune_unread hdecode), .unread hrest⟩
  | deferred hintake => exact ⟨_, next_of_deferred rfl, .unread hintake⟩

theorem Ahead.next_end {scanner : TextScanner}
    (hahead : Ahead options location style [] none scanner) :
    ∃ following,
      scanner.next =
        (report options.onBadEncoding (location.advance .eof options.tabStop) .eof, following) ∧
      Ahead options (location.advance .eof options.tabStop) style [] none following := by
  have htake : scanner.deferred = none ∧ ∃ intake,
      scanner.takeRune = (.ok .eof, options.scanner location style intake none none) ∧
      intake.Holds [] none := by
    cases hahead with
    | unread hintake =>
        obtain ⟨rest, hdecode, hrest⟩ := hintake.decode_end
        exact ⟨rfl, rest, takeRune_unread hdecode, hrest⟩
    | savedEnd hintake => exact ⟨rfl, _, rfl, hintake⟩
  obtain ⟨hdeferred, intake, htake, hintake⟩ := htake
  have hsettle : settle .eof (options.scanner location style intake none none) =
      (.eof, options.scanner location style intake none none) := if_neg (by decide)
  rw [next_of_rune hdeferred htake hsettle]
  exact Ahead.deliver .eof (.unread hintake)

/-- One call gives the first of the results and leaves the others. -/
theorem Ahead.next_results {scanner : TextScanner}
    (hahead : Ahead options location style text failure scanner) :
    ∃ location' style' text' failure',
      Ahead options location' style' text' failure' scanner.next.2 ∧
      style.resolve text = style'.resolve text' ∧
      ∀ n, options.layout (n + 1) location (style.results text failure) =
        scanner.next.1 :: options.layout n location' (style'.results text' failure') := by
  cases text with
  | cons rune text =>
      obtain ⟨rune', style', rest, following, hnext, hyields, hfollowing⟩ := hahead.next_cons
      have hresults : style.results (rune :: text) failure =
          .ok rune' :: style'.results rest failure := by
        rw [LineStyle.results, hyields.normalize_eq]
        rfl
      rw [hnext, hresults]
      exact ⟨_, _, _, _, hfollowing, hyields.resolve_eq, fun n => rfl⟩
  | nil =>
      have hresults : style.results [] none = [] := by simp [LineStyle.results]
      cases failure with
      | some message =>
          obtain ⟨following, hnext, hfollowing⟩ := hahead.next_failure
          have hfailure : style.results [] (some message) = [.error (.io message)] := by
            simp [LineStyle.results]
          rw [hnext, hfailure]
          refine ⟨_, _, _, _, hfollowing, rfl, fun n => ?_⟩
          rw [hresults]
          rfl
      | none =>
          obtain ⟨following, hnext, hfollowing⟩ := hahead.next_end
          rw [hnext, hresults]
          refine ⟨_, _, _, _, hfollowing, rfl, fun n => ?_⟩
          rw [hresults]
          rfl

theorem Ahead.take_results {scanner : TextScanner}
    (hahead : Ahead options location style text failure scanner) (n : Nat) :
    (Scanner.take n scanner).1 = options.layout n location (style.results text failure) ∧
      ∃ location' style' text' failure',
        Ahead options location' style' text' failure' (Scanner.take n scanner).2 ∧
        style.resolve text = style'.resolve text' := by
  induction n generalizing location style text failure scanner with
  | zero => exact ⟨rfl, location, style, text, failure, hahead, rfl⟩
  | succ n ih =>
      obtain ⟨location', style', text', failure', hnext, hresolve, hlayout⟩ :=
        hahead.next_results
      obtain ⟨hreadings, location'', style'', text'', failure'', hlast, hresolve'⟩ := ih hnext
      rw [hlayout n, ← hreadings]
      exact ⟨rfl, location'', style'', text'', failure'', hlast, hresolve.trans hresolve'⟩

/-- What a new scanner gives, in full. -/
theorem take_new {source : List Delivery} {bytes : List UInt8} {failure : Option String}
    (htape : Tape.ofDeliveries source = ⟨bytes, failure⟩) (location : Location)
    (options : TextOptions) (n : Nat) :
    (Scanner.take n (new source location options)).1 =
      options.layout n location (options.lineStyle.results (Tape.runes bytes) failure) :=
  ((ahead_new htape).take_results n).1

/-- A new scanner gives each rune of the normalized text at its place. -/
theorem transcript_of_result {source : List Delivery} {bytes : List UInt8} {failure : Option String}
    (htape : Tape.ofDeliveries source = ⟨bytes, failure⟩) (location : Location)
    (options : TextOptions) {n : Nat} {rune : Rune}
    (hrune : (options.lineStyle.results (Tape.runes bytes) failure)[n]? = some (.ok rune)) :
    Scanner.transcript (new source location options) n =
      report options.onBadEncoding
        ((options.after location ((options.lineStyle.results (Tape.runes bytes) failure).take n)
          ).advance rune options.tabStop) rune := by
  have hreadings := take_new htape location options (n + 1)
  rw [Scanner.take_eq_map] at hreadings
  have hread := congrArg (·[n]?) hreadings
  have hlt := Nat.lt_succ_self n
  simp only [List.getElem?_map, List.getElem?_range hlt, Option.map_some,
    options.getElem?_layout hlt location hrune] at hread
  exact Option.some.inj hread

/-- A line style other than `unknown` never changes. -/
theorem invariant_lineStyle {style : LineStyle} (hstyle : style ≠ .unknown) :
    Invariant fun scanner => scanner.lineStyle = style where
  report _ hscanner := hscanner
  takeRune scanner hscanner := by
    rw [TextScanner.takeRune]
    split
    · exact hscanner
    · exact hscanner
  settle rune scanner hscanner := by
    have hsame : ∀ {run : List Rune} {disposition : Disposition} {kept : LineStyle},
        style.accept run = (disposition, kept) → kept = style := by
      intro run disposition kept haccept
      have hkept := LineStyle.accept_of_ne hstyle run
      rwa [haccept] at hkept
    have hstep := scanner.settling rune
    generalize scanner.settle rune = step at hstep ⊢
    cases hstep with
    | other => exact hscanner
    | one haccept =>
        rw [hscanner] at haccept
        exact hsame haccept
    | two hmore _ haccept | failure hmore _ haccept =>
        rw [hscanner] at hmore
        rw [hsame hmore] at haccept
        exact hsame haccept
  deliver _ _ hscanner := hscanner

theorem rune_of_report {onBadEncoding : Option EncodingHandler} {rune : Rune} {symbol : Symbol}
    (hreport : report onBadEncoding location rune = .ok symbol) :
    symbol.rune = rune ∨ symbol.rune = .replacement := by
  rw [report] at hreport
  split at hreport
  · dsimp only at hreport
    split at hreport
    · cases hreport
    · cases hreport
      exact .inr rfl
  · cases hreport
    exact .inl rfl

theorem isEof_report (onBadEncoding : Option EncodingHandler) (location : Location) (rune : Rune) :
    (report onBadEncoding location rune).isEof = rune.isEof := by
  rw [report]
  split
  · next hrune =>
      subst hrune
      dsimp only
      split <;> rfl
  · rfl

/-- A symbol of a layout is one of the runes, the end of the input or a replacement. -/
theorem rune_of_mem_layout {n : Nat} {results : List (Except Error Rune)} {symbol : Symbol}
    (hmem : .ok symbol ∈ options.layout n location results) :
    .ok symbol.rune ∈ results ∨ symbol.rune = .eof ∨ symbol.rune = .replacement := by
  induction n generalizing location results with
  | zero => exact absurd hmem List.not_mem_nil
  | succ n ih =>
      cases results with
      | nil =>
          rcases List.mem_cons.mp hmem with hhead | htail
          · exact .inr (rune_of_report hhead.symm)
          · exact ih htail
      | cons result results =>
          have htail : ∀ {location}, .ok symbol ∈ options.layout n location results →
              .ok symbol.rune ∈ result :: results ∨ symbol.rune = .eof ∨
                symbol.rune = .replacement :=
            fun htail => (ih htail).imp_left (List.mem_cons_of_mem _)
          cases result with
          | error error =>
              rcases List.mem_cons.mp hmem with hhead | hlater
              · exact absurd hhead nofun
              · exact htail hlater
          | ok rune =>
              rcases List.mem_cons.mp hmem with hhead | hlater
              · rcases rune_of_report hhead.symm with hrune | hrune
                · rw [hrune]
                  exact .inl List.mem_cons_self
                · exact .inr (.inr hrune)
              · exact htail hlater

/-- Reading a text that ends normalizes its line endings: the readings are those of the rewritten
text, none of them a carriage return, and the line style, once it is known, is the style of the
rewriting for good. -/
theorem take_normalize {source : List Delivery} {bytes : List UInt8}
    (htape : Tape.ofDeliveries source = ⟨bytes, none⟩) (location : Location)
    (options : TextOptions) (n : Nat) :
    (Scanner.take n (new source location options)).1 =
        options.layout n location
          ((options.lineStyle.normalize (Tape.runes bytes)).map .ok) ∧
      (∀ symbol, .ok symbol ∈ (Scanner.take n (new source location options)).1 →
        symbol.rune ≠ .carriageReturn) ∧
      ((Scanner.take n (new source location options)).2.lineStyle ≠ .unknown →
        ∀ k, (Scanner.take (n + k) (new source location options)).2.lineStyle =
          options.lineStyle.resolve (Tape.runes bytes)) := by
  have hahead : Ahead options location options.lineStyle (Tape.runes bytes) none
      (new source location options) := ahead_new htape
  obtain ⟨-, location', style, text, failure, hlast, hresolve⟩ := hahead.take_results n
  have hreadings := take_new htape location options n
  have hresults : options.lineStyle.results (Tape.runes bytes) none =
      (options.lineStyle.normalize (Tape.runes bytes)).map .ok := List.append_nil _
  rw [hresults] at hreadings
  refine ⟨hreadings, ?_, ?_⟩
  · intro symbol hmem hrune
    rw [hreadings] at hmem
    rcases rune_of_mem_layout hmem with hresult | heof | hreplacement
    · obtain ⟨rune, hnormalized, hok⟩ := List.mem_map.mp hresult
      cases hok
      exact LineStyle.carriageReturn_notMem_normalize _ _ (hrune ▸ hnormalized)
    · exact absurd (hrune.symm.trans heof) nofun
    · exact absurd (hrune.symm.trans hreplacement) (by decide)
  · intro hstyle k
    have hlineStyle := hlast.lineStyle_eq
    calc (Scanner.take (n + k) (new source location options)).2.lineStyle
        = (Scanner.take n (new source location options)).2.lineStyle := by
          rw [Scanner.take_add]
          exact (invariant_lineStyle hstyle).take k rfl
      _ = style := hlineStyle
      _ = style.resolve text := (LineStyle.resolve_of_ne (hlineStyle ▸ hstyle) text).symm
      _ = options.lineStyle.resolve (Tape.runes bytes) := hresolve.symm

/-- A Dos line ending that settles the style, a lone carriage return and a broken byte. -/
theorem take_normalize_dos :
    (Scanner.take 5 (new [.bytes [0x61, 0x0D], .bytes [0x0A, 0x0D, 0xFF]] (.ofFile "x") {})).1 =
        TextOptions.layout {} 5 (.ofFile "x")
          [.ok (.char 'a'), .ok .newline, .ok .space, .ok .undecodable] ∧
      (Scanner.take (2 + 3) (new [.bytes [0x61, 0x0D], .bytes [0x0A, 0x0D, 0xFF]]
        (.ofFile "x") {})).2.lineStyle = .dos := by
  have htape : Tape.ofDeliveries [.bytes [0x61, 0x0D], .bytes [0x0A, 0x0D, 0xFF]] =
      ⟨[0x61, 0x0D, 0x0A, 0x0D, 0xFF], none⟩ := by decide
  constructor
  · obtain ⟨hreadings, -, -⟩ := take_normalize htape (.ofFile "x") {} 5
    exact hreadings
  · obtain ⟨-, -, hstyle⟩ := take_normalize htape (.ofFile "x") {} 2
    exact hstyle (by decide) 3

end TextScanner

end Precedence
