import Mathlib.Order.Bounds.Defs
import Precedence.Proofs.Scanner.Tiling

/-!
# Tab stops

The columns that are reported on a line are those of the line with its tabs expanded, as long as
they fit into words.  A tab is as wide as it must be to stop at the next tab stop that is at least
two columns on.  That is the next tab stop if the tab does not begin at a multiple of the distance
between the stops; where it does, the tab stop right behind it is passed over.
-/

namespace Precedence

/-- The columns where a tab may stop: 1, `1 + tabStop`, `1 + 2 * tabStop` and so on. -/
def tabStops (tabStop : Nat) : Set Nat :=
  {col | ∃ k, col = 1 + k * tabStop}

/-- A line from column `col` on, with spaces instead of its tabs. -/
def expandTabs (tabStop : Nat) : Nat → List Rune → List Rune
  | _, [] => []
  | col, rune :: row =>
      if rune = .tab then
        List.replicate (tabWidth tabStop col) .space ++
          expandTabs tabStop (col + tabWidth tabStop col) row
      else rune :: expandTabs tabStop (col + 1) row

/-- Where rune `i` of a line begins once the tabs before it are expanded. -/
def expandedColumn (tabStop : Nat) (row : List Rune) (i : Nat) : Nat :=
  1 + (expandTabs tabStop 1 (row.take i)).length

variable {tabStop : Nat}

/-- A tab stops at the first tab stop that is at least two columns on. -/
theorem isLeast_tabStops (htabStop : 1 ≤ tabStop) (col : Nat) :
    IsLeast {stop ∈ tabStops tabStop | col + 1 < stop} (col + tabWidth tabStop col) := by
  have hcol := Nat.div_add_mod' col tabStop
  have hmod : col % tabStop < tabStop := Nat.mod_lt col htabStop
  have hsucc : (col / tabStop + 1) * tabStop = col / tabStop * tabStop + tabStop :=
    Nat.succ_mul _ _
  constructor
  · refine ⟨⟨col / tabStop + 1, ?_⟩, ?_⟩
    · rw [tabWidth]
      omega
    · rw [tabWidth]
      omega
  · rintro stop ⟨⟨k, rfl⟩, hbeyond⟩
    have hk : col / tabStop < k := (Nat.div_lt_iff_lt_mul htabStop).mpr (by omega)
    have hstop : (col / tabStop + 1) * tabStop ≤ k * tabStop := Nat.mul_le_mul_right tabStop hk
    rw [tabWidth]
    omega

/-- A tab stop follows right behind a column only if the column is a multiple of the distance. -/
theorem isLeast_tabStops_of_not_dvd (htabStop : 1 ≤ tabStop) {col : Nat} (hcol : ¬tabStop ∣ col) :
    IsLeast {stop ∈ tabStops tabStop | col < stop} (col + tabWidth tabStop col) := by
  have hstops : {stop ∈ tabStops tabStop | col < stop} =
      {stop ∈ tabStops tabStop | col + 1 < stop} := by
    -- Only `col + 1` could be in the one and not in the other.
    ext stop
    refine and_congr_right fun hstop => ⟨fun hbeyond => ?_, Nat.lt_of_succ_lt⟩
    apply lt_of_le_of_ne hbeyond
    rintro rfl
    obtain ⟨k, hk⟩ := hstop
    apply hcol
    exact Dvd.intro_left k (by omega)
  rw [hstops]
  exact isLeast_tabStops htabStop col

theorem length_expandTabs_append (tabStop col : Nat) (row later : List Rune) :
    (expandTabs tabStop col (row ++ later)).length =
      (expandTabs tabStop col row).length +
        (expandTabs tabStop (col + (expandTabs tabStop col row).length) later).length := by
  induction row generalizing col with
  | nil => exact (Nat.zero_add _).symm
  | cons rune row ih =>
      rw [List.cons_append, expandTabs, expandTabs]
      split
      · rw [List.length_append, List.length_append, List.length_replicate, ih]
        simp only [Nat.add_assoc]
      · rw [List.length_cons, List.length_cons, ih]
        simp only [Nat.add_assoc, Nat.add_comm 1]

/-- A rune takes as many columns as it is expanded to. -/
theorem length_expandTabs_singleton (tabStop col : Nat) (rune : Rune) :
    (expandTabs (max tabStop 1) col [rune]).length = rune.width tabStop col := by
  rw [expandTabs, Rune.width]
  split
  · rw [expandTabs, List.append_nil, List.length_replicate]
  · rfl

namespace FileSpan

variable {tabStop : UInt32} {span : FileSpan}

theorem line_along {text : List Rune} (hfits : span.Fits tabStop text) :
    (span.along tabStop text).stop.line.toNat =
      span.stop.line.toNat + text.count .newline := by
  induction text generalizing span with
  | nil => rfl
  | cons rune text ih =>
      obtain ⟨hroom, hlater⟩ := hfits
      have hadvance : (span.advance rune tabStop).stop.line.toNat =
          span.stop.line.toNat + if rune = .newline then 1 else 0 := by
        by_cases habsorbed : rune = .formFeed ∧ span.start.col ≤ 1
        · rw [advance_of_absorbed habsorbed, habsorbed.1]
          rfl
        · rw [advance_of_not_absorbed habsorbed]
          exact Position.line_after (hroom.resolve_left habsorbed)
      have hrest := ih hlater
      rw [hadvance] at hrest
      rw [List.count_cons, Nat.add_comm (text.count _), ← Nat.add_assoc]
      simp only [beq_iff_eq]
      exact hrest

/-- A newline leads to the first column of a line. -/
theorem at_along_newline {before : List Rune} (hfits : span.Fits tabStop before)
    (hstart : before = [] ∧ span.stop.col = 1 ∨ before.getLast? = some .newline) :
    (span.along tabStop before).stop.At (span.stop.line.toNat + before.count .newline) 1 := by
  refine ⟨line_along hfits, ?_⟩
  rcases hstart with ⟨rfl, hcol⟩ | hlast
  · exact congrArg UInt32.toNat hcol
  · obtain ⟨lines, rfl⟩ := List.getLast?_eq_some_iff.mp hlast
    rw [along_concat]
    rfl

/-- Along a line the column moves over the expanded line. -/
theorem at_along_row {row : List Rune} (htabStop : 1 ≤ tabStop.toNat) (heof : .eof ∉ row)
    (hnewline : .newline ∉ row) (hformFeed : .formFeed ∉ row) (hfits : span.Fits tabStop row)
    {line col : Nat} (hstop : span.stop.At line col) :
    (span.along tabStop row).stop.At line
      (col + (expandTabs tabStop.toNat col row).length) := by
  induction row generalizing span col with
  | nil => exact hstop
  | cons rune row ih =>
      rw [List.mem_cons, not_or] at heof hnewline hformFeed
      obtain ⟨hroom, hlater⟩ := hfits
      have hrune : rune ≠ .formFeed := Ne.symm hformFeed.1
      have hroom := hroom.resolve_left fun habsorbed => hrune habsorbed.1
      have hnext := hstop.after (Ne.symm heof.1) (Ne.symm hnewline.1) hroom
      have hwidth := length_expandTabs_singleton tabStop.toNat col rune
      have hlength := length_expandTabs_append tabStop.toNat col [rune] row
      rw [Nat.max_eq_left htabStop] at hwidth
      rw [List.singleton_append, hwidth] at hlength
      rw [hlength, ← Nat.add_assoc]
      refine ih heof.2 hnewline.2 hformFeed.2 hlater ?_
      rw [advance_eq hrune]
      exact hnext

theorem at_along_line {before row : List Rune} (htabStop : 1 ≤ tabStop.toNat) (heof : .eof ∉ row)
    (hnewline : .newline ∉ row) (hformFeed : .formFeed ∉ row)
    (hstart : before = [] ∧ span.stop.col = 1 ∨ before.getLast? = some .newline)
    (hfits : span.Fits tabStop (before ++ row)) :
    (span.along tabStop (before ++ row)).stop.At
      (span.stop.line.toNat + before.count .newline)
      (1 + (expandTabs tabStop.toNat 1 row).length) := by
  obtain ⟨hbefore, hrow⟩ := fits_append.mp hfits
  rw [along_append]
  exact at_along_row htabStop heof hnewline hformFeed hrow (at_along_newline hbefore hstart)

end FileSpan

theorem TextOptions.after_runes (options : TextOptions) (span : FileSpan) (text : List Rune) :
    options.after (.file span) (text.map .ok) = .file (span.along options.tabStop text) := by
  induction text generalizing span with
  | nil => rfl
  | cons rune text ih => exact ih _

/-- A rune of a normalized text among the results. -/
theorem LineStyle.results_rune {style : LineStyle} {text before later : List Rune} {rune : Rune}
    (htext : style.normalize text = before ++ rune :: later) (failure : Option String) :
    (style.results text failure)[before.length]? = some (.ok rune) ∧
      (style.results text failure).take before.length = before.map .ok := by
  rw [results, htext, List.map_append, List.append_assoc]
  constructor
  · rw [List.getElem?_append_right (by simp), List.length_map, Nat.sub_self]
    rfl
  · exact List.take_left' (List.length_map _)

/-- A rune of a normalized text is placed over it, from where the runes before it have led. -/
theorem TextScanner.transcript_of_rune {source : List Delivery} {options : TextOptions}
    {before later : List Rune} {rune : Rune}
    (htext : options.lineStyle.normalize (Tape.runes (Tape.ofDeliveries source).bytes) =
      before ++ rune :: later) (span : FileSpan) :
    Scanner.transcript (new source (.file span) options) before.length =
      report options.onBadEncoding
        (.file ((span.along options.tabStop before).advance rune options.tabStop)) rune := by
  obtain ⟨hrune, hbefore⟩ :=
    LineStyle.results_rune htext (Tape.ofDeliveries source).failure
  rw [transcript_of_result rfl (.file span) options hrune, hbefore, options.after_runes]
  rfl

/-- A rune of a line is placed between where its line has led before it and behind it. -/
theorem TextScanner.transcript_on_line {source : List Delivery} {options : TextOptions}
    {before row later : List Rune}
    (htext : options.lineStyle.normalize (Tape.runes (Tape.ofDeliveries source).bytes) =
      before ++ row ++ later)
    {i : Nat} (hi : i < row.length) (hformFeed : row[i] ≠ .formFeed)
    (hbytes : row[i] ≠ .undecodable) (span : FileSpan) :
    Scanner.transcript (new source (.file span) options) (before.length + i) =
      .ok ⟨row[i], some (.file ⟨span.file, (span.along options.tabStop (before ++ row.take i)).stop,
        (span.along options.tabStop (before ++ row.take (i + 1))).stop⟩)⟩ := by
  have hlength : (before ++ row.take i).length = before.length + i := by
    rw [List.length_append, List.length_take_of_le hi.le]
  have hsplit : before ++ row ++ later =
      (before ++ row.take i) ++ row[i] :: (row.drop (i + 1) ++ later) := by
    rw [← List.cons_append, ← List.drop_eq_getElem_cons hi, List.append_assoc, List.append_assoc,
      ← List.append_assoc (row.take i), List.take_append_drop]
  have hplace := transcript_of_rune (htext.trans hsplit) span
  rw [hlength, FileSpan.advance_eq hformFeed, FileSpan.file_along, report, if_neg hbytes] at hplace
  rw [hplace, List.take_succ_eq_append_getElem hi, ← List.append_assoc, FileSpan.along_concat,
    FileSpan.stop_advance hformFeed]

theorem expandedColumn_succ {row : List Rune} {i : Nat} (hi : i < row.length) :
    expandedColumn tabStop row (i + 1) = expandedColumn tabStop row i +
      (expandTabs tabStop (expandedColumn tabStop row i) [row[i]]).length := by
  rw [expandedColumn, expandedColumn, List.take_succ_eq_append_getElem hi,
    length_expandTabs_append, Nat.add_assoc]

/-- On a line that begins in the first column every rune takes the columns that it has on the
expanded line, if these fit into words.  A tab stops at the first tab stop that is at least two
columns on, which is the next one unless the tab begins at a multiple of the distance between the
stops. -/
theorem TextScanner.columns_of_expanded_line {source : List Delivery}
    {before row later : List Rune} {options : TextOptions} {span : FileSpan}
    (htabStop : 1 ≤ options.tabStop)
    (htext : options.lineStyle.normalize (Tape.runes (Tape.ofDeliveries source).bytes) =
      before ++ row ++ later)
    (hstart : before = [] ∧ span.stop.col = 1 ∨ before.getLast? = some .newline)
    (hnewline : .newline ∉ row) (hformFeed : .formFeed ∉ row) (hbytes : .undecodable ∉ row)
    {i : Nat} (hi : i < row.length)
    (hfits : span.Fits options.tabStop (before ++ row.take (i + 1))) :
    let tabStop := options.tabStop.toNat
    let line := span.stop.line.toNat + before.count .newline
    (∃ start stop, start.At line (expandedColumn tabStop row i) ∧
      stop.At line (expandedColumn tabStop row (i + 1)) ∧
      Scanner.transcript (new source (.file span) options) (before.length + i) =
        .ok ⟨row[i], some (.file ⟨span.file, start, stop⟩)⟩) ∧
      (row[i] = .tab →
        IsLeast {stop ∈ tabStops tabStop | expandedColumn tabStop row i + 1 < stop}
          (expandedColumn tabStop row (i + 1)) ∧
        (¬tabStop ∣ expandedColumn tabStop row i →
          IsLeast {stop ∈ tabStops tabStop | expandedColumn tabStop row i < stop}
            (expandedColumn tabStop row (i + 1)))) := by
  intro tabStop line
  have hpositive : 1 ≤ tabStop := UInt32.le_iff_toNat_le.mp htabStop
  have heof : .eof ∉ row := by
    intro hmem
    apply LineStyle.eof_notMem_normalize options.lineStyle (Tape.ofDeliveries source).bytes
    rw [htext]
    exact List.mem_append_left _ (List.mem_append_right _ hmem)
  constructor
  · have hrune : row[i] ∈ row := List.getElem_mem hi
    have hreached (j : Nat) (hfits : span.Fits options.tabStop (before ++ row.take j)) :
        (span.along options.tabStop (before ++ row.take j)).stop.At line
          (expandedColumn tabStop row j) :=
      FileSpan.at_along_line hpositive (mt List.mem_of_mem_take heof)
        (mt List.mem_of_mem_take hnewline) (mt List.mem_of_mem_take hformFeed) hstart hfits
    have hearlier : span.Fits options.tabStop (before ++ row.take i) := by
      rw [List.take_succ_eq_append_getElem hi, ← List.append_assoc, FileSpan.fits_append] at hfits
      exact hfits.1
    exact ⟨_, _, hreached i hearlier, hreached (i + 1) hfits, transcript_on_line htext hi
      (ne_of_mem_of_not_mem hrune hformFeed) (ne_of_mem_of_not_mem hrune hbytes) span⟩
  · intro htab
    have hstop : expandedColumn tabStop row (i + 1) = expandedColumn tabStop row i +
        tabWidth tabStop (expandedColumn tabStop row i) := by
      rw [expandedColumn_succ hi, htab]
      simp [expandTabs]
    rw [hstop]
    exact ⟨isLeast_tabStops hpositive _, isLeast_tabStops_of_not_dvd hpositive⟩

/-- Two tabs of a second line, of which the one that begins at column 8 passes over a stop. -/
theorem TextScanner.columns_of_expanded_line_second :
    Scanner.transcript (new [.bytes [0x61, 0x0A, 0x09, 0x61, 0x62, 0x63, 0x09, 0x64]]
        (.ofFile "x") { tabStop := 4 }) (2 + 4) =
        .ok ⟨.tab, some (.file ⟨"x", ⟨2, 8⟩, ⟨2, 13⟩⟩)⟩ ∧
      IsLeast {stop ∈ tabStops 4 | 8 + 1 < stop} 13 ∧ IsLeast {stop ∈ tabStops 4 | 1 < stop} 5 := by
  have htext : LineStyle.unknown.normalize (Tape.runes (Tape.ofDeliveries
      [.bytes [0x61, 0x0A, 0x09, 0x61, 0x62, 0x63, 0x09, 0x64]]).bytes) =
      [.char 'a', .newline] ++
        [.tab, .char 'a', .char 'b', .char 'c', .tab, .char 'd'] ++ [] := by decide
  have hcolumns := @columns_of_expanded_line _ _ _ _ { tabStop := 4 } (.ofFile "x") (by decide)
    htext (.inr rfl) (by decide) (by decide) (by decide)
  obtain ⟨-, hfirst⟩ := @hcolumns 0 (by decide)
    (FileSpan.fits_of_length (by decide) (by decide))
  obtain ⟨⟨start, stop, hstart, hstop, htab⟩, hsecond⟩ := @hcolumns 4 (by decide)
    (FileSpan.fits_of_length (by decide) (by decide))
  obtain rfl : start = ⟨2, 8⟩ := hstart.eq
  obtain rfl : stop = ⟨2, 13⟩ := hstop.eq
  exact ⟨htab, (hsecond rfl).1, (hfirst rfl).2 (by decide)⟩

/-- A tab that begins at a multiple of the distance between the stops does not go to the next
one. -/
theorem TextScanner.tab_passes_over_stop :
    Scanner.transcript (new [.bytes [0x61, 0x62, 0x63, 0x09, 0x64]] (.ofFile "x")
        { tabStop := 4 }) 3 = .ok ⟨.tab, some (.file ⟨"x", ⟨1, 4⟩, ⟨1, 9⟩⟩)⟩ ∧
      IsLeast {stop ∈ tabStops 4 | 4 < stop} 5 ∧ ¬IsLeast {stop ∈ tabStops 4 | 4 < stop} 9 := by
  have hnext : IsLeast {stop ∈ tabStops 4 | 4 < stop} 5 :=
    ⟨⟨⟨1, rfl⟩, by decide⟩, fun stop hstop => hstop.2⟩
  refine ⟨by rfl, hnext, fun hpassed => ?_⟩
  exact absurd (hpassed.2 hnext.1) (by decide)

end Precedence
