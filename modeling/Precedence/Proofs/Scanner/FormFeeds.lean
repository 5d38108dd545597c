import Precedence.Proofs.Scanner.TabStops

/-!
# Form feeds

A form feed takes no column if the last rune that took one began in the first column of its line.
So form feeds are absorbed right behind the first rune of a line that takes columns.  At the start
of a line they are absorbed only if it is the first line, where there is no such rune, or comes
after a line without columns, whose newline is that rune.  That is so as long as lines and columns
fit into words.
-/

namespace Precedence

def skipFormFeeds (row : List Rune) : List Rune := row.dropWhile (· = .formFeed)

/-- The runes of a line without the form feeds right behind the first one. -/
def skipBehindFirst : List Rune → List Rune
  | [] => []
  | rune :: row => rune :: skipFormFeeds row

/-- The runes of a line that take columns.  On a fresh line, which is the first one or comes after a
line without columns, form feeds at the start take none. -/
def columnRunes (fresh : Bool) (row : List Rune) : List Rune :=
  skipBehindFirst (if fresh then skipFormFeeds row else row)

/-- A form feed after this part of a line takes no column. -/
def Absorbs (fresh : Bool) (row : List Rune) : Prop :=
  (columnRunes fresh row).length = 1 ∨ columnRunes fresh row = [] ∧ fresh = true

instance (fresh : Bool) (row : List Rune) : Decidable (Absorbs fresh row) :=
  inferInstanceAs (Decidable (_ ∨ _))

/-- Whether the line after one is fresh. -/
def freshAfter (fresh : Bool) (row : List Rune) : Bool := (columnRunes fresh row).isEmpty

/-- Lines with the newlines that end them. -/
def endedLines (lines : List (List Rune)) : List Rune := lines.flatMap (· ++ [.newline])

/-- The column after this part of a line. -/
def columnAfter (tabStop : Nat) (fresh : Bool) (row : List Rune) : Nat :=
  1 + (expandTabs (max tabStop 1) 1 (columnRunes fresh row)).length

theorem skipFormFeeds_concat (row : List Rune) (rune : Rune) :
    skipFormFeeds (row ++ [rune]) =
      if rune = .formFeed ∧ skipFormFeeds row = [] then [] else skipFormFeeds row ++ [rune] := by
  simp only [skipFormFeeds, List.dropWhile_append, List.isEmpty_iff]
  by_cases hrow : row.dropWhile (· = .formFeed) = []
  · by_cases hrune : rune = .formFeed
    · simp [hrow, hrune]
    · simp [hrow, hrune]
  · simp [hrow]

theorem skipBehindFirst_eq_nil {row : List Rune} : skipBehindFirst row = [] ↔ row = [] := by
  cases row with
  | nil => exact Iff.rfl
  | cons rune row => exact iff_of_false (List.cons_ne_nil _ _) (List.cons_ne_nil _ _)

theorem skipBehindFirst_concat (row : List Rune) (rune : Rune) :
    skipBehindFirst (row ++ [rune]) =
      if rune = .formFeed ∧ (skipBehindFirst row).length = 1 then skipBehindFirst row
      else skipBehindFirst row ++ [rune] := by
  cases row with
  | nil => simp [skipBehindFirst, skipFormFeeds]
  | cons first row =>
      simp only [List.cons_append, skipBehindFirst, skipFormFeeds_concat, List.length_cons,
        Nat.add_eq_right, List.length_eq_zero_iff]
      split
      · next habsorbed => rw [habsorbed.2]
      · rfl

/-- One more rune on a line takes columns unless it is a form feed that is absorbed. -/
theorem columnRunes_concat (fresh : Bool) (row : List Rune) (rune : Rune) :
    columnRunes fresh (row ++ [rune]) =
      if rune = .formFeed ∧ Absorbs fresh row then columnRunes fresh row
      else columnRunes fresh row ++ [rune] := by
  cases fresh with
  | false => simp [columnRunes, Absorbs, skipBehindFirst_concat]
  | true =>
      simp only [columnRunes, Absorbs, if_true, and_true, skipFormFeeds_concat,
        skipBehindFirst_eq_nil]
      by_cases hrune : rune = .formFeed
      · by_cases hstart : skipFormFeeds row = []
        · simp [hrune, hstart, skipBehindFirst]
        · simp [hrune, hstart, skipBehindFirst_concat]
      · simp [hrune, skipBehindFirst_concat]

theorem absorbs_nil {fresh : Bool} : Absorbs fresh [] ↔ fresh = true := by
  cases fresh <;> decide

section Columns

variable {tabStop : Nat} {fresh : Bool} {row : List Rune} {rune : Rune}

theorem columnAfter_nil (tabStop : Nat) (fresh : Bool) : columnAfter tabStop fresh [] = 1 := by
  cases fresh <;> rfl

theorem columnAfter_concat_of_absorbed (habsorbed : rune = .formFeed ∧ Absorbs fresh row) :
    columnAfter tabStop fresh (row ++ [rune]) = columnAfter tabStop fresh row := by
  rw [columnAfter, columnAfter, columnRunes_concat, if_pos habsorbed]

theorem columnAfter_concat (habsorbed : ¬(rune = .formFeed ∧ Absorbs fresh row)) :
    columnAfter tabStop fresh (row ++ [rune]) = columnAfter tabStop fresh row +
      rune.width tabStop (columnAfter tabStop fresh row) := by
  rw [columnAfter, columnAfter, columnRunes_concat, if_neg habsorbed, length_expandTabs_append,
    length_expandTabs_singleton, Nat.add_assoc]

/-- A line is at its first column as long as no rune takes one. -/
theorem columnAfter_le_one_iff :
    columnAfter tabStop fresh row ≤ 1 ↔ columnRunes fresh row = [] := by
  rw [columnAfter]
  cases hrunes : columnRunes fresh row with
  | nil => exact iff_of_true (Nat.le_refl 1) rfl
  | cons rune runes =>
      have hfirst := rune.width_pos tabStop 1
      have hlength := length_expandTabs_append (max tabStop 1) 1 [rune] runes
      rw [List.singleton_append, length_expandTabs_singleton] at hlength
      exact iff_of_false (by omega) (List.cons_ne_nil _ _)

/-- Right behind the first rune of a line, and at the start of a line that is not fresh, it is not
the column that decides.  Everywhere else it is. -/
theorem absorbs_iff_columnAfter (hfirst : (columnRunes fresh row).length ≠ 1)
    (hstart : columnRunes fresh row = [] → fresh = true) :
    Absorbs fresh row ↔ columnAfter tabStop fresh row ≤ 1 := by
  rw [columnAfter_le_one_iff, Absorbs]
  constructor
  · rintro (hone | ⟨hnone, -⟩)
    · exact absurd hone hfirst
    · exact hnone
  · intro hnone
    exact .inr ⟨hnone, hstart hnone⟩

theorem columnAfter_concat_formFeed (habsorbs : ¬Absorbs fresh row) :
    columnAfter tabStop fresh (row ++ [.formFeed]) = columnAfter tabStop fresh row + 1 := by
  rw [columnAfter_concat fun habsorbed => habsorbs habsorbed.2]
  rfl

theorem columnAfter_concat_eq_iff :
    columnAfter tabStop fresh (row ++ [rune]) = columnAfter tabStop fresh row ↔
      rune = .formFeed ∧ Absorbs fresh row := by
  constructor
  · intro hsame
    by_contra habsorbed
    have hwidth := rune.width_pos tabStop (columnAfter tabStop fresh row)
    rw [columnAfter_concat habsorbed] at hsame
    omega
  · exact columnAfter_concat_of_absorbed

end Columns

namespace FileSpan

/-- The span of the last rune of this part of a line, or if there is none, of the newline before
the line or of the start of the text. -/
structure Ends (span : FileSpan) (line : Nat) (tabStop : UInt32) (fresh : Bool)
    (row : List Rune) : Prop where
  stop_at : span.stop.At line (columnAfter tabStop.toNat fresh row)
  absorbs_iff : span.start.col ≤ 1 ↔ Absorbs fresh row

variable {tabStop : UInt32} {rune : Rune} {span : FileSpan}
variable {line : Nat} {fresh : Bool} {row : List Rune}

theorem ends_ofFile (file : String) (tabStop : UInt32) : (ofFile file).Ends 1 tabStop true [] :=
  ⟨⟨rfl, rfl⟩, iff_of_true (UInt32.le_refl 1) (absorbs_nil.mpr rfl)⟩

/-- A rune that is not absorbed takes the columns behind those of the runes before it. -/
theorem Ends.at_after (hends : span.Ends line tabStop fresh row) (heof : rune ≠ .eof)
    (hnewline : rune ≠ .newline) (habsorbed : ¬(rune = .formFeed ∧ Absorbs fresh row))
    (hroom : span.stop.HasRoom rune tabStop) :
    (span.stop.after rune tabStop).At line
      (columnAfter tabStop.toNat fresh (row ++ [rune])) := by
  rw [columnAfter_concat habsorbed]
  exact hends.stop_at.after heof hnewline hroom

theorem Ends.advance (hends : span.Ends line tabStop fresh row) (heof : rune ≠ .eof)
    (hnewline : rune ≠ .newline)
    (hroom : rune = .formFeed ∧ span.start.col ≤ 1 ∨ span.stop.HasRoom rune tabStop) :
    (span.advance rune tabStop).Ends line tabStop fresh (row ++ [rune]) := by
  by_cases habsorbed : rune = .formFeed ∧ Absorbs fresh row
  · have hsame := columnRunes_concat fresh row rune
    rw [if_pos habsorbed] at hsame
    rw [advance_of_absorbed ⟨habsorbed.1, hends.absorbs_iff.mpr habsorbed.2⟩]
    refine ⟨?_, ?_⟩
    · rw [columnAfter_concat_of_absorbed habsorbed]
      exact hends.stop_at
    · rw [hends.absorbs_iff, Absorbs, Absorbs, hsame]
  · have hmore := columnRunes_concat fresh row rune
    rw [if_neg habsorbed] at hmore
    have hstart : ¬(rune = .formFeed ∧ span.start.col ≤ 1) := by rwa [hends.absorbs_iff]
    rw [advance_of_not_absorbed hstart]
    refine ⟨hends.at_after heof hnewline habsorbed (hroom.resolve_left hstart), ?_⟩
    rw [hends.stop_at.col_le_one_iff, columnAfter_le_one_iff, Absorbs, hmore]
    simp

/-- Where a line ends the next one is fresh if nothing on the line took a column. -/
theorem Ends.advance_newline (hends : span.Ends line tabStop fresh row)
    (hroom : span.stop.HasRoom .newline tabStop) :
    (span.advance .newline tabStop).Ends (line + 1) tabStop (freshAfter fresh row) [] := by
  rw [advance_eq (by decide)]
  refine ⟨?_, ?_⟩
  · rw [columnAfter_nil]
    exact hends.stop_at.after_newline hroom
  · rw [hends.stop_at.col_le_one_iff, columnAfter_le_one_iff, absorbs_nil, freshAfter,
      List.isEmpty_iff]

theorem Ends.along_row {before : List Rune} (heof : .eof ∉ row) (hnewline : .newline ∉ row)
    (hfits : span.Fits tabStop row) (hends : span.Ends line tabStop fresh before) :
    (span.along tabStop row).Ends line tabStop fresh (before ++ row) := by
  induction row generalizing span before with
  | nil =>
      rw [List.append_nil]
      exact hends
  | cons rune row ih =>
      rw [List.mem_cons, not_or] at heof hnewline
      obtain ⟨hroom, hlater⟩ := hfits
      have hnext := hends.advance (Ne.symm heof.1) (Ne.symm hnewline.1) hroom
      have hrest := ih heof.2 hnewline.2 hlater hnext
      rwa [List.append_assoc, List.singleton_append] at hrest

theorem Ends.along_lines {lines : List (List Rune)} (heof : ∀ row ∈ lines, .eof ∉ row)
    (hnewline : ∀ row ∈ lines, .newline ∉ row) (hfits : span.Fits tabStop (endedLines lines))
    (hends : span.Ends line tabStop fresh []) :
    (span.along tabStop (endedLines lines)).Ends (line + lines.length) tabStop
      (lines.foldl freshAfter fresh) [] := by
  induction lines generalizing span line fresh with
  | nil => exact hends
  | cons row lines ih =>
      obtain ⟨heof, hmoreEof⟩ := List.forall_mem_cons.mp heof
      obtain ⟨hnewline, hmoreNewline⟩ := List.forall_mem_cons.mp hnewline
      rw [endedLines, List.flatMap_cons, fits_append, fits_append, along_concat] at hfits
      obtain ⟨⟨hrow, hroom, -⟩, hlines⟩ := hfits
      have hroom := hroom.resolve_left fun habsorbed => absurd habsorbed.1 (by decide)
      have hended := (hends.along_row heof hnewline hrow).advance_newline hroom
      have hrest := ih hmoreEof hmoreNewline hlines hended
      rw [endedLines, List.flatMap_cons, along_append, along_concat, List.length_cons,
        Nat.add_comm lines.length, ← Nat.add_assoc]
      exact hrest

theorem ends_along_text {lines : List (List Rune)} (heof : .eof ∉ endedLines lines ++ row)
    (hlines : ∀ row ∈ lines, .newline ∉ row) (hrow : .newline ∉ row) {file : String}
    (hfits : (ofFile file).Fits tabStop (endedLines lines ++ row)) :
    ((ofFile file).along tabStop (endedLines lines ++ row)).Ends (1 + lines.length) tabStop
      (lines.foldl freshAfter true) row := by
  rw [List.mem_append, not_or] at heof
  obtain ⟨hfitsLines, hfitsRow⟩ := fits_append.mp hfits
  have heofLines : ∀ row ∈ lines, .eof ∉ row := fun row hmem heofRow => heof.1
    (List.mem_flatMap.mpr ⟨row, hmem, List.mem_append_left _ heofRow⟩)
  have hstart := (ends_ofFile file tabStop).along_lines heofLines hlines hfitsLines
  rw [along_append]
  exact hstart.along_row heof.2 hrow hfitsRow

end FileSpan

/-- A rune of a text begins in the column after those on its line that take columns, and it takes a
column itself unless it is a form feed that is absorbed.  That is one right behind the first rune of
its line, or one before it if the line is the first or comes after one without columns.  Elsewhere
form feeds are absorbed just where the line is still at its first column.  All this holds as far as
lines and columns fit into words. -/
theorem TextScanner.formFeeds_absorbed {source : List Delivery} {lines : List (List Rune)}
    {row later : List Rune} {rune : Rune} {options : TextOptions} (file : String)
    (htext : options.lineStyle.normalize (Tape.runes (Tape.ofDeliveries source).bytes) =
      endedLines lines ++ row ++ rune :: later)
    (hlines : ∀ row ∈ lines, .newline ∉ row) (hrow : .newline ∉ row)
    (hfits : (FileSpan.ofFile file).Fits options.tabStop (endedLines lines ++ row ++ [rune])) :
    let tabStop := options.tabStop.toNat
    let fresh := lines.foldl freshAfter true
    let line := 1 + lines.length
    let reading := Scanner.transcript (new source (.ofFile file) options)
      (endedLines lines ++ row).length
    (¬(rune = .formFeed ∧ Absorbs fresh row) → ∃ start stop : Position,
      reading = report options.onBadEncoding (.file ⟨file, start, stop⟩) rune ∧
      start.At line (columnAfter tabStop fresh row) ∧
      if rune = .newline then stop.At (line + 1) 1
      else stop.At line (columnAfter tabStop fresh (row ++ [rune]))) ∧
    (rune = .formFeed ∧ Absorbs fresh row → ∃ start stop : Position,
      reading = .ok ⟨.formFeed, some (.file ⟨file, start, stop⟩)⟩ ∧
      stop.At line (columnAfter tabStop fresh row)) ∧
    (columnAfter tabStop fresh (row ++ [rune]) = columnAfter tabStop fresh row ↔
      rune = .formFeed ∧ Absorbs fresh row) ∧
    (¬Absorbs fresh row → columnAfter tabStop fresh (row ++ [.formFeed]) =
      columnAfter tabStop fresh row + 1) ∧
    ((columnRunes fresh row).length ≠ 1 → (columnRunes fresh row = [] → fresh = true) →
      (Absorbs fresh row ↔ columnAfter tabStop fresh row ≤ 1)) := by
  intro tabStop fresh line reading
  have heof : .eof ∉ endedLines lines ++ row ++ rune :: later :=
    htext ▸ LineStyle.eof_notMem_normalize options.lineStyle (Tape.ofDeliveries source).bytes
  rw [List.mem_append, List.mem_cons, not_or, not_or] at heof
  obtain ⟨heofBefore, heofRune, -⟩ := heof
  obtain ⟨hbefore, hroom, -⟩ := FileSpan.fits_append.mp hfits
  have hends := FileSpan.ends_along_text heofBefore hlines hrow hbefore
  have hreading := transcript_of_rune htext (.ofFile file)
  have hfile : ((FileSpan.ofFile file).along options.tabStop (endedLines lines ++ row)).file = file :=
    FileSpan.file_along _
  generalize (FileSpan.ofFile file).along options.tabStop (endedLines lines ++ row) = last
    at hroom hends hreading hfile
  refine ⟨fun habsorbed => ?_, ?_, columnAfter_concat_eq_iff, columnAfter_concat_formFeed,
    absorbs_iff_columnAfter⟩
  · have hstart : ¬(rune = .formFeed ∧ last.start.col ≤ 1) := by rwa [hends.absorbs_iff]
    have hroom := hroom.resolve_left hstart
    rw [FileSpan.advance_of_not_absorbed hstart, hfile] at hreading
    refine ⟨_, _, hreading, hends.stop_at, ?_⟩
    split
    · next hnewline =>
        subst hnewline
        exact hends.stop_at.after_newline hroom
    · next hnewline => exact hends.at_after (Ne.symm heofRune) hnewline habsorbed hroom
  · rintro ⟨rfl, habsorbs⟩
    rw [FileSpan.advance_of_absorbed ⟨rfl, hends.absorbs_iff.mpr habsorbs⟩, report,
      if_neg (by decide)] at hreading
    exact ⟨last.start, last.stop, hfile ▸ hreading, hends.stop_at⟩

/-- Form feeds take no column before the first letter of a text or behind it, but one does at the
start of the next line. -/
theorem TextScanner.formFeeds_absorbed_twice :
    let reading := Scanner.transcript (new
      [.bytes [0x0C, 0x61, 0x0C, 0x62, 0x0A, 0x0C, 0x0C, 0x63]] (.ofFile "x") {})
    (∃ start, reading 2 = .ok ⟨.formFeed, some (.file ⟨"x", start, ⟨1, 2⟩⟩)⟩) ∧
      reading 3 = .ok ⟨.char 'b', some (.file ⟨"x", ⟨1, 2⟩, ⟨1, 3⟩⟩)⟩ ∧
      reading 5 = .ok ⟨.formFeed, some (.file ⟨"x", ⟨2, 1⟩, ⟨2, 2⟩⟩)⟩ ∧
      ∃ start, reading 6 = .ok ⟨.formFeed, some (.file ⟨"x", start, ⟨2, 2⟩⟩)⟩ := by
  intro reading
  let text : List Rune :=
    [.formFeed, .char 'a', .formFeed, .char 'b', .newline, .formFeed, .formFeed, .char 'c']
  have htext : LineStyle.unknown.normalize (Tape.runes (Tape.ofDeliveries
      [.bytes [0x0C, 0x61, 0x0C, 0x62, 0x0A, 0x0C, 0x0C, 0x63]]).bytes) = text := by decide
  have hfits (n : Nat) : (FileSpan.ofFile "x").Fits 8 (text.take n) := by
    have hall : (FileSpan.ofFile "x").Fits 8 (text.take n ++ text.drop n) := by
      rw [List.take_append_drop]
      exact FileSpan.fits_of_length (by decide) (by decide)
    exact (FileSpan.fits_append.mp hall).1
  obtain ⟨-, hbehind, -⟩ := @formFeeds_absorbed _ [] [.formFeed, .char 'a'] _ .formFeed {} "x" htext
    (by decide) (by decide) (hfits 3)
  obtain ⟨hletter, -⟩ := @formFeeds_absorbed _ [] [.formFeed, .char 'a', .formFeed] _ (.char 'b') {}
    "x" htext (by decide) (by decide) (hfits 4)
  obtain ⟨hleading, -⟩ := @formFeeds_absorbed _ [[.formFeed, .char 'a', .formFeed, .char 'b']] [] _
    .formFeed {} "x" htext (by decide) (by decide) (hfits 6)
  obtain ⟨-, hnext, -⟩ := @formFeeds_absorbed _ [[.formFeed, .char 'a', .formFeed, .char 'b']]
    [.formFeed] _ .formFeed {} "x" htext (by decide) (by decide) (hfits 7)
  refine ⟨?behind, ?letter, ?leading, ?next⟩
  case behind =>
    obtain ⟨start, stop, hreading, hstop⟩ := hbehind (by decide)
    obtain rfl : stop = ⟨1, 2⟩ := hstop.eq
    exact ⟨start, hreading⟩
  case letter =>
    obtain ⟨start, stop, hreading, hstart, hstop⟩ := hletter (by decide)
    rw [if_neg (by decide)] at hstop
    obtain rfl : start = ⟨1, 2⟩ := hstart.eq
    obtain rfl : stop = ⟨1, 3⟩ := hstop.eq
    exact hreading
  case leading =>
    obtain ⟨start, stop, hreading, hstart, hstop⟩ := hleading (by decide)
    rw [if_neg (by decide)] at hstop
    obtain rfl : start = ⟨2, 1⟩ := hstart.eq
    obtain rfl : stop = ⟨2, 2⟩ := hstop.eq
    exact hreading
  case next =>
    obtain ⟨start, stop, hreading, hstop⟩ := hnext (by decide)
    obtain rfl : stop = ⟨2, 2⟩ := hstop.eq
    exact ⟨start, hreading⟩

/-- Behind the first letter of a line a form feed takes no column, and at the start of a line after
one with letters it does. -/
theorem TextScanner.formFeed_within_line_absorbed :
    let within := Scanner.transcript (new [.bytes [0x61, 0x0C, 0x62]] (.ofFile "x") {})
    let leading := Scanner.transcript (new [.bytes [0x61, 0x62, 0x0A, 0x0C, 0x63]] (.ofFile "x") {})
    within 1 = .ok ⟨.formFeed, some (.file ⟨"x", ⟨1, 1⟩, ⟨1, 2⟩⟩)⟩ ∧
      within 1 ≠ .ok ⟨.formFeed, some (.file ⟨"x", ⟨1, 2⟩, ⟨1, 3⟩⟩)⟩ ∧
      within 2 = .ok ⟨.char 'b', some (.file ⟨"x", ⟨1, 2⟩, ⟨1, 3⟩⟩)⟩ ∧
      leading 3 = .ok ⟨.formFeed, some (.file ⟨"x", ⟨2, 1⟩, ⟨2, 2⟩⟩)⟩ ∧
      leading 4 = .ok ⟨.char 'c', some (.file ⟨"x", ⟨2, 2⟩, ⟨2, 3⟩⟩)⟩ := by
  intro within leading
  have hwithin : within 1 = .ok ⟨.formFeed, some (.file ⟨"x", ⟨1, 1⟩, ⟨1, 2⟩⟩)⟩ := by rfl
  refine ⟨hwithin, ?_, by rfl, by rfl, by rfl⟩
  rw [hwithin]
  nofun

end Precedence
