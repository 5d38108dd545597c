import Mathlib.Data.Nat.ModEq
import Precedence.Location

/-!
# Lines and columns that fit

Lines and columns are words, whose sums may wrap around.  In a text that fits no sum does, so each
rune moves a position as unbounded numbers would have it.  A text fits if it is short enough for
its tab stop.
-/

namespace Precedence

/-- The number of columns that a tab takes which begins at `col`. -/
def tabWidth (tabStop col : Nat) : Nat := 1 + tabStop - col % tabStop

/-- The number of columns that a rune of a line takes if it begins at `col` and is not absorbed. -/
def Rune.width (rune : Rune) (tabStop col : Nat) : Nat :=
  if rune = .tab then tabWidth (max tabStop 1) col else 1

theorem Rune.width_pos (rune : Rune) (tabStop col : Nat) : 0 < rune.width tabStop col := by
  have hmod : col % max tabStop 1 < max tabStop 1 := Nat.mod_lt _ (by omega)
  rw [width]
  split
  · rw [tabWidth]
    omega
  · exact Nat.one_pos

theorem Rune.width_le (rune : Rune) (tabStop col : Nat) :
    rune.width tabStop col ≤ max tabStop 1 + 1 := by
  rw [width]
  split
  · rw [tabWidth]
    omega
  · omega

theorem toNat_add_of_fits {a b : UInt32} (hfits : a.toNat + b.toNat < UInt32.size) :
    (a + b).toNat = a.toNat + b.toNat := by
  rw [UInt32.toNat_add, Nat.mod_eq_of_lt hfits]

theorem toNat_add_tabWidth {tabStop col : UInt32} (htabStop : 1 ≤ tabStop.toNat)
    (hfits : col.toNat + tabWidth tabStop.toNat col.toNat < UInt32.size) :
    (col + (1 + tabStop - col % tabStop)).toNat =
      col.toNat + tabWidth tabStop.toNat col.toNat := by
  have hmod : col.toNat % tabStop.toNat < tabStop.toNat := Nat.mod_lt _ htabStop
  have hcol : col.toNat % tabStop.toNat ≤ col.toNat := Nat.mod_le _ _
  have hsum : (1 + tabStop).toNat = 1 + tabStop.toNat := by
    rw [tabWidth] at hfits
    exact toNat_add_of_fits (by rw [UInt32.toNat_one]; omega)
  have hwidth : (1 + tabStop - col % tabStop).toNat = tabWidth tabStop.toNat col.toNat := by
    rw [UInt32.toNat_sub_of_le, hsum, UInt32.toNat_mod, tabWidth]
    rw [UInt32.le_iff_toNat_le, hsum, UInt32.toNat_mod]
    omega
  rw [toNat_add_of_fits (by rwa [hwidth]), hwidth]

namespace Position

/-- The position is at this line and this column. -/
structure At (p : Position) (line col : Nat) : Prop where
  line_eq : p.line.toNat = line
  col_eq : p.col.toNat = col

/-- Where a rune stops that starts at `p` and is not absorbed. -/
def after (rune : Rune) (tabStop : UInt32) (p : Position) : Position :=
  if rune = .eof then p
  else if rune = .newline then ⟨p.line + 1, 1⟩
  else if rune = .tab then ⟨p.line, p.col + (1 + max tabStop 1 - p.col % max tabStop 1)⟩
  else ⟨p.line, p.col + 1⟩

/-- The line and the column where a rune stops that starts at `p` are not too large for words. -/
def HasRoom (rune : Rune) (tabStop : UInt32) (p : Position) : Prop :=
  if rune = .eof then True
  else if rune = .newline then p.line.toNat + 1 < UInt32.size
  else p.col.toNat + rune.width tabStop.toNat p.col.toNat < UInt32.size

instance (rune : Rune) (tabStop : UInt32) (p : Position) : Decidable (p.HasRoom rune tabStop) :=
  inferInstanceAs (Decidable (ite _ _ _))

variable {rune : Rune} {tabStop : UInt32} {p : Position} {line col : Nat}

theorem At.eq (hp : p.At line col) : p = ⟨.ofNat line, .ofNat col⟩ := by
  obtain ⟨rfl, rfl⟩ := hp
  rw [UInt32.ofNat_toNat, UInt32.ofNat_toNat]

theorem At.col_le_one_iff (hp : p.At line col) : p.col ≤ 1 ↔ col ≤ 1 := by
  rw [UInt32.le_iff_toNat_le, hp.col_eq]
  rfl

theorem At.after_newline (hp : p.At line col) (hroom : p.HasRoom .newline tabStop) :
    (p.after .newline tabStop).At (line + 1) 1 := by
  obtain ⟨rfl, rfl⟩ := hp
  exact ⟨toNat_add_of_fits hroom, rfl⟩

theorem At.after (hp : p.At line col) (heof : rune ≠ .eof) (hnewline : rune ≠ .newline)
    (hroom : p.HasRoom rune tabStop) :
    (p.after rune tabStop).At line (col + rune.width tabStop.toNat col) := by
  obtain ⟨rfl, rfl⟩ := hp
  rw [HasRoom, if_neg heof, if_neg hnewline] at hroom
  rw [Position.after, if_neg heof, if_neg hnewline]
  by_cases htab : rune = .tab
  · have hmax : (max tabStop 1).toNat = max tabStop.toNat 1 := UInt32.toNat_max tabStop 1
    rw [Rune.width, if_pos htab, ← hmax] at hroom ⊢
    rw [if_pos htab]
    refine ⟨rfl, toNat_add_tabWidth ?_ hroom⟩
    rw [hmax]
    exact Nat.le_max_right _ _
  · rw [Rune.width, if_neg htab] at hroom ⊢
    rw [if_neg htab]
    exact ⟨rfl, toNat_add_of_fits hroom⟩

theorem after_le (hroom : p.HasRoom rune tabStop) :
    (p.after rune tabStop).line.toNat ≤ p.line.toNat + 1 ∧
      max (p.after rune tabStop).col.toNat 1 ≤ max p.col.toNat 1 + (max tabStop.toNat 1 + 1) := by
  by_cases heof : rune = .eof
  · rw [after, if_pos heof]
    omega
  by_cases hnewline : rune = .newline
  · subst hnewline
    obtain ⟨hline, hcol⟩ := At.after_newline ⟨rfl, rfl⟩ hroom
    omega
  · obtain ⟨hline, hcol⟩ := At.after ⟨rfl, rfl⟩ heof hnewline hroom
    have hwidth := rune.width_le tabStop.toNat p.col.toNat
    omega

end Position

namespace FileSpan

variable {rune : Rune} {tabStop : UInt32} {span : FileSpan}

theorem advance_of_absorbed (habsorbed : rune = .formFeed ∧ span.start.col ≤ 1) :
    span.advance rune tabStop = span := by
  obtain ⟨rfl, hstart⟩ := habsorbed
  exact if_pos ⟨rfl, hstart⟩

/-- Whatever is not absorbed starts where the last span stopped. -/
theorem advance_of_not_absorbed (habsorbed : ¬(rune = .formFeed ∧ span.start.col ≤ 1)) :
    span.advance rune tabStop = ⟨span.file, span.stop, span.stop.after rune tabStop⟩ := by
  rw [advance, Position.after]
  dsimp only
  rw [if_neg habsorbed]
  split
  · rfl
  · split
    · rfl
    · split <;> rfl

theorem advance_eq (hformFeed : rune ≠ .formFeed) (tabStop : UInt32) (span : FileSpan) :
    span.advance rune tabStop = ⟨span.file, span.stop, span.stop.after rune tabStop⟩ :=
  advance_of_not_absorbed fun habsorbed => hformFeed habsorbed.1

theorem stop_advance (hformFeed : rune ≠ .formFeed) (tabStop : UInt32) (span : FileSpan) :
    (span.advance rune tabStop).stop = span.stop.after rune tabStop := by
  rw [advance_eq hformFeed]

/-- Moves over the runes of a text, one after the other. -/
def along (tabStop : UInt32) (text : List Rune) (span : FileSpan) : FileSpan :=
  text.foldl (fun span rune => span.advance rune tabStop) span

/-- No line and no column on the way along the text is too large for a word. -/
def Fits (tabStop : UInt32) : FileSpan → List Rune → Prop
  | _, [] => True
  | span, rune :: text =>
      (rune = .formFeed ∧ span.start.col ≤ 1 ∨ span.stop.HasRoom rune tabStop) ∧
        Fits tabStop (span.advance rune tabStop) text

instance decidableFits (tabStop : UInt32) :
    (span : FileSpan) → (text : List Rune) → Decidable (span.Fits tabStop text)
  | _, [] => isTrue trivial
  | span, rune :: text =>
      have := decidableFits tabStop (span.advance rune tabStop) text
      inferInstanceAs (Decidable (_ ∧ _))

theorem along_append (text later : List Rune) :
    span.along tabStop (text ++ later) = (span.along tabStop text).along tabStop later :=
  List.foldl_append

theorem along_concat (text : List Rune) (rune : Rune) :
    span.along tabStop (text ++ [rune]) = (span.along tabStop text).advance rune tabStop :=
  along_append text [rune]

theorem fits_append {text later : List Rune} :
    span.Fits tabStop (text ++ later) ↔
      span.Fits tabStop text ∧ (span.along tabStop text).Fits tabStop later := by
  induction text generalizing span with
  | nil => exact ⟨fun hlater => ⟨trivial, hlater⟩, And.right⟩
  | cons rune text ih =>
      rw [List.cons_append, Fits, Fits, ih, and_assoc]
      rfl

@[simp] theorem file_advance (rune : Rune) (tabStop : UInt32) (span : FileSpan) :
    (span.advance rune tabStop).file = span.file := by
  by_cases habsorbed : rune = .formFeed ∧ span.start.col ≤ 1
  · rw [advance_of_absorbed habsorbed]
  · rw [advance_of_not_absorbed habsorbed]

@[simp] theorem file_along (text : List Rune) : (span.along tabStop text).file = span.file := by
  induction text generalizing span with
  | nil => rfl
  | cons rune text ih => exact ih.trans (file_advance rune tabStop span)

/-- A text fits if it is short enough. -/
theorem fits_of_length {text : List Rune}
    (hline : span.stop.line.toNat + text.length < UInt32.size)
    (hcol : max span.stop.col.toNat 1 + text.length * (max tabStop.toNat 1 + 1) < UInt32.size) :
    span.Fits tabStop text := by
  induction text generalizing span with
  | nil => trivial
  | cons rune text ih =>
      have hwidth := rune.width_le tabStop.toNat span.stop.col.toNat
      rw [List.length_cons] at hline hcol
      rw [Nat.succ_mul] at hcol
      by_cases habsorbed : rune = .formFeed ∧ span.start.col ≤ 1
      · refine ⟨.inl habsorbed, ?_⟩
        rw [advance_of_absorbed habsorbed]
        exact ih (by omega) (by omega)
      have hroom : span.stop.HasRoom rune tabStop := by
        rw [Position.HasRoom]
        split
        · trivial
        · split <;> omega
      refine ⟨.inr hroom, ?_⟩
      rw [advance_of_not_absorbed habsorbed]
      obtain ⟨hnextLine, hnextCol⟩ := Position.after_le hroom
      exact ih (by dsimp only; omega) (by dsimp only; omega)

end FileSpan

end Precedence
