import Precedence.Scanner.Text

/-!
# Line endings of a whole text

Normalizing rewrites a whole text under one style, the style of its first line ending if none is
given.  A scanner sees one or two runes at a time instead; what `LineStyle.accept` answers about
them is the first step of normalizing the text that they begin.
-/

namespace Precedence.LineStyle

/-- The style of the first line ending of a text. -/
def detect : List Rune → LineStyle
  | [] => .unknown
  | rune :: text =>
      if rune = .newline then .unix
      else if rune = .carriageReturn then
        if text.head? = some .newline then .dos else .mac
      else detect text

def resolve (style : LineStyle) (text : List Rune) : LineStyle :=
  if style = .unknown then detect text else style

/-- What a rune is rewritten to where it is not half of a pair. -/
def convert (style : LineStyle) (rune : Rune) : Rune :=
  if rune = .newline then if style = .unix then .newline else .space
  else if rune = .carriageReturn then if style = .mac then .newline else .space
  else rune

/-- Turns every carriage return with a line feed after it into one newline, and all others into
spaces. -/
def joinPairs : List Rune → List Rune
  | [] => []
  | [rune] => [convert .dos rune]
  | first :: second :: text =>
      if first = .carriageReturn ∧ second = .newline then .newline :: joinPairs text
      else convert .dos first :: joinPairs (second :: text)

def rewrite (style : LineStyle) (text : List Rune) : List Rune :=
  if style = .dos then joinPairs text else text.map style.convert

def normalize (style : LineStyle) (text : List Rune) : List Rune :=
  (style.resolve text).rewrite text

/-- The first step of normalizing a text: a rune, and a style and a text to go on with. -/
structure Yields (style : LineStyle) (text : List Rune) (rune : Rune) (next : LineStyle)
    (rest : List Rune) : Prop where
  normalize_eq : style.normalize text = rune :: next.normalize rest
  resolve_eq : style.resolve text = next.resolve rest

@[simp]
theorem normalize_nil (style : LineStyle) : style.normalize [] = [] := by
  cases style <;> rfl

theorem resolve_of_ne {style : LineStyle} (hstyle : style ≠ .unknown) (text : List Rune) :
    style.resolve text = style := if_neg hstyle

theorem joinPairs_cons {rune : Rune} (hrune : rune ≠ .carriageReturn) (text : List Rune) :
    joinPairs (rune :: text) = convert .dos rune :: joinPairs text := by
  cases text with
  | nil => rfl
  | cons second text => rw [joinPairs, if_neg (fun hpair => hrune hpair.1)]

theorem rewrite_cons {rune : Rune} (hrune : rune ≠ .carriageReturn) (style : LineStyle)
    (text : List Rune) : style.rewrite (rune :: text) = style.convert rune :: style.rewrite text := by
  unfold rewrite
  split
  · next hdos => rw [hdos, joinPairs_cons hrune]
  · rfl

theorem convert_other {rune : Rune} (hnewline : rune ≠ .newline)
    (hreturn : rune ≠ .carriageReturn) (style : LineStyle) : style.convert rune = rune := by
  rw [convert, if_neg hnewline, if_neg hreturn]

/-- Runes that are not part of a line ending stay. -/
theorem yields_other {rune : Rune} (hnewline : rune ≠ .newline) (hreturn : rune ≠ .carriageReturn)
    (style : LineStyle) (text : List Rune) : style.Yields (rune :: text) rune style text := by
  have hresolve : style.resolve (rune :: text) = style.resolve text := by
    rw [resolve, resolve, detect, if_neg hnewline, if_neg hreturn]
  constructor
  · rw [normalize, normalize, hresolve, rewrite_cons hreturn, convert_other hnewline hreturn]
  · exact hresolve

/-- A line stays as it is, and what comes after it is normalized by itself. -/
theorem normalize_line_append (style : LineStyle) {line : List Rune} (hnewline : .newline ∉ line)
    (hreturn : .carriageReturn ∉ line) (later : List Rune) :
    style.normalize (line ++ later) = line ++ style.normalize later := by
  induction line with
  | nil => rfl
  | cons rune line ih =>
      rw [List.mem_cons, not_or] at hnewline hreturn
      have hfirst := yields_other (Ne.symm hnewline.1) (Ne.symm hreturn.1) style (line ++ later)
      rw [List.cons_append, hfirst.normalize_eq, ih hnewline.2 hreturn.2, List.cons_append]

theorem normalize_of_plain (style : LineStyle) {text : List Rune} (hnewline : .newline ∉ text)
    (hreturn : .carriageReturn ∉ text) : style.normalize text = text := by
  have htext := style.normalize_line_append hnewline hreturn []
  rwa [normalize_nil, List.append_nil] at htext

/-- A run of one rune that needs no other. -/
theorem yields_accept_one {style next : LineStyle} {first : Rune} {disposition : Disposition}
    (hfirst : first = .carriageReturn ∨ first = .newline)
    (haccept : style.accept [first] = (disposition, next)) (hmore : disposition ≠ .more)
    (text : List Rune) :
    style.Yields (first :: text) (TextScanner.lineRune disposition) next text := by
  rcases hfirst with rfl | rfl
  · cases style with
    | unix | mac | none =>
        cases haccept
        exact ⟨rfl, rfl⟩
    | dos | unknown =>
        cases haccept
        exact absurd rfl hmore
  · cases style with
    | unix | mac | unknown | none =>
        cases haccept
        exact ⟨rfl, rfl⟩
    | dos =>
        cases haccept
        exact ⟨rewrite_cons (by decide) .dos text, rfl⟩

/-- A run is only ever continued after a carriage return, and while it is the style stays. -/
theorem accept_more {style next : LineStyle} {first : Rune}
    (haccept : style.accept [first] = (.more, next)) :
    first = .carriageReturn ∧ next = style ∧ (style = .unknown ∨ style = .dos) := by
  unfold accept at haccept
  split at haccept <;> simp_all [Rune.carriageReturn]

/-- A style other than `unknown` never changes. -/
theorem accept_of_ne {style : LineStyle} (hstyle : style ≠ .unknown) (run : List Rune) :
    (style.accept run).2 = style := by
  unfold accept
  split
  · exact absurd rfl hstyle
  · exact absurd rfl hstyle
  · exact absurd rfl hstyle
  · exact absurd rfl hstyle
  all_goals rfl

theorem accept_two_of_ne {second : Rune} (hsecond : second ≠ .newline) :
    accept .unknown [.carriageReturn, second] = (.newlineSave, .mac) ∧
      accept .dos [.carriageReturn, second] = (.space, .dos) := by
  constructor
  · unfold accept
    split <;> simp_all [Rune.carriageReturn, Rune.newline]
  · unfold accept
    split <;> simp_all [Rune.carriageReturn, Rune.newline]

/-- A run of two runes. -/
theorem yields_accept_two {style next : LineStyle} {second : Rune} {disposition : Disposition}
    (hstyle : style = .unknown ∨ style = .dos)
    (haccept : style.accept [.carriageReturn, second] = (disposition, next)) (text : List Rune) :
    style.Yields (.carriageReturn :: second :: text) (TextScanner.lineRune disposition) next
      (if TextScanner.keepsSecond disposition then second :: text else text) := by
  by_cases hsecond : second = .newline
  · subst hsecond
    rcases hstyle with rfl | rfl
    · cases haccept
      exact ⟨rfl, rfl⟩
    · cases haccept
      exact ⟨rfl, rfl⟩
  · obtain ⟨hunknown, hdos⟩ := accept_two_of_ne hsecond
    have hhead : (second :: text).head? ≠ some .newline := by
      intro hhead
      exact hsecond (Option.some.inj hhead)
    rcases hstyle with rfl | rfl
    · cases hunknown.symm.trans haccept
      have hdetect : detect (.carriageReturn :: second :: text) = .mac := by
        rw [detect, if_neg (by decide), if_pos rfl, if_neg hhead]
      constructor
      · rw [normalize, resolve, if_pos rfl, hdetect]
        rfl
      · rw [resolve, if_pos rfl, hdetect]
        rfl
    · cases hdos.symm.trans haccept
      constructor
      · change joinPairs (.carriageReturn :: second :: text) = _
        rw [joinPairs, if_neg (fun hpair => hsecond hpair.2)]
        rfl
      · rfl

/-- A carriage return at the end of the text. -/
theorem yields_accept_end {style next : LineStyle} {disposition : Disposition}
    (hstyle : style = .unknown ∨ style = .dos)
    (haccept : style.accept [.carriageReturn, .eof] = (disposition, next)) :
    TextScanner.keepsSecond disposition ∧
      style.Yields [.carriageReturn] (TextScanner.lineRune disposition) next [] := by
  rcases hstyle with rfl | rfl
  · cases haccept
    exact ⟨rfl, rfl, rfl⟩
  · cases haccept
    exact ⟨rfl, rfl, rfl⟩

theorem convert_ne_carriageReturn (style : LineStyle) (rune : Rune) :
    style.convert rune ≠ .carriageReturn := by
  rw [convert]
  split
  · split <;> decide
  · split
    · split <;> decide
    · next hreturn => exact hreturn

theorem carriageReturn_notMem_joinPairs (text : List Rune) :
    Rune.carriageReturn ∉ joinPairs text := by
  fun_induction joinPairs text with
  | case1 => exact List.not_mem_nil
  | case2 rune =>
      rw [List.mem_singleton]
      exact (convert_ne_carriageReturn .dos rune).symm
  | case3 _ _ _ _ ih =>
      rw [List.mem_cons, not_or]
      exact ⟨by decide, ih⟩
  | case4 first _ _ _ ih =>
      rw [List.mem_cons, not_or]
      exact ⟨(convert_ne_carriageReturn .dos first).symm, ih⟩

theorem carriageReturn_notMem_normalize (style : LineStyle) (text : List Rune) :
    Rune.carriageReturn ∉ style.normalize text := by
  rw [normalize, rewrite]
  split
  · exact carriageReturn_notMem_joinPairs text
  · intro hmem
    obtain ⟨rune, _, hrune⟩ := List.mem_map.mp hmem
    exact convert_ne_carriageReturn _ rune hrune

theorem convert_cases (style : LineStyle) (rune : Rune) :
    style.convert rune = .newline ∨ style.convert rune = .space ∨ style.convert rune = rune := by
  rw [convert]
  split
  · split
    · exact .inl rfl
    · exact .inr (.inl rfl)
  · split
    · split
      · exact .inl rfl
      · exact .inr (.inl rfl)
    · exact .inr (.inr rfl)

theorem mem_joinPairs {rune : Rune} {text : List Rune} (hmem : rune ∈ joinPairs text) :
    rune = .newline ∨ rune = .space ∨ rune ∈ text := by
  fun_induction joinPairs text with
  | case1 => exact absurd hmem List.not_mem_nil
  | case2 first =>
      rw [List.mem_singleton] at hmem ⊢
      rw [hmem]
      exact convert_cases .dos first
  | case3 first second text hpair ih =>
      rcases List.mem_cons.mp hmem with hhead | htail
      · exact .inl hhead
      · have hlater : rune ∈ text → rune ∈ first :: second :: text :=
          fun htext => List.mem_cons_of_mem first (List.mem_cons_of_mem second htext)
        exact (ih htail).imp_right (Or.imp_right hlater)
  | case4 first second text hpair ih =>
      rcases List.mem_cons.mp hmem with rfl | htail
      · rcases convert_cases .dos first with hfirst | hfirst | hfirst
        · exact .inl hfirst
        · exact .inr (.inl hfirst)
        · rw [hfirst]
          exact .inr (.inr List.mem_cons_self)
      · exact (ih htail).imp_right (Or.imp_right (List.mem_cons_of_mem first))

/-- Normalizing brings in nothing but newlines and spaces. -/
theorem mem_normalize {style : LineStyle} {rune : Rune} {text : List Rune}
    (hmem : rune ∈ style.normalize text) : rune = .newline ∨ rune = .space ∨ rune ∈ text := by
  rw [normalize, rewrite] at hmem
  split at hmem
  · exact mem_joinPairs hmem
  · obtain ⟨other, hother, rfl⟩ := List.mem_map.mp hmem
    rcases convert_cases (style.resolve text) other with hrune | hrune | hrune
    · exact .inl hrune
    · exact .inr (.inl hrune)
    · rw [hrune]
      exact .inr (.inr hother)

end Precedence.LineStyle
