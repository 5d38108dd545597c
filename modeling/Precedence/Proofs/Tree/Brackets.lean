import Precedence.Proofs.Tree.Views

/-!
# Reading brackets back

Where every label is a word, an outline can be read back from what it looks like in brackets: a
blank or a bracket ends a word, an opening bracket begins the children of an outline whose label is
the word after it, and the closing bracket ends them.  So no two such outlines look the same.
-/

namespace Precedence

namespace Outline

/-- A label that cannot be taken for anything else. -/
def IsWord (label : String) : Prop :=
  label ≠ "" ∧ ∀ c ∈ label.toList, c ≠ ' ' ∧ c ≠ '(' ∧ c ≠ ')'

instance (label : String) : Decidable (IsWord label) :=
  @instDecidableAnd _ _ inferInstance (List.decidableBAll _ _)

/-- The state of reading: the word so far, and for each bracket that is open, the innermost first,
the outlines after it, the latest first.  The first one after a bracket has the label of them
all. -/
structure Reader where
  word : List Char
  rows : List (List Outline)

namespace Reader

def start : Reader := ⟨[], [[]]⟩

/-- What is an outline of its own unless it turns out to be the label of others. -/
def endWord : Reader → Reader
  | ⟨c :: word, row :: rows⟩ => ⟨[], (.node (.ofList (c :: word)) [] :: row) :: rows⟩
  | reader => reader

def close : Reader → Reader
  | ⟨word, row :: above :: rows⟩ =>
      match row.reverse with
      | first :: children => ⟨word, (.node first.label children :: above) :: rows⟩
      | [] => ⟨word, above :: rows⟩
  | reader => reader

def step (reader : Reader) (c : Char) : Reader :=
  if c = ' ' then reader.endWord
  else if c = '(' then { reader with rows := [] :: reader.rows }
  else if c = ')' then reader.endWord.close
  else { reader with word := reader.word ++ [c] }

def read (reader : Reader) (cs : List Char) : Reader := cs.foldl step reader

end Reader

/-- The outline that looks like this in brackets. -/
def ofBracketed? (text : String) : Option Outline :=
  match (Reader.start.read text.toList).endWord.rows with
  | [[outline]] => some outline
  | _ => none

theorem toList_bracketAllOnto {outlines : List Outline}
    (heach : ∀ outline ∈ outlines, ∀ text : String,
      (outline.bracketOnto text).toList = text.toList ++ outline.bracketed.toList) (text : String) :
    (bracketAllOnto text outlines).toList =
      text.toList ++ outlines.flatMap fun outline => ' ' :: outline.bracketed.toList := by
  induction outlines generalizing text with
  | nil => rw [bracketAllOnto, List.flatMap_nil, List.append_nil]
  | cons outline outlines ih =>
      obtain ⟨hfirst, hrest⟩ := List.forall_mem_cons.mp heach
      rw [bracketAllOnto, ih hrest, hfirst, String.toList_append, List.flatMap_cons]
      simp

theorem toList_bracketOnto (outline : Outline) (text : String) :
    (outline.bracketOnto text).toList = text.toList ++ outline.bracketed.toList := by
  induction outline generalizing text with
  | node label children ih =>
      cases children with
      | nil => simp [bracketed, bracketOnto]
      | cons child rest => simp [bracketed, bracketOnto, toList_bracketAllOnto ih]

theorem toList_bracketed_leaf (label : String) :
    (bracketed (.node label [])).toList = label.toList := by simp [bracketed, bracketOnto]

theorem toList_bracketed_node (label : String) {children : List Outline}
    (hchildren : children ≠ []) :
    (bracketed (.node label children)).toList = '(' :: label.toList ++
      (children.flatMap fun child => ' ' :: child.bracketed.toList) ++ [')'] := by
  cases children with
  | nil => exact absurd rfl hchildren
  | cons child rest =>
      simp [bracketed, bracketOnto,
        toList_bracketAllOnto fun outline _ => outline.toList_bracketOnto]

namespace Reader

theorem read_append (reader : Reader) (before after : List Char) :
    reader.read (before ++ after) = (reader.read before).read after := List.foldl_append

theorem read_cons (reader : Reader) (c : Char) (cs : List Char) :
    reader.read (c :: cs) = (reader.step c).read cs := rfl

theorem read_word {word cs : List Char} {rows : List (List Outline)}
    (hword : ∀ c ∈ cs, c ≠ ' ' ∧ c ≠ '(' ∧ c ≠ ')') :
    read ⟨word, rows⟩ cs = ⟨word ++ cs, rows⟩ := by
  induction cs generalizing word with
  | nil => rw [List.append_nil]; rfl
  | cons c cs ih =>
      obtain ⟨⟨hblank, hopen, hclose⟩, hrest⟩ := List.forall_mem_cons.mp hword
      have hstep : step ⟨word, rows⟩ c = ⟨word ++ [c], rows⟩ := by
        rw [step, if_neg hblank, if_neg hopen, if_neg hclose]
      rw [read_cons, hstep, ih hrest, List.append_assoc, List.singleton_append]

theorem endWord_read_word {label : String} (hlabel : IsWord label) (row : List Outline)
    (rows : List (List Outline)) :
    endWord (read ⟨[], row :: rows⟩ label.toList) = ⟨[], (.node label [] :: row) :: rows⟩ := by
  obtain ⟨hne, hword⟩ := hlabel
  rw [read_word hword, List.nil_append]
  cases hlist : label.toList with
  | nil => exact absurd (String.toList_eq_nil_iff.mp hlist) hne
  | cons c cs =>
      have hback : String.ofList (c :: cs) = label := by rw [← hlist, String.ofList_toList]
      rw [endWord, hback]

/-- Outlines each after a blank go one after the other into the row that is open. -/
theorem endWord_read_all {outlines : List Outline}
    (heach : ∀ outline ∈ outlines, ∀ row rows,
      endWord (read ⟨[], row :: rows⟩ outline.bracketed.toList) = ⟨[], (outline :: row) :: rows⟩)
    {reader : Reader} {row : List Outline} {rows : List (List Outline)}
    (hreader : reader.endWord = ⟨[], row :: rows⟩) :
    endWord (reader.read (outlines.flatMap fun outline => ' ' :: outline.bracketed.toList)) =
      ⟨[], (outlines.reverse ++ row) :: rows⟩ := by
  induction outlines generalizing reader row with
  | nil => exact hreader
  | cons outline outlines ih =>
      obtain ⟨hfirst, hrest⟩ := List.forall_mem_cons.mp heach
      have hblank : reader.step ' ' = ⟨[], row :: rows⟩ := hreader
      rw [List.flatMap_cons, read_append, read_cons, hblank, ih hrest (hfirst row rows),
        List.reverse_cons, List.append_assoc, List.singleton_append]

theorem close_row (label : String) (outlines row : List Outline) (rows : List (List Outline)) :
    close ⟨[], (outlines.reverse ++ [.node label []]) :: row :: rows⟩ =
      ⟨[], (.node label outlines :: row) :: rows⟩ := by
  simp [close, Outline.label]

/-- When the word is over that an outline may end with, the outline is in the row that is open. -/
theorem endWord_read_bracketed {outline : Outline} (hwords : outline.EveryLabel IsWord)
    (row : List Outline) (rows : List (List Outline)) :
    endWord (read ⟨[], row :: rows⟩ outline.bracketed.toList) = ⟨[], (outline :: row) :: rows⟩ := by
  induction hwords generalizing row rows with
  | @intro label children hlabel hchildren ih =>
      -- A leaf does not end its own word: the blank or the bracket after it does.  So the statement
      -- ends the word, and it fits between any two children whatever they are.
      cases hempty : children.isEmpty with
      | true =>
          rw [List.isEmpty_iff.mp hempty, toList_bracketed_leaf]
          exact endWord_read_word hlabel row rows
      | false =>
          have hopen : step ⟨[], row :: rows⟩ '(' = ⟨[], [] :: row :: rows⟩ := rfl
          have hlast (reader : Reader) : reader.read [')'] = reader.endWord.close := rfl
          rw [toList_bracketed_node label (List.isEmpty_eq_false_iff.mp hempty), List.cons_append,
            List.cons_append, read_cons, hopen, read_append, read_append, hlast,
            endWord_read_all ih (endWord_read_word hlabel [] (row :: rows)), close_row]
          rfl

end Reader

theorem ofBracketed?_bracketed {outline : Outline} (hwords : outline.EveryLabel IsWord) :
    ofBracketed? outline.bracketed = some outline := by
  rw [ofBracketed?, Reader.start, Reader.endWord_read_bracketed hwords]

end Outline

namespace Node

theorem Every.everyLabel {p : String → Prop} {node : Node}
    (hevery : node.Every fun part => p part.head) : node.heads.EveryLabel p :=
  Shows.everyLabel heads_eq hevery

section

variable {p : String → Prop} {op : Token} {left right operand : Node} {location : Option Location}

theorem Every.labelled (hinner : operand.Every fun part => p part.head) (label : String) :
    (labelled label operand).Every fun part => p part.head := by
  obtain ⟨hroot, hchildren⟩ := hinner
  exact .intro hroot hchildren

theorem Every.unary (hop : p op.name) (hoperand : operand.Every fun part => p part.head) :
    (unary op operand location).Every fun part => p part.head :=
  .intro hop (List.forall_mem_singleton.mpr (hoperand.labelled "Exp"))

theorem Every.binary (hop : p op.name) (hleft : left.Every fun part => p part.head)
    (hright : right.Every fun part => p part.head) :
    (binary op left right location).Every fun part => p part.head :=
  .intro hop (List.forall_mem_cons.mpr
    ⟨hleft.labelled "L", List.forall_mem_singleton.mpr (hright.labelled "R")⟩)

end

/-- Where all heads are words, trees look the same in brackets just when their heads agree at every
depth, and the heads are read back from the brackets. -/
theorem bracketed_eq_iff {a b : Node} (ha : a.Every fun part => Outline.IsWord part.head)
    (hb : b.Every fun part => Outline.IsWord part.head) :
    (a.bracketed = b.bracketed ↔ AgreeOn head a b) ∧
      Outline.ofBracketed? a.bracketed = some a.heads := by
  have hread : Outline.ofBracketed? a.bracketed = some a.heads :=
    Outline.ofBracketed?_bracketed ha.everyLabel
  refine ⟨⟨fun hsame => ?_, fun hagree => ?_⟩, hread⟩
  · have hother : Outline.ofBracketed? b.bracketed = some b.heads :=
      Outline.ofBracketed?_bracketed hb.everyLabel
    rw [← hsame, hread] at hother
    exact agreeOn_head_iff.mpr (Option.some.inj hother)
  · exact congrArg Outline.bracketed (agreeOn_head_iff.mp hagree)

/-- The sum of a negation, with a label or without, is not the negation of a sum. -/
theorem bracketed_eq_iff_sum :
    let x : Node := .leaf { kind := "NAME", text := some "x" }
    let one : Node := .leaf { kind := "NUM", value := some (.int 1) }
    let sum : Node := .binary { kind := "+" } (.unary { kind := "-" } x none) one none
    let shown : Node :=
      .binary { kind := "+" } (.labelled "sign" (.unary { kind := "-" } x none)) one none
    let negated : Node := .unary { kind := "-" } (.binary { kind := "+" } x one none) none
    AgreeOn head shown sum ∧ shown.bracketed = "(+ (- x) 1)" ∧
      Outline.ofBracketed? "(+ (- x) 1)" = some sum.heads ∧ ¬ AgreeOn head sum negated := by
  intro x one sum shown negated
  have hx : x.Every fun part => Outline.IsWord part.head := .intro (by decide) nofun
  have hone : one.Every fun part => Outline.IsWord part.head := .intro (by decide) nofun
  have hsum : sum.Every fun part => Outline.IsWord part.head :=
    .binary (by decide) (.unary (by decide) hx) hone
  have hshown : shown.Every fun part => Outline.IsWord part.head :=
    .binary (by decide) (.labelled (.unary (by decide) hx) "sign") hone
  have hnegated : negated.Every fun part => Outline.IsWord part.head :=
    .unary (by decide) (.binary (by decide) hx hone)
  refine ⟨(bracketed_eq_iff hshown hsum).1.mp (by decide), by decide,
    (bracketed_eq_iff hsum hsum).2, ?_⟩
  rw [← (bracketed_eq_iff hsum hnegated).1]
  decide

end Node

end Precedence
