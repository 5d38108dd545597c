import Precedence.Proofs.Tree.Views

/-!
# Reading drawings back

A drawing has a line for every node of the tree, each node before its children.  What stands before
the description of a node tells of each node on the way to it from the root whether it is the last
child of its parent: two columns for every one above, and the joint of the node itself.  The number
of columns is enough to read the tree back, so no two trees whose descriptions are single lines are
drawn alike.
-/

namespace Precedence

namespace Glyphs

/-- The columns below a node, to the left of its descendants. -/
def cell (glyphs : Glyphs) (last : Bool) : String := if last then "  " else glyphs.skip ++ " "

/-- What leads into a node below the root. -/
def joint (glyphs : Glyphs) (last : Bool) : String := if last then glyphs.last else glyphs.branch

/-- The line of a node, given for each node on the way from the root to it whether it is the last
child of its parent. -/
def line (glyphs : Glyphs) (lasts : List Bool) (label : String) : String :=
  String.join (lasts.dropLast.map glyphs.cell) ++
    (lasts.getLast?.elim glyphs.start glyphs.joint) ++ glyphs.into ++ " " ++ label

theorem line_cons (glyphs : Glyphs) (last : Bool) {lasts : List Bool} (hbelow : lasts ≠ [])
    (label : String) :
    glyphs.line (last :: lasts) label = glyphs.cell last ++ glyphs.line lasts label := by
  cases lasts with
  | nil => exact absurd rfl hbelow
  | cons next lasts =>
      simp [line, String.join_cons, String.append_assoc]

/-- Every glyph takes one column and stands within a line, and the one before a label is no
blank. -/
def Legible (glyphs : Glyphs) : Prop :=
  (∀ glyph ∈ [glyphs.start, glyphs.last, glyphs.branch, glyphs.skip, glyphs.into],
    glyph.toList.length = 1 ∧ '\n' ∉ glyph.toList) ∧ glyphs.into ≠ " "

instance (glyphs : Glyphs) : Decidable glyphs.Legible := inferInstanceAs (Decidable (_ ∧ _))

theorem legible_of_mem {glyphs : Glyphs} (hglyphs : glyphs ∈ [ascii, rounded, square]) :
    glyphs.Legible := by
  revert glyphs
  decide

end Glyphs

namespace Outline

/-- A node as a drawing meets it: for each step of the way from the root which child is next and
whether it is the last one, and the label at the end. -/
structure Visit where
  path : List Nat
  lasts : List Bool
  label : String

/-- The same node as seen from the parent of the one that the way began at. -/
def Visit.fromAbove (i : Nat) (last : Bool) (visit : Visit) : Visit :=
  ⟨i :: visit.path, last :: visit.lasts, visit.label⟩

mutual

/-- The nodes of the outline, each before its children. -/
def visits : Outline → List Visit
  | .node label children => ⟨[], [], label⟩ :: visitsFrom 0 children

/-- The nodes of outlines that are the children of one node, from the one with this number on. -/
def visitsFrom (i : Nat) : List Outline → List Visit
  | [] => []
  | outline :: rest => outline.visits.map (.fromAbove i rest.isEmpty) ++ visitsFrom (i + 1) rest

end

theorem branchLines_cons (glyphs : Glyphs) (indent label : String) (children rest : List Outline) :
    branchLines glyphs indent (.node label children :: rest) =
      (indent ++ glyphs.line [rest.isEmpty] label) ::
        (branchLines glyphs (indent ++ glyphs.cell rest.isEmpty) children ++
          branchLines glyphs indent rest) := by
  cases rest with
  | nil => simp [branchLines, Glyphs.line, Glyphs.cell, Glyphs.joint, String.append_assoc]
  | cons sibling rest =>
      simp [branchLines, Glyphs.line, Glyphs.cell, Glyphs.joint, String.append_assoc]

theorem visitsFrom_cons (i : Nat) (label : String) (children rest : List Outline) :
    visitsFrom i (.node label children :: rest) =
      ⟨[i], [rest.isEmpty], label⟩ ::
        ((visitsFrom 0 children).map (.fromAbove i rest.isEmpty) ++ visitsFrom (i + 1) rest) := rfl

theorem lasts_ne_nil_of_mem_visitsFrom {outlines : List Outline} {i : Nat} {visit : Visit}
    (hvisit : visit ∈ visitsFrom i outlines) : visit.lasts ≠ [] := by
  induction outlines generalizing i with
  | nil => cases hvisit
  | cons outline rest ih =>
      rcases List.mem_append.mp hvisit with hinside | hafter
      · obtain ⟨inner, -, rfl⟩ := List.mem_map.mp hinside
        exact List.cons_ne_nil _ _
      · exact ih hafter

/-- Below a node, the lines are those of its descendants with its own columns before them. -/
theorem branchLines_eq_map_visitsFrom (glyphs : Glyphs) (outlines : List Outline) :
    ∀ (indent : String) (i : Nat), branchLines glyphs indent outlines =
      (visitsFrom i outlines).map fun visit => indent ++ glyphs.line visit.lasts visit.label := by
  induction outlines using forest_induction with
  | nil => exact fun _ _ => by rw [branchLines, visitsFrom, List.map_nil]
  | cons label children rest ihChildren ihRest =>
      intro indent i
      rw [branchLines_cons, visitsFrom_cons, List.map_cons, List.map_append, List.map_map,
        ihChildren _ 0, ihRest indent (i + 1)]
      refine congrArg₂ _ rfl (congrArg (· ++ _) (List.map_congr_left fun visit hvisit => ?_))
      rw [String.append_assoc, ← glyphs.line_cons _ (lasts_ne_nil_of_mem_visitsFrom hvisit)]
      rfl

/-- There is one line for every node. -/
theorem lines_eq_map_visits (glyphs : Glyphs) (outline : Outline) :
    outline.lines glyphs = outline.visits.map fun visit => glyphs.line visit.lasts visit.label := by
  cases outline with
  | node label children =>
      have hbelow := branchLines_eq_map_visitsFrom glyphs children "" 0
      simp only [String.empty_append] at hbelow
      rw [lines, linesBelow, hbelow, visits, List.map_cons]
      simp [Glyphs.line, Outline.label, String.append_assoc]

theorem exists_ge_of_mem_visitsFrom {outlines : List Outline} {i : Nat} {visit : Visit}
    (hvisit : visit ∈ visitsFrom i outlines) : ∃ j path, visit.path = j :: path ∧ i ≤ j := by
  induction outlines generalizing i with
  | nil => cases hvisit
  | cons outline rest ih =>
      rcases List.mem_append.mp hvisit with hinside | hafter
      · obtain ⟨inner, -, rfl⟩ := List.mem_map.mp hinside
        exact ⟨i, inner.path, rfl, Nat.le_refl i⟩
      · obtain ⟨j, path, hpath, hj⟩ := ih hafter
        exact ⟨j, path, hpath, Nat.le_of_succ_le hj⟩

theorem nil_lt_of_mem_visitsFrom {outlines : List Outline} {i : Nat} {visit : Visit}
    (hvisit : visit ∈ visitsFrom i outlines) : [] < visit.path := by
  obtain ⟨j, path, hpath, -⟩ := exists_ge_of_mem_visitsFrom hvisit
  rw [hpath]
  exact List.nil_lt_cons j path

theorem cons_lt_of_mem_visitsFrom {outlines : List Outline} {i : Nat} {visit : Visit}
    (hvisit : visit ∈ visitsFrom (i + 1) outlines) (path : List Nat) : i :: path < visit.path := by
  obtain ⟨j, later, hpath, hj⟩ := exists_ge_of_mem_visitsFrom hvisit
  rw [hpath]
  exact List.cons_lt_cons_iff.mpr (.inl hj)

theorem pairwise_visitsFrom (outlines : List Outline) :
    ∀ i, (visitsFrom i outlines).Pairwise fun before after => before.path < after.path := by
  induction outlines using forest_induction with
  | nil => exact fun _ => .nil
  | cons label children rest ihChildren ihRest =>
      intro i
      rw [visitsFrom_cons, List.pairwise_cons, List.pairwise_append, List.pairwise_map]
      refine ⟨fun visit hvisit => ?_, ?_, ihRest (i + 1), fun inner hinner after hafter => ?_⟩
      · rcases List.mem_append.mp hvisit with hinside | hafter
        · obtain ⟨inner, hinner, rfl⟩ := List.mem_map.mp hinside
          exact List.cons_lt_cons_self.mpr (nil_lt_of_mem_visitsFrom hinner)
        · exact cons_lt_of_mem_visitsFrom hafter []
      · exact (ihChildren 0).imp fun hbefore => List.cons_lt_cons_self.mpr hbefore
      · obtain ⟨visit, -, rfl⟩ := List.mem_map.mp hinner
        exact cons_lt_of_mem_visitsFrom hafter visit.path

/-- A node comes after its ancestors, and after the earlier siblings of these and its own with all
of their descendants. -/
theorem pairwise_visits (outline : Outline) :
    outline.visits.Pairwise fun before after => before.path < after.path := by
  cases outline with
  | node label children =>
      exact List.pairwise_cons.mpr
        ⟨fun visit hvisit => nil_lt_of_mem_visitsFrom hvisit, pairwise_visitsFrom children 0⟩

theorem mem_visitsFrom {outlines : List Outline} {i : Nat} {visit : Visit} :
    visit ∈ visitsFrom i outlines ↔ ∃ j, ∃ outline : Outline, outlines[j]? = some outline ∧
      ∃ inner ∈ outline.visits, visit = inner.fromAbove (i + j) (j + 1 == outlines.length) := by
  induction outlines generalizing i with
  | nil => simp [visitsFrom]
  | cons outline rest ih =>
      have hempty : rest.isEmpty = (0 + 1 == rest.length + 1) := by cases rest <;> rfl
      have hshift (j : Nat) : i + 1 + j = i + (j + 1) := by rw [Nat.add_assoc, Nat.add_comm 1]
      have hlast (j : Nat) : (j + 1 == rest.length) = (j + 1 + 1 == rest.length + 1) := by simp
      rw [visitsFrom, List.mem_append, List.mem_map, ih, List.length_cons]
      constructor
      · rintro (⟨inner, hinner, rfl⟩ | ⟨j, other, hother, inner, hinner, rfl⟩)
        · exact ⟨0, outline, rfl, inner, hinner, by rw [hempty]; rfl⟩
        · exact ⟨j + 1, other, hother, inner, hinner, by rw [hshift, hlast]⟩
      · rintro ⟨j | j, other, hother, inner, hinner, rfl⟩
        · cases hother
          exact .inl ⟨inner, hinner, by rw [hempty]; rfl⟩
        · exact .inr ⟨j, other, hother, inner, hinner, by rw [hshift, hlast]⟩

end Outline

namespace Node

theorem describeOnto_eq (node : Node) (text : String) :
    node.describeOnto text = text ++ node.describe := by
  induction node generalizing text with
  | labelled label inner ih =>
      rw [describe, describeOnto, describeOnto, ih, ih ("" ++ label ++ ": "), String.empty_append,
        String.append_assoc, String.append_assoc, String.append_assoc]
  | _ => simp [describe, describeOnto]

theorem describe_labelled (label : String) (inner : Node) :
    (labelled label inner).describe = label ++ ": " ++ inner.describe := by
  rw [describe, describeOnto, describeOnto_eq, String.empty_append]

theorem displaysAll_eq_map (nodes : List Node) : displaysAll nodes = nodes.map displays := by
  induction nodes with
  | nil => rfl
  | cons node nodes ih =>
      rw [displaysAll, ih]
      rfl

theorem displaysBelow_eq (node : Node) : node.displaysBelow = node.children.map displays := by
  induction node with
  | leaf token => rfl
  | atom token => rfl
  | labelled label inner ih => exact ih
  | unary op operand location ih =>
      rw [displaysBelow, children, List.map_singleton, displays, describe_labelled]
      rfl
  | binary op left right location ihLeft ihRight =>
      rw [displaysBelow, children, List.map_cons, List.map_singleton, displays, displays,
        describe_labelled, describe_labelled]
      rfl
  | custom text location token children ih => exact displaysAll_eq_map children

/-- The outline that is drawn, in terms of what the nodes tell. -/
theorem displays_eq (node : Node) :
    node.displays = .node node.describe (node.children.map displays) :=
  congrArg (Outline.node node.describe) node.displaysBelow_eq

/-- Trees have the same outline of descriptions just when their descriptions agree. -/
theorem agreeOn_describe_iff {a b : Node} : AgreeOn describe a b ↔ a.displays = b.displays :=
  Shows.agreeOn_iff displays_eq

/-- Where a path leads that says at each step which child is next. -/
def descendant? : Node → List Nat → Option Node
  | node, [] => some node
  | node, i :: path => node.children[i]?.bind (·.descendant? path)

/-- Whether the path takes the last child, step by step. -/
def lasts : Node → List Nat → List Bool
  | _, [] => []
  | node, i :: path =>
      (i + 1 == node.children.length) :: (node.children[i]?.elim [] (·.lasts path))

/-- The line that draws the node a path leads to. -/
def lineAt? (glyphs : Glyphs) (node : Node) (path : List Nat) : Option String :=
  (node.descendant? path).map fun part => glyphs.line (node.lasts path) part.describe

open Outline in
/-- The nodes that a drawing meets are those that paths lead to. -/
theorem mem_visits_displays {node : Node} {path : List Nat} {lasts : List Bool} {label : String} :
    ⟨path, lasts, label⟩ ∈ node.displays.visits ↔ ∃ part, node.descendant? path = some part ∧
      lasts = node.lasts path ∧ label = part.describe := by
  induction path generalizing node lasts label with
  | nil =>
      rw [displays_eq, visits, List.mem_cons]
      constructor
      · rintro (hroot | hbelow)
        · cases hroot
          exact ⟨node, rfl, rfl, rfl⟩
        · obtain ⟨_, _, ⟨⟩, -⟩ := exists_ge_of_mem_visitsFrom hbelow
      · rintro ⟨_, ⟨⟩, rfl, rfl⟩
        exact .inl rfl
  | cons i path ih =>
      rw [displays_eq, visits, List.mem_cons, mem_visitsFrom, List.length_map]
      constructor
      · rintro (hroot | ⟨j, outline, houtline, ⟨path, lasts, label⟩, hinner, hvisit⟩)
        · cases hroot
        · rw [List.getElem?_map, Option.map_eq_some_iff] at houtline
          obtain ⟨child, hchild, rfl⟩ := houtline
          simp only [Visit.fromAbove, Nat.zero_add, Visit.mk.injEq, List.cons.injEq] at hvisit
          obtain ⟨⟨rfl, rfl⟩, rfl, rfl⟩ := hvisit
          obtain ⟨part, hpart, rfl, rfl⟩ := ih.mp hinner
          refine ⟨part, ?_, ?_, rfl⟩
          · rw [descendant?, hchild]
            exact hpart
          · rw [Node.lasts, hchild]
            rfl
      · rintro ⟨part, hpart, rfl, rfl⟩
        obtain ⟨child, hchild, hinner⟩ := Option.bind_eq_some_iff.mp hpart
        refine .inr ⟨i, child.displays, ?_, ⟨path, child.lasts path, part.describe⟩, ?_, ?_⟩
        · rw [List.getElem?_map, hchild]
          rfl
        · exact ih.mpr ⟨part, hinner, rfl, rfl⟩
        · rw [Node.lasts, hchild, Visit.fromAbove, Nat.zero_add]
          rfl

/-- A drawing has one line for every node, in the order of the paths that lead to them. -/
theorem exists_paths_lines (glyphs : Glyphs) (node : Node) :
    ∃ paths : List (List Nat), paths.Pairwise (· < ·) ∧
      (∀ path, path ∈ paths ↔ (node.descendant? path).isSome) ∧
      paths.map (node.lineAt? glyphs) = (node.displays.lines glyphs).map some := by
  refine ⟨node.displays.visits.map (·.path), ?_, fun path => ?_, ?_⟩
  · exact List.pairwise_map.mpr node.displays.pairwise_visits
  · rw [List.mem_map, Option.isSome_iff_exists]
    constructor
    · rintro ⟨⟨path, lasts, label⟩, hvisit, rfl⟩
      obtain ⟨part, hpart, -⟩ := mem_visits_displays.mp hvisit
      exact ⟨part, hpart⟩
    · rintro ⟨part, hpart⟩
      exact ⟨⟨path, node.lasts path, part.describe⟩,
        mem_visits_displays.mpr ⟨part, hpart, rfl, rfl⟩, rfl⟩
  · rw [Outline.lines_eq_map_visits, List.map_map, List.map_map]
    refine List.map_congr_left fun ⟨path, lasts, label⟩ hvisit => ?_
    obtain ⟨part, hpart, rfl, rfl⟩ := mem_visits_displays.mp hvisit
    simp [lineAt?, hpart]

end Node

namespace Glyphs

/-- Counts the pairs of columns up to the glyph before the label, and takes the label. -/
def readLine (glyphs : Glyphs) : List Char → Nat × String
  | _ :: c :: text =>
      if String.singleton c = glyphs.into then (1, .ofList (text.drop 1))
      else (glyphs.readLine text).map (· + 1) id
  | _ => (0, "")

variable {glyphs : Glyphs}

theorem Legible.exists_toList_eq (hlegible : glyphs.Legible) (glyph : String)
    (hglyph : glyph ∈ [glyphs.start, glyphs.last, glyphs.branch, glyphs.skip, glyphs.into]) :
    ∃ c, glyph.toList = [c] ∧ c ≠ '\n' := by
  obtain ⟨hlength, hnewline⟩ := hlegible.1 glyph hglyph
  obtain ⟨c, hc⟩ := List.length_eq_one_iff.mp hlength
  rw [hc, List.mem_singleton] at hnewline
  exact ⟨c, hc, Ne.symm hnewline⟩

theorem Legible.toList_joint (hlegible : glyphs.Legible) (last : Bool) :
    ∃ c, (glyphs.joint last).toList = [c] ∧ c ≠ '\n' := by
  cases last <;> exact hlegible.exists_toList_eq _ (by simp [joint])

theorem Legible.toList_cell (hlegible : glyphs.Legible) (last : Bool) :
    ∃ c, (glyphs.cell last).toList = [c, ' '] ∧ c ≠ '\n' := by
  cases last with
  | true => exact ⟨' ', by simp [cell], by decide⟩
  | false =>
      obtain ⟨c, hc, hline⟩ := hlegible.exists_toList_eq glyphs.skip (by simp)
      exact ⟨c, by rw [cell, if_neg Bool.false_ne_true, String.toList_append, hc]; rfl, hline⟩

/-- In the columns of a node itself the glyph before the label comes second. -/
theorem Legible.readLine_joint (hlegible : glyphs.Legible) {glyph : String} {c : Char}
    (hglyph : glyph.toList = [c]) (label : String) :
    glyphs.readLine (glyph ++ glyphs.into ++ " " ++ label).toList = (1, label) := by
  obtain ⟨into, hlist, -⟩ := hlegible.exists_toList_eq glyphs.into (by simp)
  have hinto : glyphs.into = String.singleton into := String.toList_inj.mp (by simp [hlist])
  simp [hglyph, hinto, readLine]

/-- In the columns of any node above a blank comes second. -/
theorem Legible.readLine_cell (hlegible : glyphs.Legible) (last : Bool) (text : String) :
    glyphs.readLine (glyphs.cell last ++ text).toList =
      (glyphs.readLine text.toList).map (· + 1) id := by
  obtain ⟨c, hcell, -⟩ := hlegible.toList_cell last
  rw [String.toList_append, hcell, List.cons_append, List.cons_append, List.nil_append, readLine,
    if_neg fun hinto => hlegible.2 hinto.symm]

theorem Legible.readLine_root (hlegible : glyphs.Legible) (label : String) :
    glyphs.readLine (glyphs.line [] label).toList = (1, label) := by
  obtain ⟨c, hstart, -⟩ := hlegible.exists_toList_eq glyphs.start (by simp)
  have hline : glyphs.line [] label = glyphs.start ++ glyphs.into ++ " " ++ label := by simp [line]
  rw [hline, hlegible.readLine_joint hstart]

/-- The line of a node below the root tells how deep the node is. -/
theorem Legible.readLine_line (hlegible : glyphs.Legible) {lasts : List Bool}
    (hbelow : lasts ≠ []) (label : String) :
    glyphs.readLine (glyphs.line lasts label).toList = (lasts.length, label) := by
  induction lasts with
  | nil => exact absurd rfl hbelow
  | cons last lasts ih =>
      cases lasts with
      | nil =>
          obtain ⟨c, hjoint, -⟩ := hlegible.toList_joint last
          have hline : glyphs.line [last] label =
              glyphs.joint last ++ glyphs.into ++ " " ++ label := by simp [line]
          rw [hline, hlegible.readLine_joint hjoint]
          rfl
      | cons next lasts =>
          have hmore := List.cons_ne_nil next lasts
          rw [line_cons glyphs last hmore, hlegible.readLine_cell, ih hmore]
          rfl

theorem Legible.newline_notMem_line (hlegible : glyphs.Legible) (lasts : List Bool) {label : String}
    (hlabel : '\n' ∉ label.toList) : '\n' ∉ (glyphs.line lasts label).toList := by
  have hcells : '\n' ∉ (String.join (lasts.dropLast.map glyphs.cell)).toList := by
    rw [String.toList_join, List.mem_flatMap]
    rintro ⟨cell, hmem, hnewline⟩
    obtain ⟨last, -, rfl⟩ := List.mem_map.mp hmem
    obtain ⟨c, hcell, hc⟩ := hlegible.toList_cell last
    simp [hcell, hc.symm] at hnewline
  have hjoint : '\n' ∉ (lasts.getLast?.elim glyphs.start glyphs.joint).toList := by
    cases lasts.getLast? with
    | none => exact (hlegible.1 glyphs.start (by simp)).2
    | some last =>
        obtain ⟨c, hjoint, hc⟩ := hlegible.toList_joint last
        simpa [hjoint] using hc.symm
  have hinto := (hlegible.1 glyphs.into (by simp)).2
  simp only [line, String.toList_append, List.mem_append, not_or]
  exact ⟨⟨⟨⟨hcells, hjoint⟩, hinto⟩, by decide⟩, hlabel⟩

end Glyphs

namespace Outline

/-- Adds the node of a line to what the lines after it have come to, outlines each with its depth:
those that are deeper than the node are its children. -/
def graft (line : Nat × String) (forest : List (Nat × Outline)) : List (Nat × Outline) :=
  (line.1, .node line.2 ((forest.takeWhile (line.1 < ·.1)).map (·.2))) ::
    forest.dropWhile (line.1 < ·.1)

/-- The outline that is drawn like this. -/
def ofDrawn? (glyphs : Glyphs) (text : String) : Option Outline :=
  match (text.toList.splitOn '\n').dropLast.map glyphs.readLine with
  | [] => none
  | (_, label) :: rest => some (.node label ((rest.foldr graft []).map (·.2)))

theorem map_snd_at (depth : Nat) (outlines : List Outline) :
    (outlines.map (depth, ·)).map (·.2) = outlines := by
  simp [Function.comp_def]

theorem graft_append {depth : Nat} {inner forest : List (Nat × Outline)}
    (hinner : ∀ entry ∈ inner, depth < entry.1) (hforest : ∀ entry ∈ forest.head?, entry.1 ≤ depth)
    (label : String) :
    graft (depth, label) (inner ++ forest) = (depth, .node label (inner.map (·.2))) :: forest := by
  have hpos : ∀ entry ∈ inner, decide (depth < entry.1) = true :=
    fun entry hentry => decide_eq_true (hinner entry hentry)
  rw [graft, List.takeWhile_append_of_pos hpos, List.dropWhile_append_of_pos hpos]
  cases forest with
  | nil => simp
  | cons entry forest =>
      have hstop : ¬depth < entry.1 := Nat.not_lt.mpr (hforest entry rfl)
      simp [hstop]

/-- The lines of the descendants of a node, read from the last to the first, come to the children of
the node. -/
theorem foldr_graft_visitsFrom (outlines : List Outline) :
    ∀ (depth i : Nat) (forest : List (Nat × Outline)),
      (∀ entry ∈ forest.head?, entry.1 ≤ depth + 1) →
      ((visitsFrom i outlines).map fun visit => (depth + visit.lasts.length, visit.label)).foldr
        graft forest = outlines.map (depth + 1, ·) ++ forest := by
  induction outlines using forest_induction with
  | nil => exact fun _ _ _ _ => rfl
  | cons label children rest ihChildren ihRest =>
      intro depth i forest hforest
      have hnext : ∀ entry ∈ (rest.map (depth + 1, ·) ++ forest).head?, entry.1 ≤ depth + 1 := by
        cases rest with
        | nil => exact hforest
        | cons sibling rest =>
            rintro entry ⟨⟩
            exact Nat.le_refl _
      have hchildren := ihChildren (depth + 1) 0 _
        fun entry hentry => Nat.le_succ_of_le (hnext entry hentry)
      have hdeeper : (fun visit : Visit => (depth + visit.lasts.length, visit.label)) ∘
          .fromAbove i rest.isEmpty =
            fun visit => (depth + 1 + visit.lasts.length, visit.label) := by
        funext visit
        simp only [Function.comp_apply, Visit.fromAbove, List.length_cons]
        rw [Nat.add_right_comm, Nat.add_assoc]
      have hinner : ∀ entry ∈ children.map (depth + 1 + 1, ·), depth + 1 < entry.1 := by
        intro entry hentry
        obtain ⟨child, -, rfl⟩ := List.mem_map.mp hentry
        exact Nat.lt_succ_self _
      rw [visitsFrom_cons, List.map_cons, List.map_append, List.map_map, hdeeper, List.foldr_cons,
        List.foldr_append, ihRest depth (i + 1) forest hforest, hchildren]
      exact (graft_append hinner hnext label).trans (by rw [map_snd_at]; rfl)

theorem EveryLabel.of_mem_visits {p : String → Prop} {outline : Outline}
    (hevery : outline.EveryLabel p) {visit : Visit} (hvisit : visit ∈ outline.visits) :
    p visit.label := by
  induction hevery generalizing visit with
  | @intro label children hlabel hchildren ih =>
      rcases List.mem_cons.mp hvisit with rfl | hbelow
      · exact hlabel
      · obtain ⟨j, child, hchild, inner, hinner, rfl⟩ := mem_visitsFrom.mp hbelow
        exact (ih child (List.mem_of_getElem? hchild) hinner :)

theorem splitOn_join {lines : List String} (hlines : ∀ line ∈ lines, '\n' ∉ line.toList) :
    (String.join (lines.map (·.push '\n'))).toList.splitOn '\n' =
      lines.map String.toList ++ [[]] := by
  induction lines with
  | nil => simp
  | cons line lines ih =>
      obtain ⟨hline, hrest⟩ := List.forall_mem_cons.mp hlines
      rw [List.map_cons, String.join_cons, String.toList_append, String.toList_push,
        List.append_assoc, List.singleton_append, List.splitOn_append_cons_self_of_not_mem hline,
        ih hrest]
      rfl

variable {glyphs : Glyphs} {outline : Outline}

/-- Where every label is a line of its own, so is that of every node in the drawing. -/
theorem splitOn_drawn (hlegible : glyphs.Legible)
    (hlabels : outline.EveryLabel fun label => '\n' ∉ label.toList) :
    (outline.drawn glyphs).toList.splitOn '\n' =
      (outline.lines glyphs).map String.toList ++ [[]] := by
  refine splitOn_join fun line hline => ?_
  rw [lines_eq_map_visits] at hline
  obtain ⟨visit, hvisit, rfl⟩ := List.mem_map.mp hline
  exact hlegible.newline_notMem_line _ (hlabels.of_mem_visits hvisit)

theorem ofDrawn?_drawn (hlegible : glyphs.Legible)
    (hlabels : outline.EveryLabel fun label => '\n' ∉ label.toList) :
    ofDrawn? glyphs (outline.drawn glyphs) = some outline := by
  rw [ofDrawn?, splitOn_drawn hlegible hlabels, List.dropLast_concat, lines_eq_map_visits]
  cases outline with
  | node label children =>
      have hbelow : ((visitsFrom 0 children).map fun visit =>
          glyphs.readLine (glyphs.line visit.lasts visit.label).toList) =
            (visitsFrom 0 children).map fun visit => (0 + visit.lasts.length, visit.label) := by
        refine List.map_congr_left fun visit hvisit => ?_
        rw [hlegible.readLine_line (lasts_ne_nil_of_mem_visitsFrom hvisit), Nat.zero_add]
      have hforest := foldr_graft_visitsFrom children 0 0 [] nofun
      rw [List.map_map, List.map_map, visits, List.map_cons]
      simp only [Function.comp_def, hlegible.readLine_root, hbelow, hforest]
      rw [List.append_nil, map_snd_at]

end Outline

namespace Node

variable {glyphs : Glyphs} {a b : Node}

/-- Where every description is a line of its own, a drawing has one line for every node, in the
order of the paths that lead to them.  It is read back to the outline of the descriptions, so two
such trees are drawn alike just when their descriptions agree at every depth. -/
theorem drawn_eq_iff (hglyphs : glyphs ∈ [.ascii, .rounded, .square])
    (ha : a.Every fun part => '\n' ∉ part.describe.toList)
    (hb : b.Every fun part => '\n' ∉ part.describe.toList) :
    (∃ (paths : List (List Nat)) (lines : List String), paths.Pairwise (· < ·) ∧
      (∀ path, path ∈ paths ↔ (a.descendant? path).isSome) ∧
      paths.map (a.lineAt? glyphs) = lines.map some ∧
      (a.drawn glyphs).toList.splitOn '\n' = lines.map String.toList ++ [[]]) ∧
    (a.drawn glyphs = b.drawn glyphs ↔ AgreeOn describe a b) ∧
    Outline.ofDrawn? glyphs (a.drawn glyphs) = some a.displays := by
  have hlegible := Glyphs.legible_of_mem hglyphs
  have hlabels : a.displays.EveryLabel fun label => '\n' ∉ label.toList :=
    Shows.everyLabel displays_eq ha
  have hread : Outline.ofDrawn? glyphs (a.drawn glyphs) = some a.displays :=
    Outline.ofDrawn?_drawn hlegible hlabels
  refine ⟨?_, ⟨fun hsame => ?_, fun hagree => ?_⟩, hread⟩
  · obtain ⟨paths, hsorted, hpaths, hlines⟩ := a.exists_paths_lines glyphs
    exact ⟨paths, a.displays.lines glyphs, hsorted, hpaths, hlines,
      Outline.splitOn_drawn hlegible hlabels⟩
  · have hother : Outline.ofDrawn? glyphs (b.drawn glyphs) = some b.displays :=
      Outline.ofDrawn?_drawn hlegible (Shows.everyLabel displays_eq hb)
    rw [← hsame, hread] at hother
    exact agreeOn_describe_iff.mpr (Option.some.inj hother)
  · exact congrArg (Outline.drawn glyphs) (agreeOn_describe_iff.mp hagree)

/-- The sum of a negation is not drawn like the negation of a sum. -/
theorem drawn_eq_iff_sum :
    let x : Node := .leaf { kind := "NAME", text := some "x" }
    let one : Node := .leaf { kind := "NUM", value := some (.int 1) }
    let sum : Node := .binary { kind := "+" } (.unary { kind := "-" } x none) one none
    let negated : Node := .unary { kind := "-" } (.binary { kind := "+" } x one none) none
    let drawing := "╭─ + token\n├─ L: - token\n│ ╰─ Exp: NAME token\n╰─ R: NUM token: 1\n"
    sum.drawn .rounded = drawing ∧ Outline.ofDrawn? .rounded drawing = some sum.displays ∧
      sum.lineAt? .rounded [0, 0] = some "│ ╰─ Exp: NAME token" ∧
      ¬AgreeOn describe sum negated := by
  intro x one sum negated drawing
  have hsum : sum.Every fun part => '\n' ∉ part.describe.toList :=
    .intro (by decide) (List.forall_mem_cons.mpr
      ⟨.intro (by decide) (List.forall_mem_singleton.mpr (.intro (by decide) nofun)),
        List.forall_mem_singleton.mpr (.intro (by decide) nofun)⟩)
  have hnegated : negated.Every fun part => '\n' ∉ part.describe.toList :=
    .intro (by decide) (List.forall_mem_singleton.mpr (.intro (by decide) (List.forall_mem_cons.mpr
      ⟨.intro (by decide) nofun, List.forall_mem_singleton.mpr (.intro (by decide) nofun)⟩)))
  have hdrawn : sum.drawn .rounded = drawing := by
    rw [drawn, Outline.drawn, Outline.lines_eq_map_visits]
    decide
  have hrounded : Glyphs.rounded ∈ [Glyphs.ascii, .rounded, .square] := by decide
  obtain ⟨-, hiff, hread⟩ := drawn_eq_iff hrounded hsum hnegated
  refine ⟨hdrawn, hdrawn ▸ hread, by decide, ?_⟩
  rw [← hiff, hdrawn, drawn, Outline.drawn, Outline.lines_eq_map_visits]
  decide

end Node

end Precedence
