import Mathlib.Data.List.Forall2
import Precedence.Tree

/-!
# Trees seen through their children

A node tells its location, its token, its description and its children, and what it is made of shows
only through these.  Here is what holds at every depth of a tree that is seen in this way, and when
two trees agree at every depth.  An outline that is written from what the nodes show is a case of
this: two trees have the same one just when they agree on it.
-/

namespace Precedence

/-- A property of outlines that a node inherits from its children holds of every outline. -/
@[elab_as_elim, induction_eliminator]
theorem Outline.induction {motive : Outline → Prop}
    (node : ∀ label children, (∀ child ∈ children, motive child) → motive (.node label children)) :
    ∀ outline, motive outline
  | .node label children => node label children fun child _ => induction node child

/-- A property of lists of outlines holds of all if a list inherits it from the children of its
first outline and from the rest. -/
@[elab_as_elim]
theorem Outline.forest_induction {motive : List Outline → Prop} (nil : motive [])
    (cons : ∀ label children rest, motive children → motive rest →
      motive (.node label children :: rest)) : ∀ outlines, motive outlines
  | [] => nil
  | .node label children :: rest =>
      cons label children rest (forest_induction nil cons children) (forest_induction nil cons rest)

/-- The property holds of the labels at every depth. -/
inductive Outline.EveryLabel (p : String → Prop) : Outline → Prop
  | intro {label : String} {children : List Outline} (hlabel : p label)
      (hchildren : ∀ child ∈ children, EveryLabel p child) : EveryLabel p (.node label children)

namespace Node

/-- A property of trees that a node inherits from the nodes it is made of holds of every tree. -/
@[elab_as_elim, induction_eliminator]
theorem induction {motive : Node → Prop}
    (leaf : ∀ token, motive (.leaf token)) (atom : ∀ token, motive (.atom token))
    (labelled : ∀ label inner, motive inner → motive (.labelled label inner))
    (unary : ∀ op operand location, motive operand → motive (.unary op operand location))
    (binary : ∀ op left right location, motive left → motive right →
      motive (.binary op left right location))
    (custom : ∀ text location token children, (∀ child ∈ children, motive child) →
      motive (.custom text location token children)) :
    ∀ node, motive node
  | .leaf token => leaf token
  | .atom token => atom token
  | .labelled label inner =>
      labelled label inner (induction leaf atom labelled unary binary custom inner)
  | .unary op operand location =>
      unary op operand location (induction leaf atom labelled unary binary custom operand)
  | .binary op left right location =>
      binary op left right location (induction leaf atom labelled unary binary custom left)
        (induction leaf atom labelled unary binary custom right)
  | .custom text location token children =>
      custom text location token children fun child _ =>
        induction leaf atom labelled unary binary custom child

/-- What brackets show of the node itself: the name of its token, or else its description, without
labels. -/
def head (node : Node) : String :=
  match node.token? with
  | some token => token.name
  | none => node.strip.describe

theorem headsAll_eq_map (nodes : List Node) : headsAll nodes = nodes.map heads := by
  induction nodes with
  | nil => rfl
  | cons node nodes ih => rw [headsAll, ih, List.map_cons]

/-- The outline of the heads of a tree, in terms of what the nodes tell. -/
theorem heads_eq (node : Node) : node.heads = .node node.head (node.children.map heads) := by
  induction node with
  | leaf token => rfl
  | atom token => rfl
  | labelled label inner ih => exact ih
  | unary op operand location ih => rfl
  | binary op left right location ihLeft ihRight => rfl
  | custom text location token children ih =>
      cases token with
      | none =>
          have hhead : (custom text location none children).head = text := String.empty_append
          rw [heads, hhead, headsAll_eq_map]
          rfl
      | some token =>
          rw [heads, headsAll_eq_map]
          rfl

/-- A property of trees that a node inherits from its children holds of every tree. -/
theorem children_induction {motive : Node → Prop}
    (step : ∀ node : Node, (∀ child ∈ node.children, motive child) → motive node) (node : Node) :
    motive node := by
  -- The children of an operator node are labelled, and no part of it: only their heads are.
  induction hshape : node.heads generalizing node with
  | node label outlines ih =>
      refine step node fun child hchild => ih child.heads ?_ child rfl
      rw [heads_eq] at hshape
      injection hshape with hlabel houtlines
      rw [← houtlines]
      exact List.mem_map_of_mem hchild

/-- The property holds at every depth. -/
inductive Every (p : Node → Prop) : Node → Prop
  | intro {node : Node} (hroot : p node) (hchildren : ∀ child ∈ node.children, Every p child) :
      Every p node

/-- The trees look alike at every depth: the roots do, and so do the children, one by one. -/
inductive AgreeOn {α : Type} (view : Node → α) : Node → Node → Prop
  | intro {a b : Node} (hroot : view a = view b)
      (hchildren : List.Forall₂ (AgreeOn view) a.children b.children) : AgreeOn view a b

/-- Relating lists one by one needs only what holds of the members of the first. -/
theorem forall₂_of_mem {α : Type} {R S : α → α → Prop} {before after : List α}
    (hmem : ∀ a ∈ before, ∀ b, R a b → S a b) (hall : List.Forall₂ R before after) :
    List.Forall₂ S before after :=
  ((List.forall₂_and_left before after).mpr ⟨hmem, hall⟩).imp fun _ b hboth => hboth.1 b hboth.2

/-- Trees agree if they are related in some way that shows at the root and goes on to the
children. -/
theorem AgreeOn.of_related {α : Type} {view : Node → α} {R : Node → Node → Prop}
    (hroot : ∀ a b, R a b → view a = view b)
    (hchildren : ∀ a b, R a b → List.Forall₂ R a.children b.children) {a b : Node} (hab : R a b) :
    AgreeOn view a b := by
  induction a using children_induction generalizing b with
  | step a ih =>
      exact .intro (hroot a b hab)
        (forall₂_of_mem (fun child hchild _ => ih child hchild) (hchildren a b hab))

theorem map_eq_map_iff {α : Type} {f : Node → α} {before after : List Node} :
    before.map f = after.map f ↔ List.Forall₂ (fun a b => f a = f b) before after := by
  rw [← List.forall₂_eq_eq_eq, List.forall₂_map_left_iff, List.forall₂_map_right_iff]

/-- The outline of a tree is written from what its nodes show at every depth. -/
def Shows (view : Node → String) (outline : Node → Outline) : Prop :=
  ∀ node, outline node = .node (view node) (node.children.map outline)

namespace Shows

variable {view : Node → String} {outline : Node → Outline} {a b : Node}

theorem eq_iff (hshows : Shows view outline) :
    outline a = outline b ↔ view a = view b ∧
      List.Forall₂ (fun child other => outline child = outline other) a.children b.children := by
  rw [hshows a, hshows b, Outline.node.injEq, map_eq_map_iff]

theorem eq_of_agreeOn (hshows : Shows view outline) (hagree : AgreeOn view a b) :
    outline a = outline b := by
  induction a using children_induction generalizing b with
  | step a ih =>
      obtain ⟨hroot, hchildren⟩ := hagree
      exact hshows.eq_iff.mpr
        ⟨hroot, forall₂_of_mem (fun child hchild _ => ih child hchild) hchildren⟩

/-- Trees have the same outline just when they look alike at every depth. -/
theorem agreeOn_iff (hshows : Shows view outline) : AgreeOn view a b ↔ outline a = outline b :=
  ⟨hshows.eq_of_agreeOn, AgreeOn.of_related (R := fun a b => outline a = outline b)
    (fun _ _ hsame => (hshows.eq_iff.mp hsame).1) fun _ _ hsame => (hshows.eq_iff.mp hsame).2⟩

theorem everyLabel (hshows : Shows view outline) {p : String → Prop}
    (hevery : a.Every fun part => p (view part)) : (outline a).EveryLabel p := by
  induction hevery with
  | @intro node hroot hchildren ih =>
      rw [hshows node]
      refine .intro hroot fun shown hmem => ?_
      obtain ⟨child, hchild, rfl⟩ := List.mem_map.mp hmem
      exact ih child hchild

end Shows

theorem agreeOn_head_iff {a b : Node} : AgreeOn head a b ↔ a.heads = b.heads :=
  Shows.agreeOn_iff heads_eq

end Node

end Precedence
