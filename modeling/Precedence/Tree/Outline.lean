/-!
# Outlines

An outline is an ordered tree with a line of text at every node.  It is all that a drawing of a
syntax tree shows, and it can be written in brackets or drawn one node per line.
-/

namespace Precedence

inductive Outline
  | node (label : String) (children : List Outline)

/-- The pieces that lines of a drawn tree are made of. -/
structure Glyphs where
  /-- Before the root. -/
  start : String
  /-- Before the last child of a node. -/
  last : String
  /-- Before every other child. -/
  branch : String
  /-- Carries the line of a later sibling past the descendants of an earlier one. -/
  skip : String
  /-- Between any of these and the label. -/
  into : String
  deriving DecidableEq

namespace Glyphs

def ascii : Glyphs := ⟨"+", "`", "|", "|", "-"⟩

def rounded : Glyphs := ⟨"╭", "╰", "├", "│", "─"⟩

def square : Glyphs := ⟨"┌", "└", "├", "│", "─"⟩

end Glyphs

namespace Outline

def label : Outline → String
  | .node label _ => label

def children : Outline → List Outline
  | .node _ children => children

mutual

/-- Writes an outline after `text`: a node without children is its label, and any other is
written `(label child …)`. -/
def bracketOnto (text : String) : Outline → String
  | .node label [] => text ++ label
  | .node label (child :: rest) => bracketAllOnto (text ++ "(" ++ label) (child :: rest) ++ ")"

def bracketAllOnto (text : String) : List Outline → String
  | [] => text
  | outline :: rest => bracketAllOnto (bracketOnto (text ++ " ") outline) rest

end

def bracketed (outline : Outline) : String := outline.bracketOnto ""

mutual

/-- The lines below a node, given the columns that its ancestors occupy. -/
def linesBelow (glyphs : Glyphs) (indent : String) : Outline → List String
  | .node _ children => branchLines glyphs indent children

def branchLines (glyphs : Glyphs) (indent : String) : List Outline → List String
  | [] => []
  | [.node label children] =>
      (indent ++ glyphs.last ++ glyphs.into ++ " " ++ label) ::
        branchLines glyphs (indent ++ "  ") children
  | .node label children :: sibling :: rest =>
      (indent ++ glyphs.branch ++ glyphs.into ++ " " ++ label) ::
        (branchLines glyphs (indent ++ glyphs.skip ++ " ") children ++
          branchLines glyphs indent (sibling :: rest))

end

/-- One line per node, each node before its children. -/
def lines (glyphs : Glyphs) (outline : Outline) : List String :=
  (glyphs.start ++ glyphs.into ++ " " ++ outline.label) :: outline.linesBelow glyphs ""

def drawn (glyphs : Glyphs) (outline : Outline) : String :=
  String.join ((outline.lines glyphs).map (·.push '\n'))

end Outline

end Precedence
