import Precedence.Tree

/-!
# Spans within one source

The bundled locations lie in a named file or in the list of arguments.  Spans of one source can
be joined and their join lies in that source, so an operator node whose parts lie in one source
can be built, and lies there too.
-/

namespace Precedence

inductive Source
  | file (name : String)
  | arguments
  deriving DecidableEq

/-- A mark lies in a source of its caller's own. -/
def Location.source? : Location → Option Source
  | .file span => some (.file span.file)
  | .arg _ => some .arguments
  | .mark _ => none

/-- The location lies in the source, if there is one at all. -/
def Source.Holds (source : Source) (location : Option Location) : Prop :=
  ∀ place ∈ location, place.source? = some source

instance (source : Source) (location : Option Location) : Decidable (source.Holds location) :=
  inferInstanceAs (Decidable (∀ place ∈ location, place.source? = some source))

theorem Source.holds_none (source : Source) : source.Holds none := by
  intro place hplace
  cases hplace

variable {source : Source}

theorem Location.thruEnd_of_source {first last : Location}
    (hfirst : first.source? = some source) (hlast : last.source? = some source) :
    ∃ joined, first.thruEnd last = .ok joined ∧ joined.source? = some source := by
  have hsame := hfirst.trans hlast.symm
  cases first with
  | file span =>
      cases last with
      | file span' =>
          have hfile : span.file = span'.file := by simpa [source?] using hsame
          refine ⟨.file ⟨span.file, span.start, span'.stop⟩, ?_, hfirst⟩
          simp [thruEnd, thruEnd?, hfile]
      | arg span' => simp [source?] at hsame
      | mark mark' => cases hlast
  | arg span =>
      cases last with
      | file span' => simp [source?] at hsame
      | arg span' => exact ⟨.arg ⟨span.start, span'.stop⟩, rfl, hfirst⟩
      | mark mark' => cases hlast
  | mark mark => cases hfirst

theorem Location.span_of_holds {first last : Option Location} (hfirst : source.Holds first)
    (hlast : source.Holds last) :
    ∃ joined, Location.span first last = .ok joined ∧ source.Holds joined := by
  cases first with
  | none => exact ⟨none, rfl, source.holds_none⟩
  | some first =>
      cases last with
      | none => exact ⟨none, rfl, source.holds_none⟩
      | some last =>
          obtain ⟨joined, hjoined, hsource⟩ :=
            thruEnd_of_source (hfirst first rfl) (hlast last rfl)
          refine ⟨some joined, ?_, ?_⟩
          · rw [span, hjoined]
            rfl
          · intro place hplace
            cases hplace
            exact hsource

theorem Node.unaryOf_of_holds {op : Token} {operand : Node} (hop : source.Holds op.location)
    (hoperand : source.Holds operand.location?) :
    ∃ node, unaryOf op operand = .ok node ∧ source.Holds node.location? := by
  obtain ⟨joined, hjoined, hsource⟩ := Location.span_of_holds hop hoperand
  refine ⟨.unary op operand joined, ?_, hsource⟩
  rw [unaryOf, hjoined]
  rfl

theorem Node.binaryOf_of_holds (op : Token) {left right : Node}
    (hleft : source.Holds left.location?) (hright : source.Holds right.location?) :
    ∃ node, binaryOf op left right = .ok node ∧ source.Holds node.location? := by
  obtain ⟨joined, hjoined, hsource⟩ := Location.span_of_holds hleft hright
  refine ⟨.binary op left right (if op.location.isSome then joined else none), ?_, ?_⟩
  · rw [binaryOf, hjoined]
    rfl
  · rw [location?]
    split
    · exact hsource
    · exact source.holds_none

end Precedence
