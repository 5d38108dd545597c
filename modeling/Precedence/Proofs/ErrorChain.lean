import Precedence.Error

/-!
# Where an error lies

An error may be wrapped with places and be named as the cause of another one, to any depth, and it
lies at the deepest place of that chain.  Placing it any number of times, as the callers it passes
through do, wraps it at most once: with the first place that is there, and only if the chain has
none.  What went wrong stays the same.
-/

namespace Precedence.Error

/-- The error, what it wraps or names as its cause, and so on down to the last cause. -/
def chain : Error → List Error
  | .located location source => .located location source :: source.chain
  | .caused text cause => .caused text cause :: cause.chain
  | error => [error]

/-- The place that the error itself puts before another one. -/
def wrapper? : Error → Option Location
  | .located location _ => some location
  | _ => none

/-- What the message of an error begins with that is wrapped with a place. -/
def heading : Option Location → String
  | some location => location.describe ++ ": "
  | none => ""

/-- The deepest place wins, whether wrappers or causes are around it. -/
theorem location?_eq_getLast? (error : Error) :
    error.location? = (error.chain.filterMap wrapper?).getLast? := by
  induction error with
  | located location source ih =>
      have hwrapper : (located location source).wrapper? = some location := rfl
      rw [location?, ih, chain, List.filterMap_cons_some hwrapper, List.getLast?_cons]
      cases (source.chain.filterMap wrapper?).getLast? <;> rfl
  | caused text cause ih => exact ih
  | _ => rfl

variable {error : Error}

theorem place_of_isSome (hlocation : error.location?.isSome = true) (place : Option Location) :
    error.place place = error := by
  obtain ⟨location, hlocation⟩ := Option.isSome_iff_exists.mp hlocation
  cases place with
  | none => rfl
  | some other => simp only [Error.place, hlocation]

theorem place_of_none (hlocation : error.location? = none) (location : Location) :
    error.place (some location) = .located location error := by
  simp only [place, hlocation]

theorem location?_place (error : Error) (place : Option Location) :
    (error.place place).location? = error.location?.or place := by
  cases hlocation : error.location? with
  | some location =>
      rw [place_of_isSome (hlocation ▸ rfl), hlocation]
      rfl
  | none =>
      cases place with
      | none => exact hlocation
      | some other => rw [place_of_none hlocation, location?, hlocation]

theorem root_place (error : Error) (place : Option Location) :
    (error.place place).root = error.root := by
  cases hlocation : error.location? with
  | some location => rw [place_of_isSome (hlocation ▸ rfl)]
  | none =>
      cases place with
      | none => rfl
      | some other => rw [place_of_none hlocation, root]

/-- Of two places for an error only the first one that is there is used. -/
theorem place_place (error : Error) (place other : Option Location) :
    (error.place place).place other = error.place (place.or other) := by
  cases place with
  | none => rfl
  | some location =>
      have hplaced : (error.place (some location)).location?.isSome = true := by
        rw [location?_place, Option.isSome_or, Option.isSome_some, Bool.or_true]
      exact place_of_isSome hplaced other

/-- Placing an error again and again is placing it once. -/
theorem foldl_place (error : Error) (places : List (Option Location)) :
    places.foldl place error = error.place (places.findSome? id) := by
  induction places generalizing error with
  | nil => rfl
  | cons place places ih =>
      rw [List.foldl_cons, ih, place_place, List.findSome?_cons]
      cases place <;> rfl

/-- However often an error is placed, it is wrapped once at most: if nothing in its chain has a
place, and then with the first place that is there.  After that, or if its chain has a place, no
further one changes anything.  Its root stays, and its message gets at most one heading. -/
theorem placed_once (error : Error) (places : List (Option Location)) :
    error.location? = (error.chain.filterMap wrapper?).getLast? ∧
    (∀ location, error.location? = some location → places.foldl place error = error) ∧
    (error.location? = none → places.foldl place error =
      match places.findSome? id with
      | some location => .located location error
      | none => error) ∧
    (∀ more, (places.foldl place error).location?.isSome = true →
      (places ++ more).foldl place error = places.foldl place error) ∧
    (places.foldl place error).root = error.root ∧
    (places.foldl place error).location? = error.location?.or (places.findSome? id) ∧
    (places.foldl place error).message =
      heading (if error.location? = none then places.findSome? id else none) ++ error.message := by
  have hplaced : error.location? = none → places.foldl place error =
      match places.findSome? id with
      | some location => .located location error
      | none => error := by
    intro hlocation
    rw [foldl_place]
    cases places.findSome? id with
    | none => rfl
    | some location => exact place_of_none hlocation location
  refine ⟨error.location?_eq_getLast?, ?_, hplaced, ?_, ?_, ?_, ?_⟩
  · intro location hlocation
    rw [foldl_place, place_of_isSome (hlocation ▸ rfl)]
  · intro more hsome
    rw [List.foldl_append, foldl_place (places.foldl place error), place_of_isSome hsome]
  · rw [foldl_place, root_place]
  · rw [foldl_place, location?_place]
  · cases hlocation : error.location? with
    | some location =>
        rw [foldl_place, place_of_isSome (hlocation ▸ rfl), if_neg nofun]
        exact String.empty_append.symm
    | none =>
        rw [hplaced hlocation, if_pos rfl]
        cases places.findSome? id with
        | none => exact String.empty_append.symm
        | some location => rfl

end Precedence.Error
