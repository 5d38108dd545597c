/-!
# Records on one line

The layout in which diagnostics show a value with its fields.
-/

namespace Precedence.Text

private def fieldsText (fields : List (String × String)) : String :=
  ", ".intercalate (fields.map fun field => field.1 ++ ": " ++ field.2)

def record (name : String) (fields : List (String × String)) : String :=
  name ++ " \x7b " ++ fieldsText fields ++ " \x7d"

/-- A record that shows only some of its fields. -/
def openRecord (name : String) (fields : List (String × String)) : String :=
  name ++ " \x7b " ++ fieldsText fields ++ ", .. \x7d"

def listing (items : List String) : String :=
  "[" ++ ", ".intercalate items ++ "]"

def optional : Option String → String
  | none => "None"
  | some text => "Some(" ++ text ++ ")"

def truth (b : Bool) : String := if b then "true" else "false"

end Precedence.Text
