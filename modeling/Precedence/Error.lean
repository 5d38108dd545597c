import Precedence.Location

/-!
# Errors

What can go wrong anywhere in the front end.  An error may be wrapped with the place where it
happened, and a failure that a grammar raises may name another error as its cause; the location
of an error is the innermost one along that chain, and `Error.place` adds one only where the chain
has none.
-/

namespace Precedence

inductive Error
  /-- Spans of different sources cannot be joined. -/
  | splitLocation
  | badEncoding
  /-- The input ended where an operand was needed. -/
  | expectedToken
  /-- The parse table does not know the kind of the token. -/
  | unknownTokenType (kind : String)
  /-- The parse table knows the kind, but not in this position. -/
  | unexpectedToken (kind : String)
  | noTable
  /-- Reading the source failed. -/
  | io (message : String)
  | located (location : Location) (source : Error)
  /-- A failure raised by a grammar. -/
  | custom (text : String)
  | caused (text : String) (cause : Error)
  deriving DecidableEq, Inhabited

namespace Error

/-- The innermost location along the chain of wrappers and causes. -/
def location? : Error → Option Location
  | .located location source => source.location?.or (some location)
  | .caused _ cause => cause.location?
  | _ => none

/-- Wraps the error with a location, unless there is none to add or the chain has one. -/
def place (error : Error) (location : Option Location) : Error :=
  match location, error.location? with
  | some location, none => .located location error
  | _, _ => error

/-- The error without its outer location wrappers. -/
def root : Error → Error
  | .located _ source => source.root
  | error => error

def isIo (error : Error) : Bool :=
  match error.root with
  | .io _ => true
  | _ => false

def isLocated : Error → Bool
  | .located _ _ => true
  | _ => false

def message : Error → String
  | .splitLocation => "location spans differing sources"
  | .badEncoding => "bad encoding"
  | .expectedToken => "expected token"
  | .unknownTokenType kind => "unknown token type " ++ Text.quoted kind
  | .unexpectedToken kind => "unexpected " ++ Text.quoted kind ++ " token"
  | .noTable => "no parse table"
  | .io message => message
  | .located location source => location.describe ++ ": " ++ source.message
  | .custom text => text
  | .caused text _ => text

end Error

namespace Location

def thru (first second : Location) : Except Error Location :=
  match first.thru? second with
  | some location => .ok location
  | none => .error .splitLocation

def thruEnd (first second : Location) : Except Error Location :=
  match first.thruEnd? second with
  | some location => .ok location
  | none => .error .splitLocation

/-- Joins two optional locations; a missing one leaves the whole without a location. -/
def span : Option Location → Option Location → Except Error (Option Location)
  | some first, some last => some <$> first.thruEnd last
  | _, _ => .ok none

end Location

end Precedence
