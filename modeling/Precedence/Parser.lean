import Precedence.Stack
import Precedence.TokenStream
import Precedence.Text.Record

/-!
# The state of a parser

A parser takes its tokens from one list: first those pushed back, the latest first, then those of
the streams on its stream stack from the top down, each up to where it first gives none.  It also
keeps the last token it took, the stack of the names of parse tables, and a stack of the
grammar's own state.
-/

namespace Precedence

structure Parser (A T τ : Type) where
  app : Stack A
  tables : Stack T
  streams : Stack τ
  pushed : Stack Token
  /-- What the last call of `nextToken` gave. -/
  current : Option Token

namespace Parser

variable {A T τ : Type}

def new (table : T) (source : τ) : Parser A T τ :=
  ⟨.empty, .singleton table, .singleton source, .empty, none⟩

/-- Takes a token from the first stream that has one and drops the streams before it. -/
def pull [TokenStream τ] : List τ → Option Token × List τ
  | [] => (none, [])
  | stream :: rest =>
      match TokenStream.next stream with
      | (some token, stream) => (some token, stream :: rest)
      | (none, _) => pull rest

def nextToken [TokenStream τ] (parser : Parser A T τ) : Option Token × Parser A T τ :=
  match parser.pushed.items with
  | token :: pushed => (some token, { parser with pushed := ⟨pushed⟩, current := some token })
  | [] =>
      let (token, streams) := pull parser.streams.items
      (token, { parser with streams := ⟨streams⟩, current := token })

def pushBack (token : Token) (parser : Parser A T τ) : Parser A T τ :=
  { parser with pushed := parser.pushed.push token }

def currentLocation (parser : Parser A T τ) : Option Location :=
  parser.current.bind Token.location

def pushTable (table : T) (parser : Parser A T τ) : Parser A T τ :=
  { parser with tables := parser.tables.push table }

def popTable (parser : Parser A T τ) : Option T × Parser A T τ :=
  let (table, tables) := parser.tables.pop
  (table, { parser with tables })

def setTable (table : T) (parser : Parser A T τ) : Option T × Parser A T τ :=
  let (displaced, tables) := parser.tables.set table
  (displaced, { parser with tables })

def pushStream (stream : τ) (parser : Parser A T τ) : Parser A T τ :=
  { parser with streams := parser.streams.push stream }

def popStream (parser : Parser A T τ) : Option τ × Parser A T τ :=
  let (stream, streams) := parser.streams.pop
  (stream, { parser with streams })

def setStream (stream : τ) (parser : Parser A T τ) : Option τ × Parser A T τ :=
  let (displaced, streams) := parser.streams.set stream
  (displaced, { parser with streams })

def inspect (parser : Parser A T τ) : String :=
  Text.openRecord "Parser" [("tables", toString parser.tables.size),
    ("streams", toString parser.streams.size), ("pushed", toString parser.pushed.size),
    ("current", Text.optional (parser.current.map Token.inspect))]

end Parser

end Precedence
