import Precedence.TokenStream

/-!
# Push-back

Tokens that are pushed back come before anything else of the stream, the latest first.  The
stream itself is not asked again once it has given no token.
-/

namespace Precedence

structure PushBack (τ : Type) where
  source : τ
  pushed : List Token
  exhausted : Bool

namespace PushBack

variable {τ : Type}

def ofStream (source : τ) : PushBack τ := ⟨source, [], false⟩

def push (token : Token) (stream : PushBack τ) : PushBack τ :=
  { stream with pushed := token :: stream.pushed }

def next [TokenStream τ] (stream : PushBack τ) : Option Token × PushBack τ :=
  match stream.pushed with
  | token :: pushed => (some token, { stream with pushed })
  | [] =>
      if stream.exhausted then (none, stream)
      else
        let (token, source) := TokenStream.next stream.source
        (token, ⟨source, [], token.isNone⟩)

instance [TokenStream τ] : TokenStream (PushBack τ) := ⟨next⟩

end PushBack

end Precedence
