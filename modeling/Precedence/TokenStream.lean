import Precedence.Token

/-!
# Token streams

A token stream gives tokens until it gives none.  From then on it is exhausted, and nothing is
assumed about what it would give if it were asked again.
-/

namespace Precedence

class TokenStream (τ : Type) where
  next : τ → Option Token × τ

/-- What the next `n` calls give. -/
def TokenStream.take {τ : Type} [TokenStream τ] : Nat → τ → List (Option Token) × τ
  | 0, stream => ([], stream)
  | n + 1, stream =>
      let (token, stream) := next stream
      let (tokens, stream) := take n stream
      (token :: tokens, stream)

/-- Prepared tokens in order. -/
structure TokenList where
  tokens : List Token

namespace TokenList

def remaining (stream : TokenList) : Nat := stream.tokens.length

def next (stream : TokenList) : Option Token × TokenList :=
  (stream.tokens.head?, ⟨stream.tokens.tail⟩)

instance : TokenStream TokenList := ⟨next⟩

end TokenList

end Precedence
