import Mathlib.Data.Seq.Basic
import Precedence.TokenStream

/-!
# The tokens of a stream

The tokens of a stream are those that it gives before its first none.  A stream may give tokens
for ever, so they form a sequence that need not end.
-/

namespace Precedence.TokenStream

variable {τ : Type} [TokenStream τ] {stream rest : τ} {token : Token}

/-- The tokens that a stream gives before it first gives none. -/
def tokens (stream : τ) : Stream'.Seq Token :=
  .corec (fun stream =>
    match next stream with
    | (some token, stream) => some (token, stream)
    | (none, _) => none) stream

theorem tokens_of_some (hnext : next stream = (some token, rest)) :
    tokens stream = .cons token (tokens rest) :=
  Stream'.Seq.corec_cons (by rw [hnext])

theorem tokens_of_none (hnext : next stream = (none, rest)) : tokens stream = .nil :=
  Stream'.Seq.corec_nil _ _ (by rw [hnext])

end Precedence.TokenStream
