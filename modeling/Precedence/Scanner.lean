import Precedence.Symbol

/-!
# Scanners

A scanner gives one reading at a time and the scanner to ask for the next one.  Scanners are
assumed to give an end of input, if they ever do, as a symbol like any other: who reads past it
is the caller's business.
-/

namespace Precedence

class Scanner (σ : Type) where
  next : σ → Reading × σ

/-- The next `n` readings. -/
def Scanner.take {σ : Type} [Scanner σ] : Nat → σ → List Reading × σ
  | 0, scanner => ([], scanner)
  | n + 1, scanner =>
      let (reading, scanner) := next scanner
      let (readings, scanner) := take n scanner
      (reading :: readings, scanner)

/-- Prepared readings in order, then an end without a place for ever. -/
structure Playback where
  readings : List Reading

namespace Playback

def next : Playback → Reading × Playback
  | ⟨[]⟩ => (.ok .eof, ⟨[]⟩)
  | ⟨reading :: rest⟩ => (reading, ⟨rest⟩)

instance : Scanner Playback := ⟨next⟩

end Playback

end Precedence
