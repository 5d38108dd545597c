import Precedence.Scanner
import Precedence.Text.Record

/-!
# Recordings

A recording keeps the symbols that a scanner gives.  Any number of readers share it, each with an
index of its own: a reader replays what is recorded and asks the scanner only beyond that.  From
the end of the input on, every reader goes round and round the recorded symbols, the end
included.  Errors are passed on to the reader that met them and are not recorded.
-/

namespace Precedence

structure Recording (σ : Type) where
  source : σ
  symbols : Array Symbol
  /-- Whether the end of the input has been recorded. -/
  replaying : Bool

namespace Recording

def ofScanner {σ : Type} (source : σ) : Recording σ := ⟨source, #[], false⟩

/-- What the reader at `index` is given, and the index it goes on from. -/
def readWith {σ : Type} {m : Type → Type} [Monad m] (read : σ → m (Reading × σ))
    (recording : Recording σ) (index : Nat) : m (Reading × Nat × Recording σ) :=
  match recording.symbols[index]? with
  | some symbol =>
      let wraps := recording.replaying && index + 1 == recording.symbols.size
      pure (.ok symbol, if wraps then 0 else index + 1, recording)
  | none => do
      match ← read recording.source with
      | (.error error, source) => return (.error error, index, { recording with source })
      | (.ok symbol, source) =>
          return (.ok symbol, if symbol.isEof then 0 else index + 1,
            ⟨source, recording.symbols.push symbol, recording.replaying || symbol.isEof⟩)

def next {σ : Type} [Scanner σ] (recording : Recording σ) (index : Nat) :
    Reading × Nat × Recording σ :=
  Id.run (recording.readWith (fun scanner => pure (Scanner.next scanner)) index)

section Next

variable {σ : Type} [Scanner σ] {recording : Recording σ} {index : Nat}

theorem next_of_recorded {symbol : Symbol} (hrecorded : recording.symbols[index]? = some symbol) :
    recording.next index = (.ok symbol,
      if recording.replaying && index + 1 == recording.symbols.size then 0 else index + 1,
      recording) := by
  rw [next, readWith, hrecorded]
  rfl

theorem next_of_error {error : Error} {source : σ} (hunrecorded : recording.symbols[index]? = none)
    (hread : Scanner.next recording.source = (.error error, source)) :
    recording.next index = (.error error, index, { recording with source }) := by
  rw [next, readWith, hunrecorded, hread]
  rfl

theorem next_of_symbol {symbol : Symbol} {source : σ}
    (hunrecorded : recording.symbols[index]? = none)
    (hread : Scanner.next recording.source = (.ok symbol, source)) :
    recording.next index = (.ok symbol, if symbol.isEof then 0 else index + 1,
      ⟨source, recording.symbols.push symbol, recording.replaying || symbol.isEof⟩) := by
  rw [next, readWith, hunrecorded, hread]
  rfl

end Next

/-- A reader at `index`, as diagnostics show it. -/
def inspect {σ : Type} (recording : Recording σ) (index : Nat) : String :=
  Text.record "MemoizingScanner" [("recorded", toString recording.symbols.size),
    ("replaying", Text.truth recording.replaying), ("index", toString index)]

end Recording

end Precedence
