import Precedence.Scanner

/-!
# Chains of scanners

A chain reads its scanners to their ends one after the other.  Only the last end is given, and
it is given for ever; an error does not move the chain on.  How one scanner is read is a
parameter, so that the scanners of a chain may share state.
-/

namespace Precedence

structure Chain (σ : Type) where
  /-- How many scanners have been read to their ends. -/
  spent : Nat
  waiting : List σ
  /-- The last end that was read. -/
  last : Symbol

namespace Chain

def ofList {σ : Type} (scanners : List σ) : Chain σ := ⟨0, scanners, .eof⟩

def size {σ : Type} (chain : Chain σ) : Nat := chain.spent + chain.waiting.length

def push {σ : Type} (scanner : σ) (chain : Chain σ) : Chain σ :=
  { chain with waiting := chain.waiting ++ [scanner] }

def map {σ τ : Type} (f : σ → τ) (chain : Chain σ) : Chain τ :=
  ⟨chain.spent, chain.waiting.map f, chain.last⟩

section Reading

variable {σ : Type} {m : Type → Type} [Monad m] (read : σ → m (Reading × σ))

/-- Reads from the first of the waiting scanners that has not ended. -/
def readFrom (spent : Nat) (last : Symbol) : List σ → m (Reading × Chain σ)
  | [] => pure (.ok last, ⟨spent, [], last⟩)
  | scanner :: rest => do
      match ← read scanner with
      | (.error error, scanner) => return (.error error, ⟨spent, scanner :: rest, last⟩)
      | (.ok symbol, scanner) =>
          if symbol.isEof then readFrom (spent + 1) symbol rest
          else return (.ok symbol, ⟨spent, scanner :: rest, last⟩)

def readWith (chain : Chain σ) : m (Reading × Chain σ) :=
  readFrom read chain.spent chain.last chain.waiting

end Reading

def next {σ : Type} [Scanner σ] (chain : Chain σ) : Reading × Chain σ :=
  Id.run (chain.readWith fun scanner => pure (Scanner.next scanner))

instance {σ : Type} [Scanner σ] : Scanner (Chain σ) := ⟨next⟩

end Chain

end Precedence
