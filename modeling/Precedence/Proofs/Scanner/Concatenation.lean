import Precedence.Proofs.Scanner.Transcript
import Precedence.Scanner.Chain

/-!
# Chains as concatenations

A scanner that has been read to its end has given some readings, none of them an end, and then the
end.  A chain of scanners gives the readings of each of them in turn, and then the last end for
ever.  The scanners of a chain may share a state: what the state is at the end of one scanner is
what the next one starts with.
-/

namespace Precedence

variable {σ S : Type} (read : σ → StateM S (Reading × σ))

/-- Read to its end, a scanner gives these readings and this end, and turns one shared state into
another. -/
inductive Drains : σ → S → List Reading → Symbol → S → Prop
  | done {part part' : σ} {state state' : S} {symbol : Symbol}
      (hread : read part state = ((.ok symbol, part'), state')) (hend : symbol.isEof = true) :
      Drains part state [] symbol state'
  | reading {part part' : σ} {state state' last : S} {reading : Reading} {readings : List Reading}
      {symbol : Symbol} (hread : read part state = ((reading, part'), state'))
      (hopen : reading.isEof = false) (hrest : Drains part' state' readings symbol last) :
      Drains part state (reading :: readings) symbol last

/-- Some scanners, each read to its end in turn.  The end is that of the last one, or the one at
hand if there is none. -/
inductive DrainsAll : List σ → Symbol → S → List Reading → Symbol → Prop
  | nil {symbol : Symbol} {state : S} : DrainsAll [] symbol state [] symbol
  | cons {part : σ} {parts : List σ} {before symbol last : Symbol} {state state' : S}
      {readings later : List Reading} (hpart : Drains read part state readings symbol state')
      (hparts : DrainsAll parts symbol state' later last) :
      DrainsAll (part :: parts) before state (readings ++ later) last

namespace Chain

variable {read}

theorem readFrom_nil (spent : Nat) (last : Symbol) (state : S) :
    readFrom read spent last [] state = ((.ok last, ⟨spent, [], last⟩), state) := rfl

theorem readFrom_of_end {part part' : σ} {parts : List σ} {spent : Nat} {last symbol : Symbol}
    {state state' : S} (hread : read part state = ((.ok symbol, part'), state'))
    (hend : symbol.isEof = true) :
    readFrom read spent last (part :: parts) state =
      readFrom read (spent + 1) symbol parts state' := by
  simp only [readFrom, bind, StateT.bind, hread, hend]
  rfl

theorem readFrom_of_open {part part' : σ} {parts : List σ} {spent : Nat} {last : Symbol}
    {state state' : S} {reading : Reading} (hread : read part state = ((reading, part'), state'))
    (hopen : reading.isEof = false) :
    readFrom read spent last (part :: parts) state =
      ((reading, ⟨spent, part' :: parts, last⟩), state') := by
  simp only [readFrom, bind, StateT.bind, hread]
  cases reading with
  | error error => rfl
  | ok symbol =>
      have hsymbol : symbol.isEof = false := hopen
      simp only [hsymbol]
      rfl

end Chain

variable {read}

/-- A scanner of its own, which leaves the shared state alone. -/
theorem Drains.of_transcript {τ : Type} [Scanner τ] {wrap : τ → σ}
    (hwrap : ∀ source state, read (wrap source) state =
      (((Scanner.next source).1, wrap (Scanner.next source).2), state))
    {readings : List Reading} {symbol : Symbol}
    (hopen : ∀ reading ∈ readings, reading.isEof = false) (hend : symbol.isEof = true) {source : τ}
    (htranscript : ∀ n, Scanner.transcript source n = readings[n]?.getD (.ok symbol)) (state : S) :
    Drains read (wrap source) state readings symbol state := by
  have hread := hwrap source state
  have hfirst : (Scanner.next source).1 = readings[0]?.getD (.ok symbol) := htranscript 0
  rw [hfirst] at hread
  induction readings generalizing source with
  | nil => exact .done hread hend
  | cons reading readings ih =>
      obtain ⟨hreading, hopen⟩ := List.forall_mem_cons.mp hopen
      have hrest : ∀ n, Scanner.transcript (Scanner.next source).2 n =
          readings[n]?.getD (.ok symbol) := fun n => htranscript (n + 1)
      refine .reading hread hreading (ih hopen hrest ?_ (hrest 0))
      rw [hwrap, ← hrest 0]
      rfl

/-- One call of a chain gives the first reading that is left, or the last end. -/
theorem DrainsAll.readFrom {parts : List σ} {before last : Symbol} {state : S}
    {readings : List Reading} (hparts : DrainsAll read parts before state readings last)
    (spent : Nat) :
    ∃ chain state', Chain.readFrom read spent before parts state =
        ((readings.headD (.ok last), chain), state') ∧
      DrainsAll read chain.waiting chain.last state' readings.tail last := by
  induction hparts generalizing spent with
  | nil => exact ⟨_, _, Chain.readFrom_nil _ _ _, .nil⟩
  | cons hpart hparts ih =>
      cases hpart with
      | done hread hend =>
          rw [Chain.readFrom_of_end hread hend]
          exact ih _
      | reading hread hopen hrest =>
          exact ⟨_, _, Chain.readFrom_of_open hread hopen, .cons hrest hparts⟩

/-- Scanners with a separator between each two.  The separator need not be read alike each time,
but it must give the same, the first time and every later one. -/
theorem DrainsAll.intersperse {ι : Type} {part : ι → σ} {readings : ι → List Reading}
    {close : ι → Symbol} {separator : σ} {gap : List Reading} {closeOfGap : Symbol}
    (items : List ι)
    (hparts : ∀ item ∈ items, ∀ state,
      Drains read (part item) state (readings item) (close item) state)
    {state : S} (hseparator : ∃ state', Drains read separator state gap closeOfGap state' ∧
      Drains read separator state' gap closeOfGap state') (before : Symbol) :
    DrainsAll read ((items.map part).intersperse separator) before state
      ((items.map readings).intersperse gap).flatten ((items.map close).getLast?.getD before) := by
  induction items generalizing state before with
  | nil => exact .nil
  | cons item items ih =>
      obtain ⟨hpart, hparts⟩ := List.forall_mem_cons.mp hparts
      cases items with
      | nil => exact .cons (hpart state) .nil
      | cons next items =>
          obtain ⟨state', hfirst, hlater⟩ := hseparator
          have hrest := ih hparts ⟨state', hlater, hlater⟩ closeOfGap
          have hall : DrainsAll read _ before _ _ _ := .cons (hpart state) (.cons hfirst hrest)
          simpa [List.getLast?_cons] using hall

end Precedence
