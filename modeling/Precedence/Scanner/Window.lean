import Precedence.Scanner

/-!
# Windows over a scanner

A window keeps readings of a scanner, errors included, so that a reader can go back to them.  The
readings before the cursor are `behind`, the latest first; those after it are `ahead` and are
given again before the scanner is asked for more.  A budget bounds how many are kept, the oldest
going first.  The scanner is dropped when it gives an end, which is then given for ever.
-/

namespace Precedence

inductive Budget
  | unbounded
  | max (n : Nat)
  deriving DecidableEq

/-- A move of the cursor, or of the bounds of what is kept. -/
inductive Motion
  | backtrack
  | rewind (n : Nat)
  | accept (leave : Nat)
  | setBudget (budget : Budget)
  deriving DecidableEq

structure Window (σ : Type) where
  /-- Missing once the scanner has given an end. -/
  source : Option σ
  behind : List Reading
  ahead : List Reading
  budget : Budget
  /-- The end that the scanner gave. -/
  last : Symbol

namespace Window

variable {σ : Type}

def ofScanner (source : σ) (budget : Budget) : Window σ := ⟨some source, [], [], budget, .eof⟩

def size (window : Window σ) : Nat := window.behind.length + window.ahead.length

def isEmpty (window : Window σ) : Bool := window.behind.isEmpty && window.ahead.isEmpty

/-- The index, among the readings kept, of the one before the cursor. -/
def pos? (window : Window σ) : Option Nat :=
  match window.behind with
  | [] => none
  | _ :: older => some older.length

/-- Whether the next reading can be anything but an end. -/
def more (window : Window σ) : Bool :=
  match window.ahead with
  | reading :: _ => !reading.isEof
  | [] => window.source.isSome

/-- Drops the oldest readings until at most `n` are kept. -/
def trim (n : Nat) (window : Window σ) : Window σ :=
  let excess := window.size - n
  { window with
    behind := window.behind.take (window.behind.length - excess)
    ahead := window.ahead.drop (excess - window.behind.length) }

def setBudget (budget : Budget) (window : Window σ) : Window σ :=
  let window := { window with budget }
  match budget with
  | .unbounded => window
  | .max n => window.trim n

/-- Forgets the readings before the cursor, except the last `leave` of them. -/
def accept (leave : Nat) (window : Window σ) : Window σ :=
  { window with behind := window.behind.take leave }

/-- Moves the cursor back by `n` readings, or to the oldest one that is kept. -/
def rewind (n : Nat) (window : Window σ) : Window σ :=
  { window with
    behind := window.behind.drop n
    ahead := (window.behind.take n).reverse ++ window.ahead }

/-- Moves the cursor back to the oldest reading that is kept. -/
def backtrack (window : Window σ) : Window σ :=
  { window with behind := [], ahead := window.behind.reverse ++ window.ahead }

def move : Motion → Window σ → Window σ
  | .backtrack => backtrack
  | .rewind n => rewind n
  | .accept leave => accept leave
  | .setBudget budget => setBudget budget

/-- Keeps a reading just before the cursor, as far as the budget allows. -/
def keep (reading : Reading) (window : Window σ) : Window σ :=
  match window.budget with
  | .unbounded => { window with behind := reading :: window.behind }
  | .max n => { window with behind := (reading :: window.behind).take n }

/-- Drops the scanner if the reading is an end. -/
def latch (reading : Reading) (window : Window σ) : Window σ :=
  match reading with
  | .ok symbol => if symbol.isEof then { window with source := none, last := symbol } else window
  | .error _ => window

theorem last_latch {reading : Reading} (hend : reading.isEof) (window : Window σ) :
    reading = .ok (window.latch reading).last := by
  cases reading with
  | error error => exact absurd hend nofun
  | ok symbol =>
      have hsymbol : symbol.isEof = true := hend
      simp [latch, hsymbol]

theorem latch_eq (reading : Reading) (window : Window σ) :
    window.latch reading = { window with
      source := if reading.isEof then none else window.source
      last := (window.latch reading).last } := by
  cases reading with
  | error error => rfl
  | ok symbol => cases hend : symbol.isEof <;> simp [latch, Reading.isEof, hend]

@[simp] theorem behind_latch (reading : Reading) (window : Window σ) :
    (window.latch reading).behind = window.behind := by rw [latch_eq]

@[simp] theorem ahead_latch (reading : Reading) (window : Window σ) :
    (window.latch reading).ahead = window.ahead := by rw [latch_eq]

@[simp] theorem budget_latch (reading : Reading) (window : Window σ) :
    (window.latch reading).budget = window.budget := by rw [latch_eq]

theorem keep_eq (reading : Reading) (window : Window σ) :
    window.keep reading = { window with behind := (window.keep reading).behind } := by
  rw [keep]
  split <;> rfl

@[simp] theorem source_keep (reading : Reading) (window : Window σ) :
    (window.keep reading).source = window.source := by rw [keep_eq]

@[simp] theorem ahead_keep (reading : Reading) (window : Window σ) :
    (window.keep reading).ahead = window.ahead := by rw [keep_eq]

@[simp] theorem budget_keep (reading : Reading) (window : Window σ) :
    (window.keep reading).budget = window.budget := by rw [keep_eq]

@[simp] theorem last_keep (reading : Reading) (window : Window σ) :
    (window.keep reading).last = window.last := by rw [keep_eq]

variable [Scanner σ]

/-- Asks the scanner itself, past everything that is kept. -/
def readSource (window : Window σ) : Option Reading × Window σ :=
  match window.source with
  | none => (none, window)
  | some source =>
      let (reading, source) := Scanner.next source
      (some reading, { window with source := some source })

def next (window : Window σ) : Reading × Window σ :=
  match window.ahead with
  | reading :: ahead => (reading, { window with behind := reading :: window.behind, ahead })
  | [] =>
      match window.readSource with
      | (none, window) => (.ok window.last, window)
      | (some reading, window) => (reading, (window.latch reading).keep reading)

instance : Scanner (Window σ) := ⟨next⟩

end Window

end Precedence
