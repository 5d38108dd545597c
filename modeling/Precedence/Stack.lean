import Precedence.Text.Record

/-!
# Context stacks

Every context that a grammar can enter and leave (lexical modes, parse tables, token streams,
application state) is kept on a `Stack`.  Its view is `items`, the item on top first.
-/

universe u

namespace Precedence

structure Stack (α : Type u) where
  items : List α
  deriving DecidableEq

namespace Stack

variable {α : Type u}

def empty : Stack α := ⟨[]⟩

def singleton (item : α) : Stack α := ⟨[item]⟩

/-- The items are pushed in order, so the last one ends up on top. -/
def ofList (items : List α) : Stack α := ⟨items.reverse⟩

def size (stack : Stack α) : Nat := stack.items.length

def isEmpty (stack : Stack α) : Bool := stack.items.isEmpty

def top? (stack : Stack α) : Option α := stack.items.head?

def push (item : α) (stack : Stack α) : Stack α := ⟨item :: stack.items⟩

def pop (stack : Stack α) : Option α × Stack α := (stack.items.head?, ⟨stack.items.tail⟩)

/-- Replaces the top item and returns it; on an empty stack `item` becomes the only one. -/
def set (item : α) (stack : Stack α) : Option α × Stack α :=
  (stack.items.head?, ⟨item :: stack.items.tail⟩)

def modifyTop (f : α → α) (stack : Stack α) : Stack α :=
  match stack.items with
  | [] => stack
  | item :: rest => ⟨f item :: rest⟩

/-- The stack as diagnostics show it, the bottom first. -/
def inspect (ofItem : α → String) (stack : Stack α) : String :=
  Text.record "Stack" [("items", Text.listing (stack.items.reverse.map ofItem))]

@[simp] theorem items_empty : (empty : Stack α).items = [] := rfl

@[simp] theorem items_singleton (item : α) : (singleton item).items = [item] := rfl

@[simp] theorem items_ofList (items : List α) : (ofList items).items = items.reverse := rfl

@[simp] theorem items_push (item : α) (stack : Stack α) :
    (stack.push item).items = item :: stack.items := rfl

@[simp] theorem items_pop (stack : Stack α) : stack.pop.2.items = stack.items.tail := rfl

@[simp] theorem items_set (item : α) (stack : Stack α) :
    (stack.set item).2.items = item :: stack.items.tail := rfl

end Stack

end Precedence
