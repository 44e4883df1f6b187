/-
# Placing items in an array

Several lists share one array, in which each of them has its own stretch. Items
are placed in their lists by cursors, one for each list, that start where the
list starts and move on with every item; where each item went is recorded, so
that the item can be overwritten later. Positions outside of the arrays are
refused.

Key definitions: `alter?`, `alterAll?`, `overwrite?`, `slice?`, `tally?`,
`Placement.place?`, `distribute?`.
-/
import QuadOpt.Vec

namespace QuadOpt

variable {β : Type}

/-- Changes the element at a position. -/
def alter? (a : Array β) (i : Nat) (f : β → β) : Option (Array β) :=
  if h : i < a.size then some (a.set i (f a[i]) h) else none

/-- Changes elements one after the other. -/
def alterAll? (a : Array β) (changes : List (Nat × (β → β))) : Option (Array β) :=
  changes.foldlM (fun a c => alter? a c.1 c.2) a

/-- Overwrites elements one after the other. -/
def overwrite? (a : Array β) (writes : List (Nat × β)) : Option (Array β) :=
  alterAll? a (writes.map fun e => (e.1, fun _ => e.2))

/-- The elements from position `s` to before position `t`. -/
def slice? (a : Array β) (s t : Nat) : Option (List β) :=
  if s ≤ t ∧ t ≤ a.size then some (a.extract s t).toList else none

/-- How many items have each of the keys `0 … n - 1`. An item with another key is
refused. -/
def tally? (n : Nat) (keys : List Nat) : Option (Array Nat) :=
  alterAll? (Array.replicate n 0) (keys.map fun k => (k, (· + 1)))

/-- Items that are being placed. -/
structure Placement (β : Type) where
  /-- where the next item of each list goes -/
  next : Array Nat
  /-- the array that the lists share -/
  cells : Array β
  /-- where each item went, in the order in which they were placed -/
  places : Array Nat

/-- Places an item in the list with the given key. -/
def Placement.place? (s : Placement β) (e : Nat × β) : Option (Placement β) := do
  let place ← s.next[e.1]?
  let cells ← alter? s.cells place fun _ => e.2
  let next ← alter? s.next e.1 (· + 1)
  return ⟨next, cells, s.places.push place⟩

/-- Places items, each with the key of its list, with the cursors where they are. -/
def distribute? (next : Array Nat) (cells : Array β) (items : List (Nat × β)) :
    Option (Placement β) :=
  items.foldlM Placement.place? ⟨next, cells, #[]⟩

end QuadOpt
