/-
# Coefficients by key

A `TermMap` gives some keys a coefficient each. Adding to a key that has no
coefficient yet starts from zero, and no key is ever removed, so that a
coefficient may be zero. The keys have an order, that of their first addition,
which carries no meaning: `TermMap.Same` disregards it.

Key definitions: `TermMap`, `TermMap.get?`, `TermMap.add`, `TermMap.addAll`,
`TermMap.map`, `TermMap.Same`, `TermMap.sorted`.
Key theorems: `TermMap.keys_add`.
-/
import QuadOpt.Scalar

namespace QuadOpt

/-- A coefficient for each of finitely many keys. -/
structure TermMap (κ α : Type) where
  toList : List (κ × α)
  nodup : (toList.map Prod.fst).Nodup

namespace TermMap

variable {κ α : Type} [DecidableEq κ]

/-- The map without keys. -/
def empty : TermMap κ α := ⟨[], List.nodup_nil⟩

instance : Inhabited (TermMap κ α) := ⟨empty⟩

/-- The keys with a coefficient. -/
def keys (t : TermMap κ α) : List κ := t.toList.map Prod.fst

/-- The number of keys. -/
def size (t : TermMap κ α) : Nat := t.toList.length

/-- The coefficient of `k`, if it has one. -/
def get? (t : TermMap κ α) (k : κ) : Option α := t.toList.lookup k

/-- Adds `c` to the coefficient of `k` in a list of terms. -/
def addToList [Zero α] [Add α] (k : κ) (c : α) : List (κ × α) → List (κ × α)
  | [] => [(k, 0 + c)]
  | e :: es => if e.1 = k then (e.1, e.2 + c) :: es else e :: addToList k c es

theorem keys_addToList [Zero α] [Add α] (k : κ) (c : α) (es : List (κ × α)) :
    (addToList k c es).map Prod.fst =
      if k ∈ es.map Prod.fst then es.map Prod.fst else es.map Prod.fst ++ [k] := by
  induction es with
  | nil => simp [addToList]
  | cons e es ih =>
    by_cases h : e.1 = k
    · simp [addToList, h]
    · have h' : ¬k = e.1 := fun hk => h hk.symm
      simp only [addToList, h, if_false, List.map_cons, ih, List.mem_cons, h', false_or]
      split <;> simp

/-- Adds `c` to the coefficient of `k`. -/
def add [Zero α] [Add α] (t : TermMap κ α) (k : κ) (c : α) : TermMap κ α where
  toList := addToList k c t.toList
  nodup := by
    rw [keys_addToList]
    split
    · exact t.nodup
    · rename_i h
      exact List.nodup_append.mpr ⟨t.nodup, by simp,
        fun a ha b hb hab => h (by rw [← List.mem_singleton.mp hb, ← hab]; exact ha)⟩

/-- A new key comes last. -/
theorem keys_add [Zero α] [Add α] (t : TermMap κ α) (k : κ) (c : α) :
    (t.add k c).keys = if k ∈ t.keys then t.keys else t.keys ++ [k] :=
  keys_addToList k c t.toList

/-- Adds several terms, one after the other. -/
def addList [Zero α] [Add α] (t : TermMap κ α) (es : List (κ × α)) : TermMap κ α :=
  es.foldl (fun t e => t.add e.1 e.2) t

/-- Adds all terms of another map. -/
def addAll [Zero α] [Add α] (t s : TermMap κ α) : TermMap κ α := t.addList s.toList

/-- Applies a function to each coefficient. -/
def map (t : TermMap κ α) (f : α → α) : TermMap κ α where
  toList := t.toList.map fun e => (e.1, f e.2)
  nodup := by
    have h : (t.toList.map fun e => (e.1, f e.2)).map Prod.fst = t.toList.map Prod.fst := by
      simp
    rw [h]
    exact t.nodup

/-- The terms in the order of their keys. -/
def sorted (t : TermMap κ α) (le : κ → κ → Bool) : List (κ × α) :=
  t.toList.mergeSort fun a b => le a.1 b.1

/-- The same keys with equal coefficients, in any order. A coefficient that is
not a number equals none. -/
def beq [BEq α] (t s : TermMap κ α) : Bool :=
  t.size == s.size && t.toList.all fun e => (s.get? e.1).any (e.2 == ·)

instance [BEq α] : BEq (TermMap κ α) := ⟨beq⟩

/-- The same terms, in any order. -/
def Same (t s : TermMap κ α) : Prop := t.toList.Perm s.toList

end TermMap
end QuadOpt
