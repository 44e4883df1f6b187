/-
# Norms and scalings

The infinity norms of rows and columns, and the scaling of a matrix from both
sides. A norm is taken on top of what a vector already holds, so that the
columns of stacked matrices can be measured one block at a time.

Key definitions: `Csc.raiseColNorms`, `Csc.raiseSymNorms`, `Csc.raiseRowNorms`,
`Csc.scale`, `Csc.scaleSides`.
-/
import QuadOpt.Sparse.Csc

namespace QuadOpt

variable {α : Type} [Scalar α] {m n : Nat}

open Scalar

/-- Raises the entry at position `i` to at least the magnitude of `v`. -/
def Vec.raiseAt (norms : Vec α n) (i : Nat) (v : α) : Vec α n :=
  if h : i < n then norms.set i (maxNum norms[i] (abs v)) else norms

namespace Csc

/-- Raises each entry to at least the norm of its column. -/
def raiseColNorms (M : Csc α) (norms : Vec α n) : Vec α n :=
  Vector.ofFn fun j => (M.values j).foldl (fun t v => maxNum t (abs v)) (norms.get j)

/-- Raises each entry to at least the norm of its column in the symmetric matrix
whose upper triangle is stored. -/
def raiseSymNorms (M : Csc α) (norms : Vec α n) : Vec α n :=
  M.entries.foldl (fun t e => (t.raiseAt e.2.1 e.2.2).raiseAt e.1 e.2.2) norms

/-- Raises each entry to at least the norm of its row. -/
def raiseRowNorms (M : Csc α) (norms : Vec α m) : Vec α m :=
  (M.rowval.toList.zip M.nzval.toList).foldl (fun t e => t.raiseAt e.1 e.2) norms

/-- Every stored entry times `c`. -/
def scale (M : Csc α) (c : α) : Csc α := { M with nzval := M.nzval.map fun v => v * c }

/-- The values after the entries in the listed positions are multiplied by
their row's factor in `l` and their column's in `r`. -/
def scaledValues (M : Csc α) (l : Vec α m) (r : Vec α n)
    (slots : List (Nat × Nat)) : Array α :=
  slots.foldl (fun vals s =>
    vals.modify s.1 fun v => v * (l.coord (M.rowval.getD s.1 0) * r.coord s.2)) M.nzval

/-- `diag(l) M diag(r)`. -/
def scaleSides (M : Csc α) (l : Vec α m) (r : Vec α n) : Csc α :=
  { M with nzval := M.scaledValues l r M.slots }

theorem scaledValues_size (M : Csc α) (l : Vec α m) (r : Vec α n) (slots : List (Nat × Nat)) :
    (M.scaledValues l r slots).size = M.nzval.size := by
  unfold scaledValues
  generalize M.nzval = vals
  induction slots generalizing vals with
  | nil => rfl
  | cons s rest ih => rw [List.foldl_cons, ih, Array.size_modify]

end Csc
end QuadOpt
