/-
# Factorisations of symmetric matrices

`S = P⁻¹ (I + L) D (I + L)ᵀ P⁻ᵀ` for an elimination order `P`. The order and
the pattern are analysed once (`Ldl.analyse`); values are then replaced
(`Ldl.withValues?`) and factored (`Ldl.factor`) any number of times, and
`Ldl.solve?` solves with the latest factors, if there are any.

Key definitions: `Ldl`, `Ldl.analyse`, `Ldl.withValues?`, `Ldl.factor`,
`Ldl.solve?`, `Ldl.lowerMatrix`.
-/
import QuadOpt.Ldl.Numeric
import QuadOpt.Ldl.Order
import QuadOpt.Sparse.Csc
import QuadOpt.Sparse.Grouping

namespace QuadOpt

variable {α : Type} [Scalar α] {n : Nat}

/-- The row and the column in the upper triangle of the entry that is in row `i`
and column `j` before the rows and columns are put in elimination order. -/
def Order.upperPosition (o : Order n) (i j : Fin n) : Fin n × Fin n :=
  if o.position.get i ≤ o.position.get j then (o.position.get i, o.position.get j)
  else (o.position.get j, o.position.get i)

/-- The positions `(row, column)` of a matrix as the columns of the upper
triangle after the rows and columns are put in elimination order. Each entry
comes with its index in the storage of the matrix. -/
def Order.permuted (o : Order n) (positions : List (Nat × Nat)) :
    Vector (List (Fin n × Nat)) n :=
  let moved := positions.zipIdx.filterMap fun e =>
    if h : e.1.1 < n ∧ e.1.2 < n then
      some (o.upperPosition ⟨e.1.1, h.1⟩ ⟨e.1.2, h.2⟩, e.2)
    else none
  (group n (fun e => e.1.2.val) moved).map fun column => column.map fun e => (e.1.1, e.2)

/-- A symmetric matrix with its analysis, and the factors of the values it had
when it was last factored. -/
structure Ldl (α : Type) (n : Nat) where
  /-- the elimination order as it was given -/
  givenOrder : Array Nat
  order : Order n
  /-- the upper triangle in elimination order, by index of the values -/
  upper : Vector (List (Fin n × Nat)) n
  forest : Forest n
  /-- the number of entries in each column of the factor -/
  counts : Vector Nat n
  /-- the values of the matrix, in its own order -/
  values : Array α
  /-- the columns of `L`. There are always `counts` entries; those not computed
  by the latest factorisation are left from an earlier one. -/
  lower : Vector (List (Fin n × α)) n
  D : Vec α n
  Dinv : Vec α n
  /-- the number of positive pivots of the latest complete factorisation -/
  positive : Nat
  /-- the factors are those of the current values -/
  isFactored : Bool

namespace Ldl

/-- The matrix is square, well formed, upper triangular and has no empty
column. -/
def requireUpper (A : Csc α) (n : Nat) : Except LdlError Unit :=
  if A.m ≠ n ∨ A.n ≠ n then .error .dimensions
  else match A.validate with
    | .error .unreadable => .error .unreadable
    | .error _ => .error .dimensions
    | .ok () =>
      if !A.isUpper then .error .notUpperTriangular
      else if (List.range n).any fun j => A.start j == A.start (j + 1) then .error .emptyColumn
      else .ok ()

/-- Analyses the symmetric `n × n` matrix with the upper triangle `A` for a given
elimination order, or in the order of its rows. -/
def analyse (A : Csc α) (n : Nat) (order : Option (Array Nat)) : Except LdlError (Ldl α n) := do
  requireUpper A n
  let given := order.getD (Array.range n)
  let o ← Order.ofArray n given
  let upper := o.permuted (A.entries.map fun e => (e.1, e.2.1))
  let analysis := Analysis.run (upper.map fun col => col.map Prod.fst)
  return {
    givenOrder := given
    order := o
    upper := upper
    forest := analysis.forest
    counts := analysis.counts
    values := A.nzval
    lower := Vector.ofFn fun c => List.replicate (analysis.counts.get c) (⟨0, c.pos⟩, 0)
    D := .fill n 0
    Dinv := .fill n 0
    positive := 0
    isFactored := false }

/-- Replaces all values, which are given in the order of the matrix that was
analysed. -/
def withValues? (F : Ldl α n) (values : Array α) : Option (Ldl α n) :=
  if values.size = F.values.size then some { F with values := values, isFactored := false }
  else none

/-- The upper triangle in elimination order, with the current values. -/
def upperValues (F : Ldl α n) : Vector (List (Fin n × α)) n :=
  F.upper.map fun col => col.map fun e => (e.1, F.values.getD e.2 0)

/-- Stores the computed beginning of each column of `L` over what is there. -/
def store (F : Ldl α n) (lower : Vector (List (Fin n × α)) n) : Vector (List (Fin n × α)) n :=
  Vector.ofFn fun c => lower.get c ++ (F.lower.get c).drop (lower.get c).length

/-- Factors the current values and counts the positive pivots. The rows before
one without a pivot keep their new factors, but the whole is not usable then. -/
def factor (F : Ldl α n) : Ldl α n × Except LdlError Nat :=
  match Factors.compute F.forest F.upperValues with
  | .ok f =>
    ({ F with
      lower := F.store f.lower, D := f.D, Dinv := f.Dinv, positive := f.positive,
      isFactored := true }, .ok f.positive)
  | .error (k, f) =>
    ({ F with
      lower := F.store f.lower, D := f.D,
      Dinv := Vector.ofFn fun i => if i < k then f.Dinv.get i else F.Dinv.get i,
      isFactored := false }, .error (.zeroPivot k))

/-- The solution of `S x = b`, if the current values are factored. -/
def solve? (F : Ldl α n) (b : Vec α n) : Option (Vec α n) :=
  if F.isFactored then
    let x : Vec α n := Vector.ofFn fun k => b.get (F.order.perm.get k)
    let x := solveLowerTranspose F.lower ((solveLower F.lower x).hadamard F.Dinv)
    some (Vector.ofFn fun i => x.get (F.order.position.get i))
  else none

/-- The strict lower triangle `L` as it is stored. -/
def lowerMatrix (F : Ldl α n) : Csc α where
  m := n
  n := n
  colptr := pointers F.counts.toList
  rowval := (F.lower.toList.flatMap fun col => col.map fun e => e.1.val).toArray
  nzval := (F.lower.toList.flatMap fun col => col.map Prod.snd).toArray

end Ldl
end QuadOpt
