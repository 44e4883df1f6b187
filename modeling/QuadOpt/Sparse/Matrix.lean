/-
# Well formed sparse matrices

A `SparseMatrix` is a compressed matrix that is known to be well formed and to
have `m` rows and `n` columns. New values and scalings leave its pattern alone,
so they keep it well formed.

Key definitions: `SparseMatrix`, `SparseMatrix.withValues`,
`SparseMatrix.scale`, `SparseMatrix.scaleSides`.
-/
import QuadOpt.Sparse.Scaling

namespace QuadOpt

/-- A well formed `m × n` matrix. -/
structure SparseMatrix (α : Type) (m n : Nat) where
  csc : Csc α
  rows_eq : csc.m = m
  cols_eq : csc.n = n
  valid : csc.Valid

theorem Csc.Valid.withValues {α : Type} {A : Csc α} (h : A.Valid) {v : Array α}
    (hv : v.size = A.nzval.size) : Csc.Valid { A with nzval := v } where
  colptr_size := h.colptr_size
  nzval_size := hv.trans h.nzval_size
  start_zero := h.start_zero
  start_mono := h.start_mono
  start_last := h.start_last
  rows_lt := h.rows_lt
  rows_sorted := h.rows_sorted

namespace SparseMatrix

variable {α : Type} {m n : Nat}

/-- The number of stored entries. -/
def nnz (A : SparseMatrix α m n) : Nat := A.csc.nzval.size

/-- The stored values. -/
def values (A : SparseMatrix α m n) : Vec α A.nnz := A.csc.nzval.toVector

/-- The matrix with other values in its pattern. -/
def withValues (A : SparseMatrix α m n) (v : Vec α A.nnz) : SparseMatrix α m n where
  csc := { A.csc with nzval := v.toArray }
  rows_eq := A.rows_eq
  cols_eq := A.cols_eq
  valid := A.valid.withValues v.size_toArray

variable [Scalar α]

/-- Every stored entry times `c`. -/
def scale (A : SparseMatrix α m n) (c : α) : SparseMatrix α m n where
  csc := A.csc.scale c
  rows_eq := A.rows_eq
  cols_eq := A.cols_eq
  valid := A.valid.withValues (by simp)

/-- `diag(l) A diag(r)`. -/
def scaleSides (A : SparseMatrix α m n) (l : Vec α m) (r : Vec α n) : SparseMatrix α m n where
  csc := A.csc.scaleSides l r
  rows_eq := A.rows_eq
  cols_eq := A.cols_eq
  valid := A.valid.withValues (A.csc.scaledValues_size l r A.csc.slots)

end SparseMatrix
end QuadOpt
