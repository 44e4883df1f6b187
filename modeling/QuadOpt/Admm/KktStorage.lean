/-
# The matrix of optimality conditions in place

The matrix is assembled once, in arrays of the size that a count of its entries
gives, with a record of where the entries of `P` and of `A` and the diagonal are
stored. From then on new values are written to these places. A stored diagonal of
`P` is told from its other entries by a search among the places of the diagonal.

Key definitions: `KktMap`, `kktLengths?`, `assembleStored?`, `KktMap.fill?`,
`KktMap.fillAll?`.
-/
import QuadOpt.Sparse.Checked
import QuadOpt.Sparse.Grouping
import QuadOpt.Sparse.Matrix
import QuadOpt.Sparse.Placement

namespace QuadOpt

/-- Where the entries of a matrix of optimality conditions are stored. -/
structure KktMap where
  /-- the place of each entry of `P` -/
  hessian : Array Nat
  /-- the place of each entry of `A` -/
  constraint : Array Nat
  /-- the place of the diagonal of each column -/
  diagonal : Array Nat

variable {α : Type}

/-- The number of entries in each column: those of `P` with its diagonal, and those of
each row of `A` with the diagonal. -/
def kktLengths? (P A : Csc α) : Option (List Nat) := do
  let counts ← tally? A.m A.rowval.toList
  return (List.range A.n).map (fun j =>
      (P.rows j).length + if (P.rows j).getLast? = some j then 0 else 1)
    ++ counts.toList.map (· + 1)

variable [Scalar α]

/-- The matrix for `P` and `A` with zeros for values, and where its entries are stored,
if there is room for a pointer to each column. -/
def assembleStored? (P A : Csc α) : Option (Csc α × KktMap) :=
  if A.n + A.m < arrayLimit then do
    let lengths ← kktLengths? P A
    let colptr := pointers lengths
    let nnz ← colptr[A.n + A.m]?
    -- The diagonal is the last entry of each column, since the matrix is upper triangular.
    let diagonal := (List.range (A.n + A.m)).map fun k => colptr.getD (k + 1) 0 - 1
    let rowval ← overwrite? (Array.replicate nnz 0) diagonal.zipIdx
    let p ← distribute? colptr rowval (P.slots.map fun s => (s.2, P.rowval.getD s.1 0))
    -- A row of `A` is a column here; its entries are met in the order of their columns.
    let a ← distribute? colptr p.cells (A.slots.map fun s => (A.n + A.rowval.getD s.1 0, s.2))
    return (⟨A.n + A.m, A.n + A.m, colptr, a.cells, Array.replicate nnz 0⟩,
      ⟨p.places, a.places, diagonal.toArray⟩)
  else none

namespace KktMap

/-- A place is one of the diagonal. -/
def isDiagonal (M : KktMap) (place : Nat) : Bool :=
  M.diagonal.toList[Csc.halving M.diagonal.toList place 0 M.diagonal.size]? == some place

variable {m : Nat}

/-- Writes `P + δ₁ I`, `A` and `-diag(δ₂)` to their places. -/
def fill? (M : KktMap) (K P A : Csc α) (δ₁ : α) (δ₂ : Vec α m) : Option (Csc α) := do
  let v ← overwrite? K.nzval ((M.diagonal.toList.take P.n).map fun place => (place, δ₁))
  let v ← alterAll? v ((M.hessian.toList.zip P.nzval.toList).map fun e =>
    (e.1, fun t => if M.isDiagonal e.1 then t + e.2 else e.2))
  let v ← overwrite? v (M.constraint.toList.zip A.nzval.toList)
  let v ← overwrite? v ((M.diagonal.toList.drop P.n).zip δ₂.negate.toList)
  return { K with nzval := v }

end KktMap

/-- The values of a matrix of optimality conditions. -/
structure KktValues (α : Type) (n m : Nat) where
  P : SparseMatrix α n n
  A : SparseMatrix α m n
  /-- `δ₁` -/
  shift : α
  /-- `δ₂` -/
  dual : Vec α m

/-- Writes values one after the other. -/
def KktMap.fillAll? {n m : Nat} (M : KktMap) (K : Csc α) (fills : List (KktValues α n m)) :
    Option (Csc α) :=
  fills.foldlM (fun K V => M.fill? K V.P.csc V.A.csc V.shift V.dual) K

end QuadOpt
