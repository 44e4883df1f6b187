/-
# Elimination orders

The order in which the rows of a symmetric matrix are eliminated, with its
inverse. `Order.ofArray` accepts a list of indices as an order of `n` rows iff
it is a permutation whose first `n` indices are those below `n`.

Key definitions: `LdlError`, `Order`, `Order.ofArray`, `Order.natural`.
-/
import QuadOpt.Vec

namespace QuadOpt

/-- Why a matrix is not factored. -/
inductive LdlError where
  /-- not square, or not well formed -/
  | dimensions
  /-- a column has no entry -/
  | emptyColumn
  /-- an entry is stored below the diagonal -/
  | notUpperTriangular
  /-- the pivot of this row, in elimination order, is zero or not finite -/
  | zeroPivot (k : Nat)
  /-- the elimination order repeats an index or skips one -/
  | invalidOrder
  /-- the elimination order is a permutation of other rows than the matrix has -/
  | orderOutOfRange
  /-- the matrix would have been read beyond the end of its arrays -/
  | unreadable
  deriving DecidableEq, Repr

/-- The text of a factorisation error. -/
def LdlError.message : LdlError → String
  | .dimensions => "Matrix dimension fields are incompatible"
  | .emptyColumn => "Matrix has a zero column"
  | .notUpperTriangular => "Matrix is not upper triangular"
  | .zeroPivot k => s!"Matrix factorization produced a zero pivot at index {k}"
  | .invalidOrder => "Invalid permutation vector"
  | .orderOutOfRange => "Permutation vector does not fit the matrix"
  | .unreadable => "Matrix arrays are read out of bounds"

/-- An order of the rows of an `n × n` matrix. -/
structure Order (n : Nat) where
  /-- the row eliminated in each step -/
  perm : Vector (Fin n) n
  /-- the step in which each row is eliminated -/
  position : Vector (Fin n) n
  position_perm : ∀ k : Fin n, position.get (perm.get k) = k
  perm_position : ∀ i : Fin n, perm.get (position.get i) = i

namespace Order

variable {n : Nat}

/-- Row after row. -/
def natural (n : Nat) : Order n where
  perm := Vector.ofFn id
  position := Vector.ofFn id
  position_perm := by simp
  perm_position := by simp

/-- Each index below the size of `p` is listed, and so each of them once and no
other. -/
def isPermutation (p : Array Nat) : Bool :=
  (p.foldl (fun seen i => seen.setIfInBounds i true) (Array.replicate p.size false)).all id

/-- The step in which each row is eliminated. -/
def positions (perm : Vector (Fin n) n) : Vector (Fin n) n :=
  (List.finRange n).foldl (fun v k => Vec.put v (perm.get k) k) perm

/-- Each of the two lists undoes the other. -/
def areInverse (perm position : Vector (Fin n) n) : Bool :=
  (List.finRange n).all fun k =>
    position.get (perm.get k) == k && perm.get (position.get k) == k

theorem areInverse_get {perm position : Vector (Fin n) n} (h : areInverse perm position = true)
    (k : Fin n) : position.get (perm.get k) = k ∧ perm.get (position.get k) = k := by
  have := List.all_eq_true.mp h k (List.mem_finRange k)
  simpa using this

/-- The order that lists `p[0], p[1], …`. What follows the first `n` indices is
not used. -/
def ofArray (n : Nat) (p : Array Nat) : Except LdlError (Order n) :=
  if !isPermutation p then .error .invalidOrder
  else if inRange : ((List.finRange n).all fun k => decide (p.getD k n < n)) = true then
    let perm : Vector (Fin n) n := Vector.ofFn fun k =>
      ⟨p.getD k n, of_decide_eq_true (List.all_eq_true.mp inRange k (List.mem_finRange k))⟩
    let position := positions perm
    if inverse : areInverse perm position = true then
      .ok {
        perm := perm
        position := position
        position_perm := fun k => (areInverse_get inverse k).1
        perm_position := fun k => (areInverse_get inverse k).2 }
    else .error .orderOutOfRange
  else .error .orderOutOfRange

end Order
end QuadOpt
