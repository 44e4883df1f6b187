/-
# Sparsity patterns

The pattern of a matrix is where it stores entries, whatever their values.

Key definitions: `Csc.samePattern`, `Csc.requireSamePattern`.
-/
import QuadOpt.Sparse.Csc

namespace QuadOpt.Csc

variable {α : Type}

/-- Equal dimensions and the same stored positions. -/
def samePattern (A B : Csc α) : Bool :=
  A.m == B.m && A.n == B.n && A.colptr == B.colptr && A.rowval == B.rowval

/-- Tells unequal dimensions from unequal positions. -/
def requireSamePattern (A B : Csc α) : Except FormatError Unit :=
  if A.m ≠ B.m ∨ A.n ≠ B.n then .error .dimensions
  else if A.samePattern B then .ok () else .error .patternMismatch

end QuadOpt.Csc
