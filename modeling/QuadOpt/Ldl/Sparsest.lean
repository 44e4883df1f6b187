/-
# Sparse rows first

Eliminating a row couples all rows that it has entries with. So the rows with
the fewest entries are eliminated first, and a row that has entries with most
others is left for the end.

Key definitions: `Csc.degrees`, `Csc.sparsestFirst`.
Key theorems: `Csc.sparsestFirst_perm`.
-/
import QuadOpt.Sparse.Csc

namespace QuadOpt.Csc

variable {α : Type}

/-- The number of entries in each row of the symmetric matrix whose upper
triangle is stored, of which one on the diagonal counts for two. -/
def degrees (S : Csc α) : Array Nat :=
  S.entries.foldl (fun d e => (d.modify e.1 (· + 1)).modify e.2.1 (· + 1))
    (Array.replicate S.n 0)

/-- The rows by their number of entries, and of rows with equally many the later
ones before. -/
def sparsestFirst (S : Csc α) : Array Nat :=
  let d := S.degrees
  ((List.range S.n).reverse.mergeSort fun i j => d.getD i 0 ≤ d.getD j 0).toArray

/-- Every row is listed once. -/
theorem sparsestFirst_perm (S : Csc α) : S.sparsestFirst.toList.Perm (List.range S.n) := by
  unfold sparsestFirst
  exact (List.mergeSort_perm _ _).trans (List.reverse_perm _)

end QuadOpt.Csc
