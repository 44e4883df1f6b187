/-
# Elimination trees in arrays

The analysis of an upper triangle works on three arrays with a cell for each column: a mark,
a count and a parent, of which there may be none yet. From each row of column `j` it walks
upwards to a column that is marked with `j`. A column on the way is marked and counted, and
gets `j` for a parent if it has none. A position outside of an array is refused, and so is a
walk on to a parent that there is not.

Key definitions: `EliminationTree`, `EliminationTree.climb?`, `EliminationTree.column?`,
`Csc.eliminationTree?`.
-/
import QuadOpt.Sparse.Csc
import QuadOpt.Sparse.Placement

namespace QuadOpt

/-- What the analysis works on. -/
structure EliminationTree where
  /-- the latest column for which each column was met, or zero -/
  marks : Array Nat
  /-- the number of entries that each column of the factor will hold -/
  counts : Array Nat
  parents : Array (Option Nat)
  deriving DecidableEq, Repr

namespace EliminationTree

/-- Nothing has been met. -/
def start (n : Nat) : EliminationTree :=
  ⟨Array.replicate (3 * n) 0, Array.replicate n 0, Array.replicate n none⟩

/-- Walks from column `i` upwards to one that is marked with `j`. -/
def climb? (j i : Nat) (T : EliminationTree) : Option EliminationTree :=
  if hi : i < T.marks.size then
    if hmark : T.marks[i] = j then some T
    else do
      have : (T.marks.set i j).countP (· != j) < T.marks.countP (· != j) := by
        have hold : (T.marks[i] != j) = true := bne_iff_ne.mpr hmark
        have hpos : 0 < T.marks.countP (· != j) :=
          Array.countP_pos_iff.mpr ⟨T.marks[i], Array.getElem_mem hi, hold⟩
        rw [Array.countP_set, if_pos hold, if_neg (by rw [bne_self_eq_false]; exact nofun)]
        omega
      let parents ← alter? T.parents i fun p => p.or (some j)
      let counts ← alter? T.counts i (· + 1)
      match parents[i]? with
      | some (some p) => climb? j p ⟨T.marks.set i j, counts, parents⟩
      | _ => none
  else none
termination_by T.marks.countP (· != j)

/-- Takes in column `j` of the triangle. -/
def column? (j : Nat) (rows : List Nat) (T : EliminationTree) : Option EliminationTree := do
  let marks ← alter? T.marks j fun _ => j
  rows.foldlM (fun T i => T.climb? j i) { T with marks := marks }

end EliminationTree

/-- The elimination tree of an upper triangle, with the counts. -/
def Csc.eliminationTree? {α : Type} (A : Csc α) : Option EliminationTree :=
  (List.range A.n).foldlM (fun T j => do
    let s ← A.colptr[j]?
    let t ← A.colptr[j + 1]?
    let rows ← slice? A.rowval s t
    T.column? j rows) (.start A.n)

end QuadOpt
