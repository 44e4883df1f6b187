/-
# Elimination forests

When rows are eliminated in order, the rows that an entry reaches form a path
upwards in a forest on the columns, in which every parent is larger than its
child. `Analysis.run` finds the forest of a pattern and counts the entries
that each column of the factor will hold; `Forest.rowPattern` lists the columns
with an entry in a given row of the factor, in an order that visits every
column before its parent.

Key definitions: `Forest`, `Forest.path`, `Forest.rowPattern`, `Analysis.run`.
-/
import QuadOpt.Vec

namespace QuadOpt

/-- The rows of the entries of each column of an upper triangle. -/
abbrev Upper (n : Nat) := Vector (List (Fin n)) n

/-- A forest on the columns `0 … n - 1` whose parents are larger than their
children. -/
structure Forest (n : Nat) where
  parent : Vector (Option (Fin n)) n
  lt_parent : ∀ i p : Fin n, parent.get i = some p → i < p

namespace Forest

variable {n : Nat}

/-- No column has a parent. -/
def empty (n : Nat) : Forest n where
  parent := Vector.replicate n none
  lt_parent := by simp

/-- Makes the larger column `p` the parent of `i`. -/
def setParent (F : Forest n) (i p : Fin n) (h : i < p) : Forest n where
  parent := Vec.put F.parent i (some p)
  lt_parent := by
    intro a q ha
    by_cases hia : i = a
    · subst hia
      simp at ha
      exact ha ▸ h
    · exact F.lt_parent a q (by rwa [Vec.get_put_ne _ hia] at ha)

/-- The columns from `i` upwards, up to the first at which `stop` holds. -/
def path (F : Forest n) (stop : Fin n → Bool) (i : Fin n) : List (Fin n) :=
  if stop i then []
  else i :: match h : F.parent.get i with
    | none => []
    | some p =>
      have : n - p.val < n - i.val := Nat.sub_lt_sub_left i.isLt (F.lt_parent i p h)
      path F stop p
termination_by n - i.val

/-- The columns with an entry in row `k` of the factor, for a column `k` of the
upper triangle with entries in `rows`: the paths from these rows, each up to a
column already met and below `k`. A later path goes in front, so that every
column comes before its parent. -/
def rowPattern (F : Forest n) (k : Fin n) (rows : List (Fin n)) : List (Fin n) :=
  rows.foldl (fun seen i => F.path (fun c => decide (k ≤ c) || seen.contains c) i ++ seen) []

end Forest

/-- A forest under construction, with the number of entries met in each column
and the columns met for the current row. -/
structure Analysis (n : Nat) where
  forest : Forest n
  counts : Vector Nat n
  seen : List (Fin n)

namespace Analysis

variable {n : Nat}

/-- Nothing has been met. -/
def start (n : Nat) : Analysis n := ⟨.empty n, Vector.replicate n 0, []⟩

/-- Walks from column `i` upwards to a column met before for row `j`, and counts
an entry in each column on the way. A column without a parent gets `j` for one. -/
def climb (j : Fin n) (i : Fin n) : Analysis n → Analysis n
  | ⟨forest, counts, seen⟩ =>
    if below : i < j ∧ ¬ seen.contains i then
      let count := counts.get i + 1
      match h : forest.parent.get i with
      | some p =>
        have : n - p.val < n - i.val := Nat.sub_lt_sub_left i.isLt (forest.lt_parent i p h)
        climb j p ⟨forest, Vec.put counts i count, i :: seen⟩
      | none => ⟨forest.setParent i j below.1, Vec.put counts i count, i :: seen⟩
    else ⟨forest, counts, seen⟩
termination_by n - i.val

/-- Takes in column `j` of the upper triangle. -/
def column (j : Fin n) (rows : List (Fin n)) (A : Analysis n) : Analysis n :=
  rows.foldl (fun A i => A.climb j i) { A with seen := [] }

/-- Takes in all columns. -/
def run (upper : Upper n) : Analysis n :=
  (List.finRange n).foldl (fun A j => A.column j (upper.get j)) (start n)

end Analysis
end QuadOpt
