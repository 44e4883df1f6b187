/-
# Assembly from triplets

A matrix can be given by entries `(row, column, value)` in any order, several
of which may name one position: their values are added up, in ascending order,
so that the sum does not depend on the order in which they were given.

Key definitions: `Triplet`, `Triplet.sortable`, `Csc.ofTriplets`,
`Csc.ofTripletVectors`, `Csc.ofDense`.
Key theorems: `Csc.start_ofSorted`.
-/
import QuadOpt.Sparse.Csc
import QuadOpt.Sparse.Grouping
import QuadOpt.Sorting.Consistency

namespace QuadOpt

/-- An entry with its position. -/
structure Triplet (α : Type) where
  row : Nat
  col : Nat
  val : α
  deriving Repr

namespace Triplet

variable {α : Type} [Scalar α]

/-- Columns first, rows within a column, and values within a position. -/
def lt (s t : Triplet α) : Bool :=
  if s.col ≠ t.col then s.col < t.col
  else if s.row ≠ t.row then s.row < t.row
  else s.val < t.val

/-- Triplets of which neither goes first count as equal. -/
def le (s t : Triplet α) : Bool := !lt t s

/-- Whether the triplets can be sorted. Only a value that is not a number, which
counts as equal to all values at its position, can bring a contradiction. -/
def sortable (ts : List (Triplet α)) : Bool :=
  !(ts.any fun t => Scalar.isNaN t.val) || Sorting.consistent lt ts

/-- Adds up the values of neighbours at one position, from the left. -/
def merge : List (Triplet α) → List (Triplet α)
  | [] => []
  | [t] => [t]
  | s :: t :: rest =>
    if s.row = t.row ∧ s.col = t.col then merge (⟨s.row, s.col, s.val + t.val⟩ :: rest)
    else s :: merge (t :: rest)
termination_by ts => ts.length

end Triplet

namespace Csc

variable {α : Type}

/-- The matrix with the given entries, which are sorted by column. -/
def ofSorted (m n : Nat) (ts : List (Triplet α)) : Csc α where
  m := m
  n := n
  colptr := pointers ((group n Triplet.col ts).toList.map List.length)
  rowval := (ts.map Triplet.row).toArray
  nzval := (ts.map Triplet.val).toArray

theorem countP_col_lt_succ (ts : List (Triplet α)) (j : Nat) :
    (ts.countP fun t => t.col < j + 1) =
      (ts.countP fun t => t.col < j) + (ts.filter fun t => t.col == j).length := by
  induction ts with
  | nil => rfl
  | cons t ts ih =>
    simp only [List.countP_cons, List.filter_cons, ih]
    by_cases h : t.col = j
    · simp [h]
      omega
    · by_cases hlt : t.col < j
      · have : t.col < j + 1 := by omega
        simp [h, hlt, this]
        omega
      · have : ¬ t.col < j + 1 := by omega
        simp [h, hlt, this]

/-- Column `j` starts after all entries of earlier columns. -/
theorem start_ofSorted (m n : Nat) (ts : List (Triplet α)) {j : Nat} (h : j ≤ n) :
    (ofSorted m n ts).start j = ts.countP fun t => t.col < j := by
  have key : ∀ j ≤ n, (((group n Triplet.col ts).toList.map List.length).take j).foldl (· + ·) 0 =
      ts.countP fun t => t.col < j := by
    intro j
    induction j with
    | zero => intro _; simp
    | succ j ih =>
      intro hj
      have hget : ((group n Triplet.col ts).toList.map List.length)[j]? =
          some (ts.filter fun t => t.col == j).length := by
        have := get_group n Triplet.col ts ⟨j, hj⟩
        rw [Vec.get_eq_getElem] at this
        simp [List.getElem?_map, Vector.getElem?_toList, Vector.getElem?_eq_getElem hj, this]
      rw [List.take_add_one, hget, List.foldl_append, ih (by omega), countP_col_lt_succ]
      rfl
  rw [start, Array.getD_eq_getD_getElem?]
  simp only [ofSorted]
  rw [getElem?_pointers _ (by simpa using h), key j h]
  rfl

variable [Scalar α]

/-- The matrix whose value at a position is the sum of all triplets that name
it. The triplets are within the dimensions. -/
def ofTriplets (m n : Nat) (ts : List (Triplet α)) : Csc α :=
  ofSorted m n (Triplet.merge (ts.mergeSort Triplet.le))

/-- The matrix of the triplets `(I[k], J[k], V[k])`, unless the lengths differ,
an index is out of range, there are more columns than an array can point to, or
the triplets cannot be sorted. -/
def ofTripletVectors (m n : Nat) (I J : Array Nat) (V : Array α) :
    Except FormatError (Csc α) :=
  if I.size ≠ J.size ∨ I.size ≠ V.size then .error .dimensions
  else if I.any (m ≤ ·) then .error .rowRange
  else if J.any (n ≤ ·) then .error .columnRange
  else if arrayLimit ≤ n then .error .tooWide
  else
    let ts : List (Triplet α) :=
      (I.toList.zip (J.toList.zip V.toList)).map fun e => ⟨e.1, e.2.1, e.2.2⟩
    if Triplet.sortable ts then .ok (ofTriplets m n ts) else .error .unsortable

/-- The entries of a list of rows that are not zero. -/
def denseTriplets (rows : List (List α)) : List (Triplet α) :=
  rows.zipIdx.flatMap fun r =>
    (r.1.zipIdx.map fun e => (⟨r.2, e.2, e.1⟩ : Triplet α)).filter fun t => t.val != 0

/-- The matrix with the given rows, of `n` numbers each. -/
def ofDense (n : Nat) (rows : List (List α)) : Csc α :=
  ofTriplets rows.length n (denseTriplets rows)

end Csc
end QuadOpt
