/-
# Compressed sparse columns

A sparse matrix lists its stored entries column by column: the entries of
column `j` are those at the positions `colptr[j] ≤ k < colptr[j + 1]`, entry
`k` being the value `nzval[k]` in row `rowval[k]`. The fields of `Csc` may hold
anything; `Csc.validate` tells the well formed matrices apart, and
`Csc.Valid` says what being well formed means.

Key definitions: `Csc`, `Csc.column`, `Csc.entries`, `Csc.get?`, `Csc.Valid`,
`Csc.zeros?`, `Csc.identity?`, `Csc.validate`, `Csc.isUpper`.
Key theorems: `Csc.valid_of_validate`.
-/
import QuadOpt.Vec

namespace QuadOpt

/-- A sparse matrix in compressed column form, with its arrays unchecked. -/
structure Csc (α : Type) where
  /-- number of rows -/
  m : Nat
  /-- number of columns -/
  n : Nat
  /-- where each column starts, and where the last one ends -/
  colptr : Array Nat
  /-- the row of each stored entry -/
  rowval : Array Nat
  /-- the value of each stored entry -/
  nzval : Array α
  deriving BEq, Repr

/-- What is wrong with a matrix, or with the data for one. -/
inductive FormatError where
  /-- the lengths of the arrays contradict each other or the dimensions -/
  | dimensions
  /-- the rows of a column do not increase -/
  | rowOrder
  /-- a row index is not below the number of rows -/
  | rowRange
  /-- a column index is not below the number of columns -/
  | columnRange
  /-- the column pointers do not start at zero or decrease -/
  | columnPointers
  /-- two matrices store different positions -/
  | patternMismatch
  /-- an array would have been read beyond its end -/
  | unreadable
  /-- an array has no room for a pointer to each column -/
  | tooWide
  /-- the entries have no order that their comparisons agree with -/
  | unsortable
  deriving DecidableEq, Repr

/-- The text of a format error. -/
def FormatError.message : FormatError → String
  | .dimensions => "Matrix dimension fields and/or array lengths are incompatible"
  | .rowOrder => "Data is not sorted by row index within each column"
  | .rowRange => "Row value exceeds the matrix row dimension"
  | .columnRange => "Column value exceeds the matrix column dimension"
  | .columnPointers => "Bad column pointer values"
  | .patternMismatch => "sparsity pattern mismatch"
  | .unreadable => "Matrix arrays are read out of bounds"
  | .tooWide => "Matrix has too many columns"
  | .unsortable => "Entries cannot be sorted"

/-- Dimensions are machine words, in which one past the largest is zero. -/
def wordSize : Nat := 18446744073709551616

/-- The most words that an array holds, as its bytes are counted by a word with a sign. -/
def arrayLimit : Nat := 1152921504606846975

namespace Csc

variable {α : Type}

/-- Where column `j` starts. -/
def start (A : Csc α) (j : Nat) : Nat := A.colptr.getD j 0

/-- The rows stored in column `j`, in storage order. -/
def rows (A : Csc α) (j : Nat) : List Nat :=
  (A.rowval.extract (A.start j) (A.start (j + 1))).toList

/-- The values stored in column `j`, in storage order. -/
def values (A : Csc α) (j : Nat) : List α :=
  (A.nzval.extract (A.start j) (A.start (j + 1))).toList

/-- Rows and values stored in column `j`. -/
def column (A : Csc α) (j : Nat) : List (Nat × α) := (A.rows j).zip (A.values j)

/-- All stored entries `(row, column, value)`, column by column. -/
def entries (A : Csc α) : List (Nat × Nat × α) :=
  (List.range A.n).flatMap fun j => (A.column j).map fun e => (e.1, j, e.2)

/-- The positions in storage order, each with the column that owns it. -/
def slots (A : Csc α) : List (Nat × Nat) :=
  (List.range A.n).flatMap fun j =>
    (List.range' (A.start j) (A.start (j + 1) - A.start j)).map fun k => (k, j)

/-- The number of stored entries. -/
def nnz (A : Csc α) : Nat := A.start A.n

/-- The value stored at row `i` of column `j`. -/
def get? (A : Csc α) (i j : Nat) : Option α :=
  ((A.column j).find? fun e => e.1 == i).map Prod.snd

/-- The matrix without stored entries. -/
def zeros (m n : Nat) : Csc α := ⟨m, n, Array.replicate (n + 1) 0, #[], #[]⟩

/-- The identity matrix. -/
def identity [One α] (n : Nat) : Csc α :=
  ⟨n, n, Array.range (n + 1), Array.range n, Array.replicate n 1⟩

/-- The matrix without stored entries, if there is room for a pointer to each
column. -/
def zeros? (m n : Nat) : Option (Csc α) := if n < arrayLimit then some (zeros m n) else none

/-- The identity matrix, if there is room for a pointer to each column. -/
def identity? [One α] (n : Nat) : Option (Csc α) :=
  if n < arrayLimit then some (identity n) else none

/-- A matrix of arrays whose lengths agree, and nothing for others. Order and
range of the indices are not looked at. -/
def ofArrays? (m n : Nat) (colptr rowval : Array Nat) (nzval : Array α) : Option (Csc α) :=
  if colptr.size = n + 1 ∧ rowval.size = nzval.size ∧ colptr[n]? = some rowval.size then
    some ⟨m, n, colptr, rowval, nzval⟩
  else none

/-- No entry is stored below the diagonal. -/
def isUpper (A : Csc α) : Bool :=
  (List.range A.n).all fun j => (A.rows j).all fun i => i ≤ j

/-- A well formed matrix: the columns divide the stored entries among
themselves, and the rows of each column increase and are in range. -/
structure Valid (A : Csc α) : Prop where
  colptr_size : A.colptr.size = A.n + 1
  nzval_size : A.nzval.size = A.rowval.size
  start_zero : A.start 0 = 0
  start_mono : ∀ j < A.n, A.start j ≤ A.start (j + 1)
  start_last : A.start A.n = A.rowval.size
  rows_lt : ∀ j < A.n, ∀ i ∈ A.rows j, i < A.m
  rows_sorted : ∀ j < A.n, (A.rows j).Pairwise (· < ·)

/-- The first fault among the rows of column `j`. As the rows have to increase,
their range shows in the last of them. -/
def columnFault (A : Csc α) (j : Nat) : Option FormatError :=
  if (A.rows j).getLast?.any (A.m ≤ ·) then some .rowRange
  else if (A.rows j).Pairwise (· < ·) then none else some .rowOrder

/-- The first fault of a matrix: lengths, then column pointers, then the rows
column by column. -/
def validate (A : Csc α) : Except FormatError Unit :=
  if A.colptr.size ≠ (A.n + 1) % wordSize ∨ A.rowval.size ≠ A.nzval.size then
    .error .dimensions
  else match A.colptr[A.n]? with
    | none => .error .unreadable
    | some last =>
      if last ≠ A.rowval.size then .error .dimensions
      else if A.start 0 ≠ 0 ∨
          (List.range A.n).any (fun j => decide (A.start (j + 1) < A.start j)) then
        .error .columnPointers
      else match (List.range A.n).findSome? A.columnFault with
        | some e => .error e
        | none => .ok ()

theorem columnFault_eq_none {A : Csc α} {j : Nat} (h : A.columnFault j = none) :
    (A.rows j).Pairwise (· < ·) ∧ ∀ i ∈ A.rows j, i < A.m := by
  unfold columnFault at h
  split at h
  · cases h
  · rename_i hlast
    split at h
    · rename_i hsorted
      refine ⟨hsorted, fun i hi => ?_⟩
      obtain ⟨init, last, hl⟩ : ∃ init last, A.rows j = init ++ [last] :=
        ⟨_, _, (List.dropLast_concat_getLast (List.ne_nil_of_mem hi)).symm⟩
      rw [hl] at hlast hsorted hi
      simp only [List.getLast?_append, List.getLast?_singleton, Option.some_or, Option.any_some,
        decide_eq_true_eq, Nat.not_le] at hlast
      rcases List.mem_append.mp hi with hi | hi
      · exact Nat.lt_trans ((List.pairwise_append.mp hsorted).2.2 i hi last (by simp)) hlast
      · simp only [List.mem_singleton] at hi
        omega
    · cases h

/-- A matrix that passes the check is well formed. -/
theorem valid_of_validate {A : Csc α} (h : A.validate = .ok ()) : A.Valid := by
  unfold validate at h
  split at h
  · cases h
  · rename_i hsize
    split at h
    · cases h
    · rename_i last hlast
      split at h
      · cases h
      · rename_i hrow
        split at h
        · cases h
        · rename_i hptr
          split at h
          · cases h
          · rename_i hfault
            obtain ⟨hn, hlast⟩ := Array.getElem?_eq_some_iff.mp hlast
            have hle : (A.n + 1) % wordSize ≤ A.n + 1 := Nat.mod_le _ _
            have hmono : ∀ j < A.n, A.start j ≤ A.start (j + 1) := by
              intro j hj
              have := hptr
              simp only [not_or, List.any_eq_true, List.mem_range, decide_eq_true_eq,
                not_exists, not_and, Nat.not_lt] at this
              exact this.2 j hj
            have hcol : ∀ j < A.n, A.columnFault j = none := by
              intro j hj
              exact List.findSome?_eq_none_iff.mp hfault j (List.mem_range.mpr hj)
            refine ⟨by omega, by omega, by omega, hmono, ?_, ?_, ?_⟩
            · simp only [start, Array.getD_eq_getD_getElem?, Array.getElem?_eq_getElem hn, hlast]
              simp only [Option.getD_some]
              omega
            · exact fun j hj => (columnFault_eq_none (hcol j hj)).2
            · exact fun j hj => (columnFault_eq_none (hcol j hj)).1

end Csc
end QuadOpt
