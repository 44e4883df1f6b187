/-
# When two matrices have one pattern

The rows of each column of a well formed matrix are sorted, so the places that it stores
determine the lists of rows, the lengths of these lists its column pointers, and both lists one
after the other its row indices. So two matrices are compared by their arrays, but they agree
exactly if they store the same places.

Key theorems: `Csc.isSome_get?_iff`, `Csc.toList_rowval`, `Csc.requireSamePattern_eq_ok_iff`.
-/
import Mathlib.Data.List.Sort
import QuadOpt.Proofs.Sparse.Entries
import QuadOpt.Sparse.Pattern

namespace QuadOpt.Csc

variable {α : Type} {A B : Csc α}

/-- A place is stored iff its column lists its row. -/
theorem isSome_get?_iff (h : A.Valid) (i j : Nat) : (A.get? i j).isSome = true ↔ i ∈ A.rows j := by
  by_cases hj : j < A.n
  · rw [← map_fst_column h hj, get?, Option.isSome_map, List.find?_isSome, List.mem_map]
    simp only [beq_iff_eq]
  · rw [get?_of_le h i (Nat.le_of_not_lt hj), rows_of_le h (Nat.le_of_not_lt hj)]
    simp

/-- The row indices are the rows of the columns, one column after the other. -/
theorem toList_rowval (h : A.Valid) : A.rowval.toList = (List.range A.n).flatMap A.rows := by
  have hrows : ∀ j ∈ List.range A.n, A.rows j
      = ((List.range' (A.start j) (A.start (j + 1) - A.start j)).map fun k => A.rowval.getD k 0) :=
    fun j hj => extract_eq_map_getD A.rowval 0 (start_le_size h (List.mem_range.mp hj))
  have hall : A.rowval.toList = (List.range A.rowval.size).map fun k => A.rowval.getD k 0 := by
    have hextract := extract_eq_map_getD A.rowval 0 (s := 0) (Nat.le_refl A.rowval.size)
    rwa [Array.extract_size, Nat.sub_zero, ← List.range_eq_range'] at hextract
  rw [hall, List.flatMap_congr hrows, ← List.map_flatMap, flatMap_range'_start h (Nat.le_refl _),
    h.start_last]

section SameRows

variable (hA : A.Valid) (hB : B.Valid) (hn : A.n = B.n) (hrows : A.rows = B.rows)

include hA hB hn hrows

/-- Each column starts where the rows of those before it end. -/
theorem start_eq_of_rows_eq {j : Nat} (hj : j ≤ A.n) : A.start j = B.start j := by
  induction j with
  | zero => rw [hA.start_zero, hB.start_zero]
  | succ j ih =>
    have hlength : (A.rows j).length = (B.rows j).length := by rw [hrows]
    rw [length_rows hA hj, length_rows hB (hn ▸ hj), ih (Nat.le_of_succ_le hj)] at hlength
    have hle := hA.start_mono j hj
    have hle' := hB.start_mono j (hn ▸ hj)
    rw [ih (Nat.le_of_succ_le hj)] at hle
    omega

theorem colptr_eq_of_rows_eq : A.colptr = B.colptr := by
  have hsize : A.colptr.size = B.colptr.size := by rw [hA.colptr_size, hB.colptr_size, hn]
  refine Array.ext hsize fun j hj hj' => ?_
  have hstart := start_eq_of_rows_eq hA hB hn hrows (j := j) (by
    rw [hA.colptr_size] at hj
    omega)
  simpa [start, Array.getD_eq_getD_getElem?, hj, hj'] using hstart

theorem rowval_eq_of_rows_eq : A.rowval = B.rowval :=
  Array.toList_inj.mp (by rw [toList_rowval hA, toList_rowval hB, hn, hrows])

end SameRows

/-- Well formed matrices pass the comparison iff they have the same dimensions and store the same
places. -/
theorem requireSamePattern_eq_ok_iff (hA : A.Valid) (hB : B.Valid) :
    A.requireSamePattern B = .ok () ↔ A.m = B.m ∧ A.n = B.n ∧
      ∀ i j, (A.get? i j).isSome = true ↔ (B.get? i j).isSome = true := by
  have hok : A.requireSamePattern B = .ok () ↔
      A.m = B.m ∧ A.n = B.n ∧ A.colptr = B.colptr ∧ A.rowval = B.rowval := by
    unfold requireSamePattern samePattern
    by_cases hm : A.m = B.m <;> by_cases hn : A.n = B.n <;> simp [hm, hn]
  rw [hok]
  simp only [isSome_get?_iff hA, isSome_get?_iff hB]
  constructor
  · rintro ⟨hm, hn, hcolptr, hrowval⟩
    refine ⟨hm, hn, fun i j => ?_⟩
    rw [rows, rows, start, start, start, start, hcolptr, hrowval]
  · rintro ⟨hm, hn, hplaces⟩
    have hrows : A.rows = B.rows := by
      funext j
      by_cases hj : j < A.n
      · exact List.Pairwise.eq_of_mem_iff (hA.rows_sorted j hj) (hB.rows_sorted j (hn ▸ hj))
          fun i => hplaces i j
      · rw [rows_of_le hA (Nat.le_of_not_lt hj), rows_of_le hB (hn ▸ Nat.le_of_not_lt hj)]
    exact ⟨hm, hn, colptr_eq_of_rows_eq hA hB hn hrows, rowval_eq_of_rows_eq hA hB hn hrows⟩

end QuadOpt.Csc
