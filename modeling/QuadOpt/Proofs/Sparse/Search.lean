/-
# Searching by halving

A number that is stored in an increasing list is found by halving the range that it
can be in. So a place of a well formed matrix is found in its column, and nothing
where none is stored.

Key theorems: `Csc.halving_eq`, `Csc.getElem?_halving_iff`, `Csc.lookup?_of_valid`.
-/
import QuadOpt.Proofs.Sparse.Entries
import QuadOpt.Sparse.Checked

namespace QuadOpt.Csc

/-- The range always holds the position that is looked for. -/
theorem halving_eq {rows : List Nat} (hsorted : rows.Pairwise (· < ·)) {i k : Nat}
    (hk : rows[k]? = some i) {base size : Nat} (hbase : base ≤ k) (hlt : k < base + size)
    (hsize : base + size ≤ rows.length) : halving rows i base size = k := by
  have hless : ∀ {s t : Nat} (hs : s < rows.length) (ht : t < rows.length), s < t →
      rows[s] < rows[t] := fun hs ht hst => List.pairwise_iff_getElem.mp hsorted _ _ hs ht hst
  obtain ⟨hklt, hget⟩ := List.getElem?_eq_some_iff.mp hk
  fun_induction halving rows i base size with
  | case1 base size hone => omega
  | case2 base size htwo mid ih =>
    have hmid : mid < rows.length := by omega
    have hread : rows.getD mid 0 = rows[mid] := by simp [hmid]
    by_cases hbefore : i < rows.getD mid 0
    · have hkmid : k < mid := by
        by_contra hnot
        rcases Nat.eq_or_lt_of_le (Nat.le_of_not_lt hnot) with heq | hgt
        · subst heq
          omega
        · have := hless hmid hklt hgt
          omega
      rw [dif_pos hbefore] at ih
      rw [if_pos hbefore]
      exact ih hbase (by omega) (by omega)
    · have hmidk : mid ≤ k := by
        by_contra hnot
        have := hless hklt hmid (Nat.lt_of_not_le hnot)
        omega
      rw [dif_neg hbefore] at ih
      rw [if_neg hbefore]
      exact ih hmidk (by omega) (by omega)

/-- The search ends at a number iff it is stored. -/
theorem getElem?_halving_iff {rows : List Nat} (hsorted : rows.Pairwise (· < ·)) (i : Nat) :
    rows[halving rows i 0 rows.length]? = some i ↔ i ∈ rows := by
  constructor
  · exact List.mem_of_getElem?
  · intro hmem
    obtain ⟨k, hk⟩ := List.mem_iff_getElem?.mp hmem
    have hlt := (List.getElem?_eq_some_iff.mp hk).1
    rw [halving_eq hsorted hk (Nat.zero_le k) (by omega) (by omega)]
    exact hk

variable {α : Type} {A : Csc α}

/-- What is found at a place of a well formed matrix is what is stored there. -/
theorem lookup?_of_valid (h : A.Valid) {i j : Nat} (hi : i < A.m) (hj : j < A.n) :
    A.lookup? i j = some (A.get? i j) := by
  have hsorted := h.rows_sorted j hj
  have hmono := h.start_mono j hj
  have hle : A.start (j + 1) ≤ A.rowval.size := start_le_size h hj
  have hreadable : A.rowsReadable j = true := by
    have := h.colptr_size
    simp only [rowsReadable, Bool.and_eq_true, decide_eq_true_eq]
    omega
  have hkeys : ((A.column j).map Prod.fst).Nodup := by
    rw [map_fst_column h hj]
    exact hsorted.imp Nat.ne_of_lt
  rw [lookup?, if_pos ⟨hi, hj, hreadable⟩]
  simp only
  by_cases hfound : (A.rows j)[halving (A.rows j) i 0 (A.rows j).length]? = some i
  · generalize halving (A.rows j) i 0 (A.rows j).length = k at hfound ⊢
    have hk : k < (A.rows j).length := (List.getElem?_eq_some_iff.mp hfound).1
    have hlength := length_rows h hj
    have hnz : A.start j + k < A.nzval.size := by
      have := h.nzval_size
      omega
    have hvalue : (A.values j)[k]? = some A.nzval[A.start j + k] := by
      have hkv : k < (A.values j).length := by
        rw [length_values h hj]
        omega
      rw [List.getElem?_eq_getElem hkv]
      simp [values]
    have hmem : (i, A.nzval[A.start j + k]) ∈ A.column j := by
      apply List.mem_of_getElem? (i := k)
      rw [column, List.getElem?_zip_eq_some]
      exact ⟨hfound, hvalue⟩
    have hfind := (find?_key_eq_some_iff hkeys).mpr ⟨hmem, rfl⟩
    rw [if_pos hfound, Array.getElem?_eq_getElem hnz, get?, hfind]
    rfl
  · rw [if_neg hfound]
    rw [getElem?_halving_iff hsorted, ← map_fst_column h hj] at hfound
    have hnone : (A.column j).find? (fun e => e.1 == i) = none := by
      rw [List.find?_eq_none]
      intro e he hei
      exact hfound ((by simpa using hei : e.1 = i) ▸ List.mem_map_of_mem he)
    rw [get?, hnone]
    rfl

end QuadOpt.Csc
