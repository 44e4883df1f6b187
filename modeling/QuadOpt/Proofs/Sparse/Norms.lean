/-
# Norms of rows and columns

In exact arithmetic the norms that a matrix is equilibrated by are the largest
magnitudes in its rows and columns, on top of what the vector held before.

Key theorems: `Csc.rowNorm_lt_iff`, `Csc.abs_entry_le_colNorm`,
`Csc.le_raiseSymNorms`.
-/
import QuadOpt.Proofs.Sparse.Meaning

namespace QuadOpt

/-- Position by position, the rows and the values are those of the entries. -/
theorem Csc.zip_rowval_nzval {α : Type} [Zero α] {M : Csc α} (h : M.Valid) :
    M.rowval.toList.zip M.nzval.toList = M.entries.map fun e => (e.1, e.2.2) := by
  have hread : ∀ {β : Type} (a : Array β) (d : β), a.size = M.rowval.size →
      a.toList = (List.range M.rowval.size).map fun k => a.getD k d := by
    intro β a d ha
    have hextract := Csc.extract_eq_map_getD a d (s := 0) (Nat.le_of_eq ha.symm)
    rwa [← ha, Array.extract_size, Nat.sub_zero, ← List.range_eq_range', ha] at hextract
  rw [Csc.entries_eq_map_slots h, List.map_map, hread M.rowval 0 rfl, hread M.nzval 0 h.nzval_size,
    List.zip_map', ← Csc.map_fst_slots h, List.map_map]
  rfl

variable {K : Type} [Field K] [LinearOrder K] [ExactScalar K] {m n : Nat}

theorem Vec.get_raiseAt (norms : Vec K n) (i : Nat) (v : K) (j : Fin n) :
    (norms.raiseAt i v).get j = if i = j then max (norms.get j) |v| else norms.get j := by
  unfold raiseAt
  by_cases hi : i < n
  · rw [dif_pos hi]
    by_cases hij : i = j
    · subst hij
      simp [get_eq_getElem]
      rfl
    · rw [if_neg hij, get_eq_getElem, get_eq_getElem, Vector.getElem_set_ne _ _ hij]
  · have hij : i ≠ j := by omega
    rw [dif_neg hi, if_neg hij]

namespace Csc

/-- The norm of a row after its entries were seen one by one. -/
theorem foldl_raiseAt_lt_iff (i : Fin m) (c : K) (l : List (Nat × K)) (norms : Vec K m) :
    (l.foldl (fun t e => t.raiseAt e.1 e.2) norms).get i < c ↔
      norms.get i < c ∧ ∀ e ∈ l, e.1 = i → |e.2| < c := by
  induction l generalizing norms with
  | nil => simp
  | cons e l ih =>
    rw [List.foldl_cons, ih, Vec.get_raiseAt, List.forall_mem_cons]
    by_cases he : e.1 = i
    · rw [if_pos he, max_lt_iff, and_assoc]
      simp [he]
    · rw [if_neg he]
      simp [he]

variable [IsStrictOrderedRing K]

/-- The norm of a row is below a positive number iff its entries are. -/
theorem rowNorm_lt_iff {M : Csc K} (h : M.Valid) (hn : M.n = n) {c : K} (hc : 0 < c) (i : Fin m) :
    (M.raiseRowNorms (.fill m 0)).get i < c ↔ ∀ j : Fin n, |M.entry i j| < c := by
  rw [raiseRowNorms, foldl_raiseAt_lt_iff, Vec.get_fill, and_iff_right hc, zip_rowval_nzval h]
  constructor
  · intro hle j
    rw [entry_eq_getD h]
    cases hget : M.get? i j with
    | none =>
      rw [Option.getD_none, abs_zero]
      exact hc
    | some v =>
      exact hle _ (List.mem_map_of_mem ((get?_eq_some_iff h).mp hget)) rfl
  · intro hle e he hi
    obtain ⟨⟨r, j, v⟩, hmem, rfl⟩ := List.mem_map.mp he
    obtain ⟨-, hj⟩ := entries_lt h hmem
    have hentry : M.entry r j = v := by
      rw [entry_eq_getD h, (get?_eq_some_iff h).mpr hmem]
      rfl
    have hlt := hle ⟨j, hn ▸ hj⟩
    rw [← hi] at hlt
    rwa [hentry] at hlt

/-- No entry is larger than the norm of its column. -/
theorem abs_entry_le_colNorm {M : Csc K} (h : M.Valid) {norms : Vec K n} {j : Fin n}
    (hnorms : 0 ≤ norms.get j) (i : Nat) : |M.entry i j| ≤ (M.raiseColNorms norms).get j := by
  have hnorm : (M.raiseColNorms norms).get j
      = (M.values j).foldl (fun t v => max t |v|) (norms.get j) := by
    simp [raiseColNorms]
    rfl
  obtain ⟨hbase, hvalues⟩ := (foldl_max_le_iff (fun v => |v|) _ (M.values j) (norms.get j)).mp
    (le_of_eq hnorm.symm)
  rw [entry_eq_getD h]
  cases hget : M.get? i j with
  | none =>
    rw [Option.getD_none, abs_zero]
    exact hnorms.trans hbase
  | some v =>
    obtain ⟨-, hmem⟩ := mem_entries.mp ((get?_eq_some_iff h).mp hget)
    exact hvalues v (List.of_mem_zip hmem).2

omit [IsStrictOrderedRing K] in
/-- A norm that is taken on top of another one is not smaller. -/
theorem le_raiseSymNorms (M : Csc K) (norms : Vec K n) (j : Fin n) :
    norms.get j ≤ (M.raiseSymNorms norms).get j := by
  unfold raiseSymNorms
  generalize M.entries = l
  have hraise : ∀ (t : Vec K n) i v, t.get j ≤ (t.raiseAt i v).get j := by
    intro t i v
    rw [Vec.get_raiseAt]
    split
    · exact le_max_left _ _
    · exact le_rfl
  induction l generalizing norms with
  | nil => exact le_rfl
  | cons e l ih => exact ((hraise _ _ _).trans (hraise _ _ _)).trans (ih _)

end Csc
end QuadOpt
