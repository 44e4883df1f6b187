/-
# The triangle in elimination order

Putting rows and columns in elimination order takes each entry of the upper
triangle to one place of the new upper triangle, so that no column of it repeats
a row, and the symmetric matrix of the new triangle is the old one with its rows
and columns permuted.

Key definitions: `Order.toEquiv`.
Key theorems: `Order.upperPosition_eq_iff`, `Order.get_permuted`,
`Order.nodup_permuted`, `Order.coefficient_permuted`.
-/
import Mathlib.Data.Set.List
import Mathlib.Logic.Equiv.Defs
import QuadOpt.Ldl.Factorisation
import QuadOpt.Proofs.Ldl.Triangular
import QuadOpt.Proofs.Sparse.Meaning

namespace QuadOpt

variable {n : Nat}

/-! ### Positions in the triangle -/

namespace Order

/-- An order as a permutation of the rows. -/
def toEquiv (o : Order n) : Equiv.Perm (Fin n) where
  toFun := o.perm.get
  invFun := o.position.get
  left_inv := o.position_perm
  right_inv := o.perm_position

variable (o : Order n) {i j r k : Fin n}

theorem upperPosition_le (i j : Fin n) : (o.upperPosition i j).1 ≤ (o.upperPosition i j).2 := by
  unfold upperPosition
  by_cases h : o.position.get i ≤ o.position.get j
  · rw [if_pos h]
    exact h
  · rw [if_neg h]
    exact Nat.le_of_not_le h

theorem upperPosition_perm (hrk : r ≤ k) :
    o.upperPosition (o.perm.get r) (o.perm.get k) = (r, k) ∧
      o.upperPosition (o.perm.get k) (o.perm.get r) = (r, k) := by
  unfold upperPosition
  rw [o.position_perm, o.position_perm, if_pos hrk]
  refine ⟨rfl, ?_⟩
  by_cases hkr : k ≤ r
  · obtain rfl : r = k := Fin.le_antisymm hrk hkr
    rw [if_pos hkr]
  · rw [if_neg hkr]

/-- One place of a triangle is taken to each place of the other. -/
theorem upperPosition_eq_iff (hij : i ≤ j) (hrk : r ≤ k) : o.upperPosition i j = (r, k) ↔
    (i, j) = if o.perm.get r ≤ o.perm.get k then (o.perm.get r, o.perm.get k)
      else (o.perm.get k, o.perm.get r) := by
  constructor
  · intro h
    unfold upperPosition at h
    by_cases hle : o.position.get i ≤ o.position.get j
    · rw [if_pos hle] at h
      obtain ⟨rfl, rfl⟩ := Prod.mk.inj h
      rw [o.perm_position, o.perm_position, if_pos hij]
    · rw [if_neg hle] at h
      obtain ⟨rfl, rfl⟩ := Prod.mk.inj h
      rw [o.perm_position, o.perm_position]
      by_cases hji : j ≤ i
      · obtain rfl : i = j := Fin.le_antisymm hij hji
        rw [if_pos hji]
      · rw [if_neg hji]
  · intro h
    by_cases hle : o.perm.get r ≤ o.perm.get k
    · rw [if_pos hle] at h
      obtain ⟨rfl, rfl⟩ := Prod.mk.inj h
      exact (o.upperPosition_perm hrk).1
    · rw [if_neg hle] at h
      obtain ⟨rfl, rfl⟩ := Prod.mk.inj h
      exact (o.upperPosition_perm hrk).2

theorem upperPosition_inj {i' j' : Fin n} (hij : i ≤ j) (hij' : i' ≤ j')
    (h : o.upperPosition i j = o.upperPosition i' j') : (i, j) = (i', j') := by
  have hle := o.upperPosition_le i j
  have hfirst := (o.upperPosition_eq_iff hij hle).mp rfl
  have hsecond := (o.upperPosition_eq_iff hij' hle).mp h.symm
  exact hfirst.trans hsecond.symm

end Order

/-! ### Entries by their positions -/

section Positions

variable {α : Type} [Scalar α] {A : Csc α}

theorem Csc.entries_withValues (h : A.Valid) {values : Array α}
    (hsize : values.size = A.nzval.size) : Csc.entries { A with nzval := values }
      = A.slots.map fun s => (A.rowval.getD s.1 0, s.2, values.getD s.1 0) := by
  have hvalid : Csc.Valid { A with nzval := values } := h.withValues hsize
  exact Csc.entries_eq_map_slots hvalid

/-- The places of the entries, numbered as they are stored. -/
theorem Csc.zipIdx_places (h : A.Valid) : (A.entries.map fun e => (e.1, e.2.1)).zipIdx
    = A.slots.map fun s => ((A.rowval.getD s.1 0, s.2), s.1) := by
  have hlength : A.slots.length = A.rowval.size := by
    have := congrArg List.length (Csc.map_fst_slots h)
    rwa [List.length_map, List.length_range] at this
  rw [Csc.entries_eq_map_slots h, List.map_map, List.zipIdx_eq_zip_range', List.length_map,
    hlength, ← List.range_eq_range', ← Csc.map_fst_slots h, List.zip_map']
  rfl

/-- The slots of a square matrix, with their rows and columns in range. -/
theorem Csc.exists_positions (h : A.Valid) (hm : A.m = n) (hn : A.n = n) :
    ∃ ts : List ((Fin n × Fin n) × Nat),
      A.slots.map (fun s => ((A.rowval.getD s.1 0, s.2), s.1))
        = ts.map fun t => ((t.1.1.val, t.1.2.val), t.2) := by
  have hrange : A.slots.map (fun s => ((A.rowval.getD s.1 0, s.2), s.1)) ∈ Set.range
      (List.map fun t : (Fin n × Fin n) × Nat => ((t.1.1.val, t.1.2.val), t.2)) := by
    rw [Set.range_list_map]
    intro p hp
    obtain ⟨s, hs, rfl⟩ := List.mem_map.mp hp
    have hentry : (A.rowval.getD s.1 0, s.2, A.nzval.getD s.1 0) ∈ A.entries := by
      rw [Csc.entries_eq_map_slots h]
      exact List.mem_map_of_mem hs
    obtain ⟨hrow, hcol⟩ := Csc.entries_lt h hentry
    exact ⟨((⟨A.rowval.getD s.1 0, hm ▸ hrow⟩, ⟨s.2, hn ▸ hcol⟩), s.1), rfl⟩
  obtain ⟨ts, hts⟩ := hrange
  exact ⟨ts, hts.symm⟩

end Positions

/-! ### The new triangle -/

section Permuted

variable {ts : List ((Fin n × Fin n) × Nat)} {positions : List (Nat × Nat)}
  (hts : positions.zipIdx = ts.map fun t => ((t.1.1.val, t.1.2.val), t.2)) (o : Order n)

include hts

theorem Order.get_permuted (k : Fin n) : (o.permuted positions).get k
    = (ts.filter fun t => (o.upperPosition t.1.1 t.1.2).2 == k).map fun t =>
        ((o.upperPosition t.1.1 t.1.2).1, t.2) := by
  have hmoved : positions.zipIdx.filterMap (fun e =>
      if h : e.1.1 < n ∧ e.1.2 < n then
        some (o.upperPosition ⟨e.1.1, h.1⟩ ⟨e.1.2, h.2⟩, e.2)
      else none) = ts.map fun t => (o.upperPosition t.1.1 t.1.2, t.2) := by
    rw [hts, List.filterMap_map, ← List.filterMap_eq_map]
    congr 1
    funext t
    simp
  have hget : (o.permuted positions).get k = ((group n (fun e => e.1.2.val)
      (ts.map fun t => (o.upperPosition t.1.1 t.1.2, t.2))).get k).map fun e => (e.1.1, e.2) := by
    rw [permuted, hmoved, Vec.get_map]
  rw [hget, get_group, List.filter_map, List.map_map]
  congr 1
  apply List.filter_congr
  intro t _
  simp [Fin.ext_iff]

theorem Order.le_of_mem_permuted {k : Fin n} {e : Fin n × Nat}
    (he : e ∈ (o.permuted positions).get k) : e.1 ≤ k := by
  rw [o.get_permuted hts] at he
  obtain ⟨t, ht, rfl⟩ := List.mem_map.mp he
  have hk : (o.upperPosition t.1.1 t.1.2).2 = k := by simpa using (List.mem_filter.mp ht).2
  exact hk ▸ o.upperPosition_le t.1.1 t.1.2

/-- No column of the new triangle repeats a row. -/
theorem Order.nodup_permuted (hplaces : (ts.map Prod.fst).Nodup)
    (hupper : ∀ t ∈ ts, t.1.1 ≤ t.1.2) (k : Fin n) :
    (((o.permuted positions).get k).map Prod.fst).Nodup := by
  rw [o.get_permuted hts, List.map_map]
  refine List.Nodup.map_on ?_ ((List.Nodup.of_map _ hplaces).filter _)
  intro t ht s hs hrow
  obtain ⟨ht, htk⟩ := List.mem_filter.mp ht
  obtain ⟨hs, hsk⟩ := List.mem_filter.mp hs
  have hplace : o.upperPosition t.1.1 t.1.2 = o.upperPosition s.1.1 s.1.2 :=
    Prod.ext hrow ((eq_of_beq htk).trans (eq_of_beq hsk).symm)
  exact List.inj_on_of_nodup_map hplaces ht hs
    (o.upperPosition_inj (hupper t ht) (hupper s hs) hplace)

/-- The symmetric matrix of the new triangle has the entries of the old one, with
its rows and columns permuted. -/
theorem Order.coefficient_permuted {K : Type} [Field K] {M : Csc K} {values : Array K}
    (hentries : M.entries = ts.map fun t => (t.1.1.val, t.1.2.val, values.getD t.2 0))
    (hupper : ∀ t ∈ ts, t.1.1 ≤ t.1.2) {r k : Fin n} (hrk : r ≤ k) :
    coefficient (((o.permuted positions).get k).map fun e => (e.1, values.getD e.2 0)) r
      = M.mirror n (o.perm.get r) (o.perm.get k) := by
  have hfilter : ∀ (l : List ((Fin n × Fin n) × Nat)) (p : (Fin n × Fin n) × Nat → Bool)
      (f : (Fin n × Fin n) × Nat → K),
      ((l.filter p).map f).sum = (l.map fun t => if p t then f t else 0).sum := by
    intro l p f
    induction l with
    | nil => rfl
    | cons t l ih => by_cases ht : p t <;> simp [ht, ih]
  have hentry : ∀ a b : Fin n, M.entry a b
      = (ts.map fun t => if t.1 = (a, b) then values.getD t.2 0 else 0).sum := by
    intro a b
    rw [Csc.entry, entrySum, hentries, List.map_map]
    congr 1
    apply List.map_congr_left
    intro t _
    simp [Prod.ext_iff, Fin.ext_iff]
  have hmirror : M.mirror n (o.perm.get r) (o.perm.get k) = (ts.map fun t =>
      if t.1 = (if o.perm.get r ≤ o.perm.get k then (o.perm.get r, o.perm.get k)
        else (o.perm.get k, o.perm.get r)) then values.getD t.2 0 else 0).sum := by
    by_cases hle : o.perm.get r ≤ o.perm.get k
    · simp only [Csc.mirror, Matrix.of_apply, if_pos hle, hentry]
    · simp only [Csc.mirror, Matrix.of_apply, if_neg hle, hentry]
  rw [hmirror, o.get_permuted hts, coefficient, List.map_map, List.map_map, hfilter]
  congr 1
  apply List.map_congr_left
  intro t ht
  have hiff := o.upperPosition_eq_iff (hupper t ht) hrk
  simp only [Function.comp_apply, beq_iff_eq, ← ite_and]
  refine if_congr ?_ rfl rfl
  rw [← hiff, Prod.ext_iff, and_comm]

end Permuted
end QuadOpt
