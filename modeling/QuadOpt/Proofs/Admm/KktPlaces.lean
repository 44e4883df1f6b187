/-
# Where the matrix of optimality conditions stores its entries

Each entry of `P` is stored as far behind the beginning of its column as it is in `P`,
each entry of `A` as far behind the beginning of the column of its row as it is in that
row, and the diagonal at the end of every column. The record that assembling makes tells
these places, in both directions.

Key definitions: `kktEntries`, `StoredAt`, `KktMap.Records`.
Key theorems: `getElem?_kktEntries_iff`, `rank_of_diagonal`, `recorded_hessian`,
`recorded_constraint`, `recorded_shifted`, `assembleStored?_records`.
-/
import QuadOpt.Proofs.Admm.KktStorage

namespace QuadOpt

section Recorded

variable {α : Type} {n m : Nat}

/-! ### The entries in storage order -/

/-- What the stored entries are made of, in storage order. -/
def kktEntries (n m : Nat) (P A : Csc α) : List KktEntry :=
  ((kktColumns n m P A).map (List.map Prod.snd)).flatten

theorem toList_nzval_assembleKkt (P A : Csc α) :
    (assembleKkt n m P A).nzval.toList = kktEntries n m P A := by
  rw [assembleKkt, Csc.ofColumns, kktEntries, List.toList_toArray, List.map_flatten]

theorem offset_map_snd (P A : Csc α) (k : Nat) :
    offset ((kktColumns n m P A).map (List.map Prod.snd)) k = offset (kktColumns n m P A) k := by
  apply offset_congr
  rw [List.map_map]
  exact List.map_congr_left fun column _ => List.length_map ..

/-- An entry is read from its column. -/
theorem getElem?_kktEntries {P A : Csc α} {column : List (Nat × KktEntry)} {k t : Nat}
    (h : (kktColumns n m P A)[k]? = some column) (ht : t < column.length) :
    (kktEntries n m P A)[offset (kktColumns n m P A) k + t]? = (column.map Prod.snd)[t]? := by
  rw [kktEntries, ← offset_map_snd]
  exact getElem?_flatten_offset (by rw [List.getElem?_map, h]; rfl) (by simpa using ht)

theorem exists_of_getElem?_kktEntries {P A : Csc α} {p : Nat} {e : KktEntry}
    (h : (kktEntries n m P A)[p]? = some e) : ∃ k column t,
      (kktColumns n m P A)[k]? = some column ∧ (column.map Prod.snd)[t]? = some e ∧
      p = offset (kktColumns n m P A) k + t := by
  obtain ⟨k, l, t, hl, ht, hp⟩ := exists_offset h
  rw [List.getElem?_map, Option.map_eq_some_iff] at hl
  obtain ⟨column, hcolumn, rfl⟩ := hl
  exact ⟨k, column, t, hcolumn, ht, by rw [hp, offset_map_snd]⟩

variable (P : SparseMatrix α n n) (A : SparseMatrix α m n)

theorem map_snd_hessianColumn {j : Nat} (hj : j < n) : (hessianColumn P.csc j).map Prod.snd
    = (P.csc.slots.filter fun s => s.2 == j).map (hessianEntry P.csc)
      ++ if (P.csc.rows j).getLast? = some j then [] else [.shift] := by
  rw [hessianColumn_eq_slots P.valid (by rwa [P.cols_eq]), List.map_append, List.map_map]
  congr 1
  split <;> rfl

theorem map_snd_constraintColumn (A : Csc α) (i : Fin m) :
    (constraintColumn n i ((A.rowSlots m).get i)).map Prod.snd
      = (A.slots.filter fun s => n + A.rowval.getD s.1 0 == n + i).map
          (fun s => .constraint s.1) ++ [.dual i.val] := by
  rw [constraintColumn_eq_slots, List.map_append, List.map_map]
  rfl

theorem length_hessianColumn {j : Nat} (hj : j < n) : (hessianColumn P.csc j).length
    = (P.csc.slots.filter fun s => s.2 == j).length
      + if (P.csc.rows j).getLast? = some j then 0 else 1 := by
  have hlength := congrArg List.length (map_snd_hessianColumn P hj)
  rw [List.length_append, List.length_map, List.length_map] at hlength
  rw [hlength]
  congr 1
  split <;> rfl

theorem length_constraintColumn (A : Csc α) (i : Fin m) :
    (constraintColumn n i ((A.rowSlots m).get i)).length
      = (A.slots.filter fun s => n + A.rowval.getD s.1 0 == n + i).length + 1 := by
  have hlength := congrArg List.length (map_snd_constraintColumn (n := n) A i)
  rwa [List.length_append, List.length_map, List.length_map, List.length_singleton] at hlength

/-! ### What is stored where -/

/-- What is stored at a place: the slots of `P` from the beginnings of its columns on and
those of `A` from the beginnings of the columns of its rows on, each in storage order, and
at the end of a column the diagonal. -/
inductive StoredAt (n m : Nat) (P A : Csc α) : Nat → KktEntry → Prop
  | hessian {s : Nat × Nat} {t : Nat} : s.2 < n →
      (P.slots.filter fun r => r.2 == s.2)[t]? = some s →
      StoredAt n m P A (offset (kktColumns n m P A) s.2 + t) (hessianEntry P s)
  | shift {j p : Nat} : j < n → (P.rows j).getLast? ≠ some j →
      (lastPlaces n m P A)[j]? = some p → StoredAt n m P A p .shift
  | constraint {s : Nat × Nat} {t : Nat} : A.rowval.getD s.1 0 < m →
      (A.slots.filter fun r => n + A.rowval.getD r.1 0 == n + A.rowval.getD s.1 0)[t]? = some s →
      StoredAt n m P A (offset (kktColumns n m P A) (n + A.rowval.getD s.1 0) + t)
        (.constraint s.1)
  | dual {i p : Nat} : i < m → (lastPlaces n m P A)[n + i]? = some p →
      StoredAt n m P A p (.dual i)

variable {P A} in
theorem storedAt_of_hessianColumn {j t : Nat} {e : KktEntry} (hj : j < n)
    (ht : ((hessianColumn P.csc j).map Prod.snd)[t]? = some e) :
    StoredAt n m P.csc A.csc (offset (kktColumns n m P.csc A.csc) j + t) e := by
  have hcolumn := getElem?_kktColumns_of_lt (m := m) P.csc A.csc hj
  have htlt : t < (hessianColumn P.csc j).length := by
    simpa using (List.getElem?_eq_some_iff.mp ht).1
  rw [map_snd_hessianColumn P hj] at ht
  by_cases hin : t < ((P.csc.slots.filter fun s => s.2 == j).map (hessianEntry P.csc)).length
  · rw [List.getElem?_append_left hin, List.getElem?_map, Option.map_eq_some_iff] at ht
    obtain ⟨s, hs, rfl⟩ := ht
    obtain rfl : s.2 = j := by simpa using (List.mem_filter.mp (List.mem_of_getElem? hs)).2
    exact .hessian hj hs
  · rw [List.getElem?_append_right (Nat.le_of_not_lt hin)] at ht
    by_cases hlast : (P.csc.rows j).getLast? = some j
    · simp [hlast] at ht
    · have hlength := length_hessianColumn P hj
      rw [if_neg hlast] at hlength
      rw [List.length_map] at hin
      rw [if_neg hlast, List.getElem?_singleton] at ht
      obtain rfl : e = .shift := by
        split at ht
        · exact (Option.some.inj ht).symm
        · cases ht
      exact .shift hj hlast (getElem?_lastPlaces.mpr ⟨_, hcolumn, by omega⟩)

variable {A} in
theorem storedAt_of_constraintColumn {P : Csc α} (i : Fin m) {t : Nat} {e : KktEntry}
    (ht : ((constraintColumn n i ((A.csc.rowSlots m).get i)).map Prod.snd)[t]? = some e) :
    StoredAt n m P A.csc (offset (kktColumns n m P A.csc) (n + i) + t) e := by
  have hcolumn := getElem?_kktColumns_add (n := n) P A.csc i
  have htlt : t < (constraintColumn n i ((A.csc.rowSlots m).get i)).length := by
    simpa using (List.getElem?_eq_some_iff.mp ht).1
  have hlength := length_constraintColumn (n := n) A.csc i
  rw [map_snd_constraintColumn] at ht
  by_cases hin : t < ((A.csc.slots.filter fun s => n + A.csc.rowval.getD s.1 0 == n + i.val).map
      fun s => KktEntry.constraint s.1).length
  · rw [List.getElem?_append_left hin, List.getElem?_map, Option.map_eq_some_iff] at ht
    obtain ⟨s, hs, rfl⟩ := ht
    have hrow : A.csc.rowval.getD s.1 0 = i.val := by
      have := (List.mem_filter.mp (List.mem_of_getElem? hs)).2
      simpa only [beq_iff_eq, Nat.add_left_cancel_iff] using this
    rw [← hrow] at hs ⊢
    exact .constraint (hrow ▸ i.isLt) hs
  · rw [List.getElem?_append_right (Nat.le_of_not_lt hin), List.getElem?_singleton] at ht
    rw [List.length_map] at hin
    obtain rfl : e = .dual i := by
      split at ht
      · exact (Option.some.inj ht).symm
      · cases ht
    exact .dual i.isLt (getElem?_lastPlaces.mpr ⟨_, hcolumn, by omega⟩)

/-- The entries are those that `StoredAt` lists. -/
theorem getElem?_kktEntries_iff {p : Nat} {e : KktEntry} :
    (kktEntries n m P.csc A.csc)[p]? = some e ↔ StoredAt n m P.csc A.csc p e := by
  constructor
  · intro h
    obtain ⟨k, column, t, hcolumn, ht, rfl⟩ := exists_of_getElem?_kktEntries h
    rcases kktColumns_cases hcolumn with ⟨hk, rfl⟩ | ⟨i, rfl, rfl⟩
    · exact storedAt_of_hessianColumn hk ht
    · exact storedAt_of_constraintColumn i ht
  · intro h
    cases h with
    | @hessian s t hj hs =>
      have hlt := (List.getElem?_eq_some_iff.mp hs).1
      have hlength := length_hessianColumn P hj
      rw [getElem?_kktEntries (getElem?_kktColumns_of_lt P.csc A.csc hj) (by omega),
        map_snd_hessianColumn P hj, List.getElem?_append_left (by simpa using hlt),
        List.getElem?_map, hs]
      rfl
    | @shift j p hj hlast hp =>
      obtain ⟨column, hcolumn, rfl⟩ := getElem?_lastPlaces.mp hp
      have hget := getElem?_kktColumns_of_lt (m := m) P.csc A.csc hj
      rw [hcolumn, Option.some_inj] at hget
      have hlength := length_hessianColumn P hj
      rw [if_neg hlast, ← hget] at hlength
      rw [getElem?_kktEntries hcolumn (by omega), hlength, Nat.add_sub_cancel, hget,
        map_snd_hessianColumn P hj, if_neg hlast,
        List.getElem?_append_right (by rw [List.length_map]), List.length_map, Nat.sub_self]
      rfl
    | @constraint s t hrow hs =>
      have hlt := (List.getElem?_eq_some_iff.mp hs).1
      have hcolumn := getElem?_kktColumns_add (n := n) P.csc A.csc ⟨_, hrow⟩
      have hlength := length_constraintColumn (n := n) A.csc ⟨_, hrow⟩
      rw [getElem?_kktEntries hcolumn (by simp only at hlength ⊢; omega),
        map_snd_constraintColumn, List.getElem?_append_left (by simpa using hlt),
        List.getElem?_map, hs]
      rfl
    | @dual i p hi hp =>
      obtain ⟨column, hcolumn, rfl⟩ := getElem?_lastPlaces.mp hp
      have hget := getElem?_kktColumns_add (n := n) P.csc A.csc ⟨i, hi⟩
      rw [hcolumn, Option.some_inj] at hget
      have hlength := length_constraintColumn (n := n) A.csc ⟨i, hi⟩
      rw [← hget] at hlength
      rw [getElem?_kktEntries hcolumn (by omega), hlength, Nat.add_sub_cancel, hget,
        map_snd_constraintColumn, List.getElem?_append_right (by rw [List.length_map]),
        List.length_map, Nat.sub_self]
      rfl

/-! ### The record of places -/

/-- The record tells for each entry of `P`, of `A` and of the diagonal where it is stored
among `E`, and the places of the diagonal increase. -/
structure KktMap.Records (M : KktMap) (n : Nat) (E : List KktEntry) : Prop where
  hessian : ∀ {k p}, M.hessian[k]? = some p ↔
    E[p]? = some (KktEntry.hessian k) ∨ E[p]? = some (KktEntry.hessianDiagonal k)
  constraint : ∀ {k p}, M.constraint[k]? = some p ↔ E[p]? = some (KktEntry.constraint k)
  shifted : ∀ {p}, p ∈ M.diagonal.toList.take n ↔
    E[p]? = some .shift ∨ ∃ k, E[p]? = some (.hessianDiagonal k)
  dual : ∀ {i p}, M.diagonal[n + i]? = some p ↔ E[p]? = some (.dual i)
  sorted : M.diagonal.toList.Pairwise (· < ·)

theorem hessianEntry_eq_iff (P : Csc α) (s : Nat × Nat) (k : Nat) :
    (hessianEntry P s = KktEntry.hessian k ∨ hessianEntry P s = KktEntry.hessianDiagonal k)
      ↔ s.1 = k := by
  unfold hessianEntry
  split <;> simp

theorem hessianEntry_eq_diagonal {P : Csc α} {s : Nat × Nat} {k : Nat}
    (h : hessianEntry P s = .hessianDiagonal k) : P.rowval.getD s.1 0 = s.2 := by
  unfold hessianEntry at h
  split at h
  · assumption
  · cases h

variable {P A}

/-- The places of the entries of `P`. -/
theorem recorded_hessian {p : Placement Nat}
    (h : p.Holds (diagonalOnly n m P.csc A.csc) (hessianItems P.csc)) {k q : Nat} :
    p.places[k]? = some q ↔ (kktEntries n m P.csc A.csc)[q]? = some (.hessian k) ∨
      (kktEntries n m P.csc A.csc)[q]? = some (.hessianDiagonal k) := by
  have hoffset := offset_congr (map_length_diagonalOnly (n := n) (m := m) P.csc A.csc)
  simp only [h.places_iff (Csc.nodup_slots P.valid), Csc.getElem?_slots_iff P.valid, hoffset,
    getElem?_kktEntries_iff]
  constructor
  · rintro ⟨s, t, ⟨hs, hsk⟩, ht, rfl⟩
    have hstored := StoredAt.hessian (n := n) (m := m) (A := A.csc)
      (by simpa [P.cols_eq] using Csc.slots_lt hs) ht
    rcases (hessianEntry_eq_iff P.csc s k).mpr hsk with he | he
    · exact .inl (he ▸ hstored)
    · exact .inr (he ▸ hstored)
  · intro hstored
    obtain ⟨e, he, hstored⟩ : ∃ e, (e = KktEntry.hessian k ∨ e = .hessianDiagonal k) ∧
        StoredAt n m P.csc A.csc q e := by
      rcases hstored with h | h
      · exact ⟨_, .inl rfl, h⟩
      · exact ⟨_, .inr rfl, h⟩
    cases hstored with
    | @hessian s t hj hs =>
      have hmem := (List.mem_filter.mp (List.mem_of_getElem? hs)).1
      exact ⟨s, t, ⟨hmem, (hessianEntry_eq_iff P.csc s k).mp he⟩, hs, rfl⟩
    | shift => simp at he
    | constraint => simp at he
    | dual => simp at he

/-- The places of the entries of `A`. -/
theorem recorded_constraint {a : Placement Nat}
    (h : a.Holds (overlay (itemsOf (hessianItems P.csc)) (diagonalOnly n m P.csc A.csc))
      (constraintItems n A.csc)) {k q : Nat} :
    a.places[k]? = some q ↔ (kktEntries n m P.csc A.csc)[q]? = some (.constraint k) := by
  have hoffset := offset_congr ((fits_items P A).1.map_length.trans
    (map_length_diagonalOnly (n := n) (m := m) P.csc A.csc))
  simp only [h.places_iff (Csc.nodup_slots A.valid), Csc.getElem?_slots_iff A.valid, hoffset,
    getElem?_kktEntries_iff]
  constructor
  · rintro ⟨s, t, ⟨hs, rfl⟩, ht, rfl⟩
    have hrow := Csc.row_lt_of_slot A.valid hs
    rw [A.rows_eq] at hrow
    exact .constraint hrow ht
  · intro hstored
    generalize he : KktEntry.constraint k = e at hstored
    cases hstored with
    | @hessian s t hj hs =>
      unfold hessianEntry at he
      split at he <;> cases he
    | shift => cases he
    | @constraint s t hrow hs =>
      cases he
      exact ⟨s, t, ⟨(List.mem_filter.mp (List.mem_of_getElem? hs)).1, rfl⟩, hs, rfl⟩
    | dual => cases he

/-- The diagonal of `P` is the last slot of its column. -/
theorem rank_of_diagonal (hupper : P.csc.isUpper = true) {s : Nat × Nat} {t : Nat}
    (hs : (P.csc.slots.filter fun r => r.2 == s.2)[t]? = some s)
    (hrow : P.csc.rowval.getD s.1 0 = s.2) :
    (P.csc.rows s.2).getLast? = some s.2 ∧
      t + 1 = (P.csc.slots.filter fun r => r.2 == s.2).length := by
  have hj : s.2 < P.csc.n :=
    Csc.slots_lt (List.mem_filter.mp (List.mem_of_getElem? hs)).1
  have hget : (P.csc.rows s.2)[t]? = some s.2 := by
    rw [Csc.rows_eq_slots P.valid hj, List.getElem?_map, hs, Option.map_some, hrow]
  have hlength : (P.csc.rows s.2).length = (P.csc.slots.filter fun r => r.2 == s.2).length := by
    rw [Csc.rows_eq_slots P.valid hj, List.length_map]
  have hlast := (Csc.getLast?_rows_iff P.valid hupper hj).mpr (List.mem_of_getElem? hget)
  refine ⟨hlast, ?_⟩
  have hnodup : (P.csc.rows s.2).Nodup := (P.valid.rows_sorted _ hj).imp Nat.ne_of_lt
  have hlt := (List.getElem?_eq_some_iff.mp hget).1
  have hend : t = (P.csc.rows s.2).length - 1 := by
    rw [List.getLast?_eq_getElem?] at hlast
    exact (List.getElem?_inj hlt hnodup).mp (hget.trans hlast.symm)
  omega

/-- A diagonal that is only shifted ends a column in which `P` has none. -/
theorem storedAt_shift_iff {p : Nat} : StoredAt n m P.csc A.csc p .shift ↔
    ∃ j < n, (P.csc.rows j).getLast? ≠ some j ∧
      (lastPlaces n m P.csc A.csc)[j]? = some p := by
  constructor
  · intro hstored
    generalize he : KktEntry.shift = e at hstored
    cases hstored with
    | hessian =>
      unfold hessianEntry at he
      split at he <;> cases he
    | @shift j p hj hnot hp => exact ⟨j, hj, hnot, hp⟩
    | constraint => cases he
    | dual => cases he
  · rintro ⟨j, hj, hnot, hp⟩
    exact .shift hj hnot hp

/-- A diagonal entry of `P` ends its column. -/
theorem exists_storedAt_hessianDiagonal_iff (hupper : P.csc.isUpper = true) {p : Nat} :
    (∃ k, StoredAt n m P.csc A.csc p (.hessianDiagonal k)) ↔
      ∃ j < n, (P.csc.rows j).getLast? = some j ∧
        (lastPlaces n m P.csc A.csc)[j]? = some p := by
  constructor
  · rintro ⟨k, hstored⟩
    generalize he : KktEntry.hessianDiagonal k = e at hstored
    cases hstored with
    | @hessian s t hj hs =>
      obtain ⟨hlast, hrank⟩ := rank_of_diagonal hupper hs (hessianEntry_eq_diagonal he.symm)
      have hlength := length_hessianColumn P hj
      rw [if_pos hlast] at hlength
      exact ⟨s.2, hj, hlast, getElem?_lastPlaces.mpr
        ⟨_, getElem?_kktColumns_of_lt P.csc A.csc hj, by omega⟩⟩
    | shift => cases he
    | constraint => cases he
    | dual => cases he
  · rintro ⟨j, hj, hlast, hp⟩
    have hjn : j < P.csc.n := by rwa [P.cols_eq]
    obtain ⟨t, ht⟩ := List.mem_iff_getElem?.mp (List.mem_of_getLast? hlast)
    rw [Csc.rows_eq_slots P.valid hjn, List.getElem?_map, Option.map_eq_some_iff] at ht
    obtain ⟨s, hs, hrow⟩ := ht
    obtain rfl : s.2 = j := by simpa using (List.mem_filter.mp (List.mem_of_getElem? hs)).2
    obtain ⟨column, hcolumn, rfl⟩ := getElem?_lastPlaces.mp hp
    have hlength := length_hessianColumn P hj
    have hget := getElem?_kktColumns_of_lt (m := m) P.csc A.csc hj
    rw [hcolumn, Option.some_inj] at hget
    have hrank := (rank_of_diagonal hupper hs hrow).2
    have hstored := StoredAt.hessian (m := m) (A := A.csc) hj hs
    rw [show hessianEntry P.csc s = .hessianDiagonal s.1 from if_pos hrow,
      show t = column.length - 1 by rw [hget, hlength, if_pos hlast]; omega] at hstored
    exact ⟨s.1, hstored⟩

/-- The diagonal of the first columns. -/
theorem recorded_shifted (hupper : P.csc.isUpper = true) {p : Nat} :
    p ∈ (lastPlaces n m P.csc A.csc).take n ↔
      (kktEntries n m P.csc A.csc)[p]? = some .shift ∨
        ∃ k, (kktEntries n m P.csc A.csc)[p]? = some (.hessianDiagonal k) := by
  simp only [getElem?_kktEntries_iff, storedAt_shift_iff,
    exists_storedAt_hessianDiagonal_iff hupper, List.mem_iff_getElem?, List.getElem?_take]
  constructor
  · rintro ⟨j, hj⟩
    split at hj
    · rename_i hjn
      by_cases hlast : (P.csc.rows j).getLast? = some j
      · exact .inr ⟨j, hjn, hlast, hj⟩
      · exact .inl ⟨j, hjn, hlast, hj⟩
    · cases hj
  · rintro (⟨j, hj, -, hp⟩ | ⟨j, hj, -, hp⟩)
    all_goals exact ⟨j, by rwa [if_pos hj]⟩

/-- The diagonal of the other columns. -/
theorem recorded_dual {i p : Nat} : (lastPlaces n m P.csc A.csc)[n + i]? = some p ↔
    (kktEntries n m P.csc A.csc)[p]? = some (.dual i) := by
  rw [getElem?_kktEntries_iff]
  constructor
  · intro hp
    have hlt := (List.getElem?_eq_some_iff.mp hp).1
    refine .dual ?_ hp
    simp only [lastPlaces, List.length_map, List.length_range] at hlt
    omega
  · intro hstored
    generalize he : KktEntry.dual i = e at hstored
    cases hstored with
    | hessian =>
      unfold hessianEntry at he
      split at he <;> cases he
    | shift => cases he
    | constraint => cases he
    | dual hi hp =>
      cases he
      exact hp

/-- Assembling records where everything is stored. -/
theorem assembleStored?_records [Scalar α] (hupper : P.csc.isUpper = true)
    (hroom : n + m < arrayLimit) :
    ∃ M : KktMap, assembleStored? P.csc A.csc
        = some ((assembleKkt n m P.csc A.csc).mapValues fun _ => 0, M) ∧
      M.Records n (kktEntries n m P.csc A.csc) ∧ M.hessian.size = P.csc.nzval.size ∧
      M.constraint.size = A.csc.nzval.size ∧ M.diagonal.size = n + m := by
  obtain ⟨p, a, hassemble, hp, ha⟩ := assembleStored?_eq P A hroom
  refine ⟨_, hassemble, ⟨recorded_hessian hp, recorded_constraint ha, ?_, ?_, ?_⟩,
    ?_, ?_, ?_⟩
  · exact recorded_shifted hupper
  · intro i q
    rw [← recorded_dual, List.getElem?_toArray]
  · exact pairwise_lastPlaces P.csc A.csc
  · rw [hp.size_places, hessianItems, List.length_map, Csc.length_slots P.valid,
      P.valid.nzval_size]
  · rw [ha.size_places, constraintItems, List.length_map, Csc.length_slots A.valid,
      A.valid.nzval_size]
  · simp [lastPlaces]

end Recorded

end QuadOpt
