/-
# What a compressed matrix stores

The entries of a well formed matrix, listed column by column or position by
position. Every position of the arrays belongs to one column, and no place of
the matrix is stored twice.

Key theorems: `Csc.map_fst_slots`, `Csc.entries_eq_map_slots`, `Csc.mem_entries`,
`Csc.nodup_places`, `Csc.get?_eq_some_iff`, `Csc.getElem?_slots_iff`,
`Csc.rows_eq_slots`.
-/
import Mathlib.Data.List.Basic
import Mathlib.Data.List.Nodup
import Mathlib.Data.List.Zip
import QuadOpt.Sparse.Csc

namespace QuadOpt.Csc

variable {α : Type} {A : Csc α}

/-! ### Columns -/

theorem start_le_start_of_mono (hmono : ∀ j < A.n, A.start j ≤ A.start (j + 1)) {i j : Nat}
    (hij : i ≤ j) (hj : j ≤ A.n) : A.start i ≤ A.start j := by
  induction j, hij using Nat.le_induction with
  | base => exact Nat.le_refl _
  | succ k _ ih => exact Nat.le_trans (ih (by omega)) (hmono k (by omega))

theorem start_le_start (h : A.Valid) {i j : Nat} (hij : i ≤ j) (hj : j ≤ A.n) :
    A.start i ≤ A.start j := start_le_start_of_mono h.start_mono hij hj

theorem start_le_size (h : A.Valid) {j : Nat} (hj : j ≤ A.n) : A.start j ≤ A.rowval.size :=
  Nat.le_trans (start_le_start h hj (Nat.le_refl _)) (Nat.le_of_eq h.start_last)

theorem length_rows (h : A.Valid) {j : Nat} (hj : j < A.n) :
    (A.rows j).length = A.start (j + 1) - A.start j := by
  have := start_le_size h (show j + 1 ≤ A.n from hj)
  simp only [rows, Array.length_toList, Array.size_extract]
  omega

theorem length_values (h : A.Valid) {j : Nat} (hj : j < A.n) :
    (A.values j).length = A.start (j + 1) - A.start j := by
  have := start_le_size h (show j + 1 ≤ A.n from hj)
  have := h.nzval_size
  simp only [values, Array.length_toList, Array.size_extract]
  omega

theorem map_fst_column (h : A.Valid) {j : Nat} (hj : j < A.n) :
    (A.column j).map Prod.fst = A.rows j := by
  apply List.map_fst_zip
  rw [length_rows h hj, length_values h hj]

theorem mem_entries {e : Nat × Nat × α} :
    e ∈ A.entries ↔ e.2.1 < A.n ∧ (e.1, e.2.2) ∈ A.column e.2.1 := by
  obtain ⟨i, j, v⟩ := e
  simp only [entries, List.mem_flatMap, List.mem_range, List.mem_map, Prod.mk.injEq]
  constructor
  · rintro ⟨k, hk, ⟨r, w⟩, hmem, rfl, rfl, rfl⟩
    exact ⟨hk, hmem⟩
  · rintro ⟨hj, hmem⟩
    exact ⟨j, hj, (i, v), hmem, rfl, rfl, rfl⟩

theorem le_of_isUpper (h : A.isUpper = true) {e : Nat × Nat × α} (he : e ∈ A.entries) :
    e.1 ≤ e.2.1 := by
  obtain ⟨hj, hmem⟩ := mem_entries.mp he
  simp only [isUpper, List.all_eq_true, List.mem_range, decide_eq_true_eq] at h
  exact h _ hj _ (List.of_mem_zip hmem).1

theorem isUpper_of_le (h : A.Valid) (hle : ∀ e ∈ A.entries, e.1 ≤ e.2.1) : A.isUpper = true := by
  simp only [isUpper, List.all_eq_true, List.mem_range, decide_eq_true_eq]
  intro j hj i hi
  rw [← map_fst_column h hj] at hi
  obtain ⟨⟨r, v⟩, hmem, rfl⟩ := List.mem_map.mp hi
  exact hle (r, j, v) (mem_entries.mpr ⟨hj, hmem⟩)

/-- The places of a well formed matrix are within its dimensions. -/
theorem entries_lt (h : A.Valid) {e : Nat × Nat × α} (he : e ∈ A.entries) :
    e.1 < A.m ∧ e.2.1 < A.n := by
  obtain ⟨hj, hmem⟩ := mem_entries.mp he
  refine ⟨h.rows_lt _ hj _ ?_, hj⟩
  rw [← map_fst_column h hj]
  exact List.mem_map_of_mem hmem

/-- The places are those that the rows of the columns give. -/
theorem places_eq (h : A.Valid) : A.entries.map (fun e => (e.1, e.2.1))
    = (List.range A.n).flatMap fun j => (A.rows j).map fun i => (i, j) := by
  rw [entries, List.map_flatMap]
  apply List.flatMap_congr
  intro j hj
  rw [← map_fst_column h (List.mem_range.mp hj), List.map_map, List.map_map]
  rfl

/-- No place is stored twice. -/
theorem nodup_places (h : A.Valid) : (A.entries.map fun e => (e.1, e.2.1)).Nodup := by
  rw [places_eq h, List.nodup_flatMap]
  constructor
  · intro j hj
    have hrows := (h.rows_sorted j (List.mem_range.mp hj)).imp Nat.ne_of_lt
    exact List.Nodup.map (fun _ _ e => (Prod.mk.inj e).1) hrows
  · refine List.nodup_range.imp ?_
    intro j k hjk p hp hq
    simp only [List.mem_map] at hp hq
    obtain ⟨_, _, rfl⟩ := hp
    obtain ⟨_, _, hq⟩ := hq
    exact hjk (Prod.mk.inj hq).2.symm

/-! ### Places -/

/-- Entries are listed column by column, and by their rows in each column. -/
theorem pairwise_entries (h : A.Valid) :
    A.entries.Pairwise fun e e' => e.2.1 < e'.2.1 ∨ e.2.1 = e'.2.1 ∧ e.1 < e'.1 := by
  rw [entries, List.pairwise_flatMap]
  constructor
  · intro j hj
    have hsorted := h.rows_sorted j (List.mem_range.mp hj)
    rw [← map_fst_column h (List.mem_range.mp hj), List.pairwise_map] at hsorted
    rw [List.pairwise_map]
    exact hsorted.imp fun hlt => .inr ⟨rfl, hlt⟩
  · refine List.pairwise_lt_range.imp fun {j k} hjk e he e' he' => ?_
    obtain ⟨_, _, rfl⟩ := List.mem_map.mp he
    obtain ⟨_, _, rfl⟩ := List.mem_map.mp he'
    exact .inl hjk

/-- The columns with an entry in a row are listed in order. -/
theorem pairwise_columns_of_row (h : A.Valid) (i : Nat) :
    ((A.entries.filter fun e => e.1 == i).map fun e => e.2.1).Pairwise (· < ·) := by
  rw [List.pairwise_map]
  refine ((pairwise_entries h).filter _).imp_of_mem fun {e e'} he he' hlt => ?_
  have hrow : e.1 = i := by simpa using (List.mem_filter.mp he).2
  have hrow' : e'.1 = i := by simpa using (List.mem_filter.mp he').2
  omega

theorem find?_key_eq_some_iff {β : Type} {l : List (Nat × β)} (h : (l.map Prod.fst).Nodup)
    {i : Nat} {e : Nat × β} : (l.find? fun e => e.1 == i) = some e ↔ e ∈ l ∧ e.1 = i := by
  have hkeyed : ∀ {e'}, (l.find? fun e => e.1 == i) = some e' → e'.1 = i := by
    intro e' hfind
    simpa using List.find?_some hfind
  refine ⟨fun hfind => ⟨List.mem_of_find?_eq_some hfind, hkeyed hfind⟩, fun ⟨hmem, hkey⟩ => ?_⟩
  obtain ⟨e', he'⟩ : ∃ e', (l.find? fun e => e.1 == i) = some e' :=
    Option.isSome_iff_exists.mp (List.find?_isSome.mpr ⟨e, hmem, by simp [hkey]⟩)
  have hsame : e'.1 = e.1 := (hkeyed he').trans hkey.symm
  rw [he', List.inj_on_of_nodup_map h (List.mem_of_find?_eq_some he') hmem hsame]

/-- Beyond the last column nothing is stored. -/
theorem rows_of_le (h : A.Valid) {j : Nat} (hj : A.n ≤ j) : A.rows j = [] := by
  have hsize := h.colptr_size
  have hnext : A.start (j + 1) = 0 := by
    simp [start, Array.getD_eq_getD_getElem?, show A.colptr.size ≤ j + 1 by omega]
  simp [rows, hnext]

theorem get?_of_le (h : A.Valid) (i : Nat) {j : Nat} (hj : A.n ≤ j) : A.get? i j = none := by
  simp [get?, column, rows_of_le h hj]

/-- What is stored at a place is found there. -/
theorem get?_eq_some_iff (h : A.Valid) {i j : Nat} {v : α} :
    A.get? i j = some v ↔ (i, j, v) ∈ A.entries := by
  rw [mem_entries]
  by_cases hj : j < A.n
  · have hnodup : ((A.column j).map Prod.fst).Nodup := by
      rw [map_fst_column h hj]
      exact (h.rows_sorted j hj).imp Nat.ne_of_lt
    simp only [get?, Option.map_eq_some_iff, find?_key_eq_some_iff hnodup, hj, true_and]
    constructor
    · rintro ⟨e, ⟨hmem, rfl⟩, rfl⟩
      exact hmem
    · intro hmem
      exact ⟨(i, v), ⟨hmem, rfl⟩, rfl⟩
  · simp [get?_of_le h i (Nat.le_of_not_lt hj), hj]

/-! ### Positions -/

theorem flatMap_range'_start (h : A.Valid) {k : Nat} (hk : k ≤ A.n) :
    ((List.range k).flatMap fun j => List.range' (A.start j) (A.start (j + 1) - A.start j))
      = List.range (A.start k) := by
  induction k with
  | zero => rw [h.start_zero]; rfl
  | succ k ih =>
    have hstep := h.start_mono k hk
    rw [List.range_succ, List.flatMap_append, ih (by omega), List.flatMap_singleton,
      List.range_eq_range', List.range_eq_range']
    rw [show A.start (k + 1) = A.start k + (A.start (k + 1) - A.start k) by omega]
    rw [← List.range'_append_1]
    simp

/-- The slots visit every position once, in order. -/
theorem map_fst_slots (h : A.Valid) : A.slots.map Prod.fst = List.range A.rowval.size := by
  have hcols : A.slots.map Prod.fst
      = (List.range A.n).flatMap fun j => List.range' (A.start j) (A.start (j + 1) - A.start j) := by
    rw [slots, List.map_flatMap]
    apply List.flatMap_congr
    intro j _
    rw [List.map_map]
    exact List.map_id _
  rw [hcols, flatMap_range'_start h (Nat.le_refl _), h.start_last]

theorem extract_eq_map_getD {β : Type} (a : Array β) (d : β) {s t : Nat} (ht : t ≤ a.size) :
    (a.extract s t).toList = (List.range' s (t - s)).map fun k => a.getD k d := by
  apply List.ext_getElem
  · simp
    omega
  · intro k hk hk'
    have hlt : s + k < a.size := by
      simp at hk
      omega
    simp [Array.getElem?_eq_getElem hlt]

/-- The entries, read position by position. -/
theorem entries_eq_map_slots [Zero α] (h : A.Valid) :
    A.entries = A.slots.map fun s => (A.rowval.getD s.1 0, s.2, A.nzval.getD s.1 0) := by
  rw [entries, slots, List.map_flatMap]
  apply List.flatMap_congr
  intro j hj
  have hle : A.start (j + 1) ≤ A.rowval.size := start_le_size h (List.mem_range.mp hj)
  rw [column, rows, values, extract_eq_map_getD A.rowval 0 hle,
    extract_eq_map_getD A.nzval 0 (Nat.le_trans hle (Nat.le_of_eq h.nzval_size.symm)), List.zip_map', List.map_map,
    List.map_map]
  rfl

/-! ### Slots -/

/-- A list that is numbered from zero on has each element at its number. -/
theorem getElem?_of_map_eq_range {σ : Type} {S : List σ} {number : σ → Nat} {size : Nat}
    (h : S.map number = List.range size) {k : Nat} {x : σ} :
    S[k]? = some x ↔ x ∈ S ∧ number x = k := by
  have hnumber : ∀ {k : Nat} {x : σ}, S[k]? = some x → number x = k := by
    intro k x hk
    have hget : (S.map number)[k]? = some (number x) := by
      rw [List.getElem?_map, hk]
      rfl
    rw [h, List.getElem?_eq_some_iff] at hget
    obtain ⟨_, hget⟩ := hget
    rw [← hget, List.getElem_range]
  constructor
  · intro hk
    exact ⟨List.mem_of_getElem? hk, hnumber hk⟩
  · rintro ⟨hx, rfl⟩
    obtain ⟨k, hk⟩ := List.mem_iff_getElem?.mp hx
    rwa [hnumber hk]

theorem nodup_slots (h : A.Valid) : A.slots.Nodup := by
  refine List.Nodup.of_map Prod.fst ?_
  rw [map_fst_slots h]
  exact List.nodup_range

theorem length_slots (h : A.Valid) : A.slots.length = A.rowval.size := by
  rw [← List.length_map (f := Prod.fst), map_fst_slots h, List.length_range]

/-- Slot `k` is position `k`. -/
theorem getElem?_slots_iff (h : A.Valid) {k : Nat} {s : Nat × Nat} :
    A.slots[k]? = some s ↔ s ∈ A.slots ∧ s.1 = k := getElem?_of_map_eq_range (map_fst_slots h)

/-- What an array holds at all positions. -/
theorem map_getD_slots {β : Type} (h : A.Valid) {a : Array β} (ha : a.size = A.rowval.size)
    (d : β) : (A.slots.map fun s => a.getD s.1 d) = a.toList := by
  have hcomp : (A.slots.map fun s => a.getD s.1 d)
      = (A.slots.map Prod.fst).map fun k => a.getD k d := by
    rw [List.map_map]
    rfl
  rw [hcomp, map_fst_slots h]
  apply List.ext_getElem
  · simp [ha]
  · intro k hk _
    have hlt : k < a.size := by simpa [ha] using hk
    simp [hlt]

/-- The rows of all positions. -/
theorem map_row_slots (h : A.Valid) : (A.slots.map fun s => A.rowval.getD s.1 0) = A.rowval.toList :=
  map_getD_slots h rfl 0

theorem slots_lt {s : Nat × Nat} (hs : s ∈ A.slots) : s.2 < A.n := by
  obtain ⟨j, hj, hmem⟩ := List.mem_flatMap.mp hs
  obtain ⟨k, -, rfl⟩ := List.mem_map.mp hmem
  exact List.mem_range.mp hj

theorem filter_flatMap_range {β : Type} (g : Nat → List β) (n j : Nat) :
    (((List.range n).flatMap fun c => (g c).map fun x => (x, c)).filter fun s => s.2 == j)
      = if j < n then (g j).map fun x => (x, j) else [] := by
  induction n with
  | zero => simp
  | succ n ih =>
    rw [List.range_succ, List.flatMap_append, List.filter_append, ih]
    by_cases hn : n = j
    · subst hn
      simp [List.filter_map, Function.comp_def]
    · by_cases hj : j < n
      · simp [hj, hn, List.filter_map, Function.comp_def, show j < n + 1 by omega]
      · simp [hj, hn, List.filter_map, Function.comp_def, show ¬j < n + 1 by omega]

/-- The slots of a column are its positions. -/
theorem filter_slots (j : Nat) : (A.slots.filter fun s => s.2 == j) = if j < A.n then
    (List.range' (A.start j) (A.start (j + 1) - A.start j)).map fun k => (k, j) else [] :=
  filter_flatMap_range (fun c => List.range' (A.start c) (A.start (c + 1) - A.start c)) A.n j

/-- The rows of a column with their positions. -/
theorem zipIdx_rows (h : A.Valid) {j : Nat} (hj : j < A.n) :
    (A.rows j).zipIdx (A.start j)
      = (A.slots.filter fun s => s.2 == j).map fun s => (A.rowval.getD s.1 0, s.1) := by
  have hle : A.start (j + 1) ≤ A.rowval.size := start_le_size h hj
  rw [List.zipIdx_eq_zip_range', length_rows h hj, rows, extract_eq_map_getD A.rowval 0 hle,
    filter_slots, if_pos hj, List.map_map]
  simpa [Function.comp_def] using List.zip_map' (f := fun k => A.rowval.getD k 0) (g := id)
    (l := List.range' (A.start j) (A.start (j + 1) - A.start j))

theorem rows_eq_slots (h : A.Valid) {j : Nat} (hj : j < A.n) : A.rows j
    = (A.slots.filter fun s => s.2 == j).map fun s => A.rowval.getD s.1 0 := by
  have hzip := congrArg (List.map Prod.fst) (zipIdx_rows h hj)
  rwa [List.zipIdx_map_fst, List.map_map] at hzip

theorem row_lt_of_slot (h : A.Valid) {s : Nat × Nat} (hs : s ∈ A.slots) :
    A.rowval.getD s.1 0 < A.m := by
  have hmem : A.rowval.getD s.1 0 ∈ A.rows s.2 := by
    rw [rows_eq_slots h (slots_lt hs)]
    exact List.mem_map_of_mem (List.mem_filter.mpr ⟨hs, beq_self_eq_true s.2⟩)
  exact h.rows_lt s.2 (slots_lt hs) _ hmem

end QuadOpt.Csc
