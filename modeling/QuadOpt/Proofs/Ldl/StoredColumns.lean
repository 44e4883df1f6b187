/-
# Columns read and written in place

A matrix that stores given columns gives each of them back, or its beginning, and a
write to a place of a column stores the column with one entry changed. So the solves
that read the columns of a factor one by one are those with the factor.

Key definitions: `storedColumns`, `Csc.Divided`.
Key theorems: `stretch?_storedColumns`, `columnBelow?_storedColumns`,
`alter?_storedColumns`, `Csc.Divided.exists_columns`, `solveLower?_storedColumns`.
-/
import Mathlib.Data.List.SplitLengths
import QuadOpt.Ldl.Storage
import QuadOpt.Proofs.Sparse.Columns
import QuadOpt.Proofs.Sparse.Placement
import QuadOpt.Proofs.Vec

namespace QuadOpt

variable {α : Type} {n : Nat}

theorem getElem?_toList_get {β : Type} (v : Vector β n) (c : Fin n) :
    v.toList[c.val]? = some (v.get c) := by
  simp [Vec.get_eq_getElem]

theorem toList_put {β : Type} (v : Vector β n) (c : Fin n) (x : β) :
    (Vec.put v c x).toList = v.toList.set c.val x := by
  rw [Vec.put, Vector.toList_set]

/-- A vector is changed in place. -/
theorem alter?_toArray {β : Type} (v : Vector β n) (c : Fin n) (f : β → β) :
    alter? v.toArray c.val f = some (Vec.put v c (f (v.get c))).toArray := by
  rw [alter?_eq_some (by simp) f]
  simp [Vec.put, Vec.get_eq_getElem]

/-- The matrix that stores the given columns. -/
def storedColumns (columns : Vector (List (Fin n × α)) n) : Csc α :=
  .ofColumns n (columns.toList.map (List.map fun e => (e.1.val, e.2)))

theorem cols_storedColumns (L : Vector (List (Fin n × α)) n) : (storedColumns L).n = n := by
  simp [storedColumns, Csc.ofColumns]

section Reads

variable {L : Vector (List (Fin n × α)) n}

theorem toList_rowval_storedColumns (L : Vector (List (Fin n × α)) n) :
    (storedColumns L).rowval.toList = (L.toList.map (List.map fun e => e.1.val)).flatten := by
  simp [storedColumns, Csc.ofColumns, List.map_flatten, Function.comp_def]

theorem toList_nzval_storedColumns (L : Vector (List (Fin n × α)) n) :
    (storedColumns L).nzval.toList = (L.toList.map (List.map Prod.snd)).flatten := by
  simp [storedColumns, Csc.ofColumns, List.map_flatten, Function.comp_def]

theorem eq_storedColumns {M : Csc α} (hm : M.m = n) (hn : M.n = n)
    (hcolptr : M.colptr = pointers (L.toList.map List.length))
    (hrows : M.rowval.toList = (L.toList.map (List.map fun e => e.1.val)).flatten)
    (hvalues : M.nzval.toList = (L.toList.map (List.map Prod.snd)).flatten) :
    M = storedColumns L := by
  rw [← toList_rowval_storedColumns, Array.toList_inj] at hrows
  rw [← toList_nzval_storedColumns, Array.toList_inj] at hvalues
  obtain ⟨m, k, colptr, rowval, nzval⟩ := M
  simp only at hm hn hcolptr hrows hvalues
  rw [hm, hn, hcolptr, hrows, hvalues]
  simp [storedColumns, Csc.ofColumns, Function.comp_def]

theorem offset_map {β γ : Type} (f : β → γ) (M : List (List β)) (c : Nat) :
    offset (M.map (List.map f)) c = offset M c :=
  offset_congr (by simp [Function.comp_def]) c

theorem getElem?_colptr_storedColumns {c : Nat} (h : c ≤ n) :
    (storedColumns L).colptr[c]? = some (offset L.toList c) := by
  rw [storedColumns, Csc.ofColumns, getElem?_pointers_map _ (by simpa using h), offset_map]

theorem start_storedColumns {c : Nat} (h : c ≤ n) :
    (storedColumns L).start c = offset L.toList c := by
  rw [Csc.start, Array.getD_eq_getD_getElem?, getElem?_colptr_storedColumns h]
  rfl

theorem offset_storedColumns_succ (L : Vector (List (Fin n × α)) n) (c : Fin n) :
    offset L.toList (c.val + 1) = offset L.toList c.val + (L.get c).length :=
  offset_succ (getElem?_toList_get L c)

/-- The beginning of a column is a slice of the arrays. -/
theorem slice?_storedColumns {β : Type} (f : Fin n × α → β) {a : Array β}
    (ha : a.toList = (L.toList.map (List.map f)).flatten) (c : Fin n) {t : Nat}
    (ht : t ≤ (L.get c).length) :
    slice? a (offset L.toList c.val) (offset L.toList c.val + t)
      = some (((L.get c).take t).map f) := by
  have hcolumn : (L.toList.map (List.map f))[c.val]? = some ((L.get c).map f) := by
    rw [List.getElem?_map, getElem?_toList_get]
    rfl
  have := slice?_flatten ha hcolumn (t := t) (by rwa [List.length_map])
  rwa [offset_map, ← List.map_take] at this

/-- The beginning of a column is read. -/
theorem stretch?_storedColumns (c : Fin n) {t : Nat} (ht : t ≤ (L.get c).length) :
    (storedColumns L).stretch? n (offset L.toList c.val) (offset L.toList c.val + t)
      = some ((L.get c).take t) := by
  have htyped : ∀ l : List (Fin n × α), ((l.map fun e => e.1.val).zip (l.map Prod.snd)).mapM
      (fun e => if h : e.1 < n then some ((⟨e.1, h⟩ : Fin n), e.2) else none) = some l := by
    intro l
    induction l with
    | nil => rfl
    | cons e l ih => simp [List.mapM_cons, ih]
  rw [Csc.stretch?, slice?_storedColumns _ (toList_rowval_storedColumns L) c ht,
    slice?_storedColumns _ (toList_nzval_storedColumns L) c ht]
  exact htyped _

theorem columnBelow?_storedColumns (c : Fin n) :
    (storedColumns L).columnBelow? n c.val = some (L.get c) := by
  rw [Csc.columnBelow?, getElem?_colptr_storedColumns (Nat.le_of_lt c.isLt),
    getElem?_colptr_storedColumns (Nat.succ_le_of_lt c.isLt), offset_storedColumns_succ]
  have := stretch?_storedColumns c (Nat.le_refl (L.get c).length)
  rwa [List.take_length] at this

end Reads

/-! ### Writes -/

/-- An entry of a column is overwritten. -/
theorem alter?_storedColumns (L : Vector (List (Fin n × α)) n) (c : Fin n) {t : Nat}
    (ht : t < (L.get c).length) (e : Fin n × α) : ∃ nzval rowval,
      alter? (storedColumns L).nzval (offset L.toList c.val + t) (fun _ => e.2) = some nzval ∧
      alter? (storedColumns L).rowval (offset L.toList c.val + t) (fun _ => e.1.val)
        = some rowval ∧
      { storedColumns L with rowval := rowval, nzval := nzval }
        = storedColumns (Vec.put L c ((L.get c).set t e)) := by
  have hcolumn : ∀ {β : Type} (f : Fin n × α → β),
      (L.toList.map (List.map f))[c.val]? = some ((L.get c).map f) := by
    intro β f
    rw [List.getElem?_map, getElem?_toList_get]
    rfl
  obtain ⟨nzval, hnzval, hvalues⟩ := alter?_flatten (toList_nzval_storedColumns L)
    (hcolumn Prod.snd) (t := t) (by rwa [List.length_map]) e.2
  obtain ⟨rowval, hrowval, hrows⟩ := alter?_flatten (toList_rowval_storedColumns L)
    (hcolumn fun e => e.1.val) (t := t) (by rwa [List.length_map]) e.1.val
  rw [offset_map] at hnzval hrowval
  have hlengths : (Vec.put L c ((L.get c).set t e)).toList.map List.length
      = L.toList.map List.length := by
    have hc : c.val < (L.toList.map List.length).length := by simp
    have hget : (L.toList.map List.length)[c.val] = (L.get c).length := by
      simp [Vec.get_eq_getElem]
    rw [toList_put, List.map_set, List.length_set, ← hget, List.set_getElem_self]
  refine ⟨nzval, rowval, hnzval, hrowval, eq_storedColumns rfl ?_ ?_ ?_ ?_⟩
  · simp [storedColumns, Csc.ofColumns]
  · rw [hlengths]
    simp [storedColumns, Csc.ofColumns, Function.comp_def]
  · rw [hrows, toList_put, List.map_set, List.map_set]
  · rw [hvalues, toList_put, List.map_set, List.map_set]

/-! ### Divided arrays -/

namespace Csc

/-- The columns divide the stored entries among themselves, and the rows are in range. In a
column they may come in any order. -/
structure Divided (A : Csc α) : Prop where
  colptr_size : A.colptr.size = A.n + 1
  nzval_size : A.nzval.size = A.rowval.size
  start_zero : A.start 0 = 0
  start_mono : ∀ j < A.n, A.start j ≤ A.start (j + 1)
  start_last : A.start A.n = A.rowval.size
  rows_lt : ∀ i ∈ A.rowval, i < A.m

/-- The lengths of the columns. -/
def lengths (A : Csc α) : List Nat := (List.range A.n).map fun j => A.start (j + 1) - A.start j

namespace Divided

variable {A : Csc α}

/-- The columns before a column take up the positions before its start. -/
theorem sum_take_lengths (h : A.Divided) {k : Nat} (hk : k ≤ A.n) :
    (A.lengths.take k).sum = A.start k := by
  rw [lengths, ← List.map_take, List.take_range, Nat.min_eq_left hk]
  induction k with
  | zero => exact h.start_zero.symm
  | succ k ih =>
    have := h.start_mono k hk
    rw [List.range_succ, List.map_append, List.sum_append, ih (by omega)]
    simp
    omega

theorem colptr_eq (h : A.Divided) : A.colptr = pointers A.lengths := by
  have hcount : A.lengths.length = A.n := by simp [lengths]
  apply Array.ext (by rw [size_pointers, hcount, h.colptr_size])
  intro j hj _
  have hjn : j ≤ A.n := by
    rw [h.colptr_size] at hj
    omega
  have hpointer := getElem?_pointers A.lengths (j := j) (by rwa [hcount])
  rw [← List.sum_eq_foldl, h.sum_take_lengths hjn] at hpointer
  obtain ⟨_, hpointer⟩ := Array.getElem?_eq_some_iff.mp hpointer
  rw [hpointer, start, Array.getD_eq_getD_getElem?, Array.getElem?_eq_getElem hj]
  rfl

/-- All rows and values, with the rows typed. -/
theorem exists_entries (h : A.Divided) (hm : A.m = n) : ∃ entries : List (Fin n × α),
    entries.map (fun e => e.1.val) = A.rowval.toList ∧
      entries.map Prod.snd = A.nzval.toList := by
  have hsize : A.rowval.toList.length = A.nzval.toList.length := by
    rw [Array.length_toList, Array.length_toList, h.nzval_size]
  have hlt : ∀ e ∈ A.rowval.toList.zip A.nzval.toList, e.1 < n := fun e he =>
    hm ▸ h.rows_lt e.1 (Array.mem_toList_iff.mp (List.of_mem_zip he).1)
  refine ⟨(A.rowval.toList.zip A.nzval.toList).pmap (fun e he => (⟨e.1, he⟩, e.2)) hlt, ?_, ?_⟩
  · rw [List.map_pmap, List.pmap_eq_map, List.map_fst_zip (Nat.le_of_eq hsize)]
  · rw [List.map_pmap, List.pmap_eq_map, List.map_snd_zip (Nat.le_of_eq hsize.symm)]

/-- A square matrix whose entries are divided among its columns stores these columns. -/
theorem exists_columns (h : A.Divided) (hm : A.m = n) (hn : A.n = n) :
    ∃ L : Vector (List (Fin n × α)) n, A = storedColumns L := by
  obtain ⟨entries, hrows, hvalues⟩ := h.exists_entries hm
  have hcount : A.lengths.length = n := by simp [lengths, hn]
  have hsum : A.lengths.sum = entries.length := by
    have hall := h.sum_take_lengths (Nat.le_refl A.n)
    rw [List.take_of_length_le (by rw [hcount, hn]), h.start_last] at hall
    rw [hall, ← List.length_map (f := fun e : Fin n × α => e.1.val), hrows, Array.length_toList]
  have hflat : (A.lengths.splitLengths entries).flatten = entries :=
    List.flatten_splitLengths entries A.lengths (Nat.le_of_eq hsum.symm)
  have hlengths : (A.lengths.splitLengths entries).map List.length = A.lengths :=
    List.map_splitLengths_length entries A.lengths (Nat.le_of_eq hsum)
  let L : Vector (List (Fin n × α)) n := ⟨(A.lengths.splitLengths entries).toArray, by
    rw [List.size_toArray, List.length_splitLengths, hcount]⟩
  refine ⟨L, eq_storedColumns hm hn ?_ ?_ ?_⟩
  · rw [h.colptr_eq]
    exact congrArg pointers hlengths.symm
  · rw [← hrows, ← List.map_flatten]
    exact congrArg _ hflat.symm
  · rw [← hvalues, ← List.map_flatten]
    exact congrArg _ hflat.symm

end Divided
end Csc

/-- The rows of a column come as they are stored. -/
theorem rows_storedColumns (L : Vector (List (Fin n × α)) n) (j : Fin n) :
    (storedColumns L).rows j.val = (L.get j).map fun e => e.1.val := by
  have hj : j.val < (L.toList.map (List.map fun e => (e.1.val, e.2))).length := by simp
  rw [storedColumns, Csc.rows_ofColumns hj]
  simp [Vec.get_eq_getElem]

theorem isUpper_storedColumns {L : Vector (List (Fin n × α)) n} :
    (storedColumns L).isUpper = true ↔ ∀ j, ∀ e ∈ L.get j, e.1 ≤ j := by
  rw [Csc.isUpper, cols_storedColumns, ← List.map_coe_finRange_eq_range, List.all_map]
  simp only [List.all_eq_true, List.mem_finRange, forall_const, Function.comp_apply,
    rows_storedColumns, List.mem_map, decide_eq_true_eq]
  constructor
  · exact fun h j e he => h j e.1.val ⟨e, he, rfl⟩
  · rintro h j _ ⟨e, he, rfl⟩
    exact h j e he

theorem divided_storedColumns (L : Vector (List (Fin n × α)) n) : (storedColumns L).Divided where
  colptr_size := by simp [storedColumns, Csc.ofColumns]
  nzval_size := by simp [storedColumns, Csc.ofColumns, Function.comp_def]
  start_zero := start_storedColumns (Nat.zero_le n)
  start_mono j hj := by
    rw [cols_storedColumns] at hj
    rw [start_storedColumns (Nat.le_of_lt hj), start_storedColumns hj]
    exact offset_mono _ (Nat.le_succ j)
  start_last := by
    have hall := offset_length L.toList
    rw [Vector.length_toList] at hall
    rw [cols_storedColumns, start_storedColumns (Nat.le_refl n), hall, ← Array.length_toList,
      toList_rowval_storedColumns, List.length_flatten, List.length_flatten, List.map_map]
    simp [Function.comp_def]
  rows_lt i hi := by
    rw [← Array.mem_toList_iff, toList_rowval_storedColumns] at hi
    obtain ⟨column, hcolumn, hi⟩ := List.mem_flatten.mp hi
    obtain ⟨entries, -, rfl⟩ := List.mem_map.mp hcolumn
    obtain ⟨e, -, rfl⟩ := List.mem_map.mp hi
    exact e.1.isLt

/-- Columns whose rows increase make a well formed matrix. -/
theorem valid_storedColumns {L : Vector (List (Fin n × α)) n}
    (h : ∀ c, ((L.get c).map Prod.fst).Pairwise (· < ·)) : (storedColumns L).Valid := by
  refine Csc.valid_ofColumns (fun column hcolumn e he => ?_) fun column hcolumn => ?_
  · obtain ⟨l, -, rfl⟩ := List.mem_map.mp hcolumn
    obtain ⟨e, -, rfl⟩ := List.mem_map.mp he
    exact e.1.isLt
  · obtain ⟨l, hl, rfl⟩ := List.mem_map.mp hcolumn
    rw [Vec.toList_eq_map_get] at hl
    obtain ⟨c, -, rfl⟩ := List.mem_map.mp hl
    have hrows := h c
    rw [List.pairwise_map] at hrows
    rw [List.map_map, List.pairwise_map]
    exact hrows

/-! ### Solves -/

section Solves

variable [Scalar α] (L : Vector (List (Fin n × α)) n) (b : Vec α n)

theorem solveLower?_storedColumns : (storedColumns L).solveLower? b = some (solveLower L b) := by
  rw [Csc.solveLower?, solveLower]
  simp only [columnBelow?_storedColumns, bind, Option.bind_some]
  exact List.foldlM_pure

theorem solveLowerTranspose?_storedColumns :
    (storedColumns L).solveLowerTranspose? b = some (solveLowerTranspose L b) := by
  rw [Csc.solveLowerTranspose?, solveLowerTranspose]
  simp only [columnBelow?_storedColumns, bind, Option.bind_some]
  exact List.foldlM_pure

end Solves

end QuadOpt
