/-
# Assembling the matrix of optimality conditions in place

The entries of the columns have been counted, so every entry has room: the diagonal is
written first, at the end of each column, and `P` and the transpose of `A` are placed
from the beginnings of the columns. What results is the matrix of optimality conditions
in its pattern, with zeros for values.

Key definitions: `diagonalOnly`, `lastPlaces`, `hessianItems`, `constraintItems`.
Key theorems: `kktLengths?_eq`, `overwrite?_diagonal`, `map_fst_kktColumns`,
`distribute?_items`, `assembleStored?_eq`.
-/
import QuadOpt.Admm.KktStorage
import QuadOpt.Proofs.Admm.Kkt
import QuadOpt.Proofs.Sparse.Placement
import QuadOpt.Proofs.Sparse.Search

namespace QuadOpt

/-! ### Columns by slots -/

section Columns

variable {α : Type} {n m : Nat}

/-- What a position of `P` is stored for. -/
def hessianEntry (P : Csc α) (s : Nat × Nat) : KktEntry :=
  if P.rowval.getD s.1 0 = s.2 then .hessianDiagonal s.1 else .hessian s.1

theorem hessianColumn_eq_slots {P : Csc α} (h : P.Valid) {j : Nat} (hj : j < P.n) :
    hessianColumn P j = (P.slots.filter fun s => s.2 == j).map
        (fun s => (P.rowval.getD s.1 0, hessianEntry P s))
      ++ if (P.rows j).getLast? = some j then [] else [(j, .shift)] := by
  rw [hessianColumn, Csc.zipIdx_rows h hj, List.map_map]
  congr 1
  apply List.map_congr_left
  intro s hs
  have hsj : s.2 = j := by simpa using (List.mem_filter.mp hs).2
  simp [hessianEntry, hsj]

theorem constraintColumn_eq_slots (A : Csc α) (i : Fin m) :
    constraintColumn n i ((A.rowSlots m).get i)
      = (A.slots.filter fun s => n + A.rowval.getD s.1 0 == n + i).map
          (fun s => (s.2, .constraint s.1)) ++ [(n + i.val, .dual i)] := by
  rw [constraintColumn, Csc.rowSlots, get_group]
  congr 2
  apply List.filter_congr
  intro s _
  simp

end Columns

/-! ### Assembly -/

section Assembly

variable {α : Type} {n m : Nat} (P : SparseMatrix α n n) (A : SparseMatrix α m n)

theorem length_rowSlots {A : Csc α} (h : A.Valid) (i : Fin m) :
    ((A.rowSlots m).get i).length = A.rowval.toList.count i.val := by
  rw [Csc.rowSlots, get_group, ← Csc.map_row_slots h, List.count_eq_length_filter, List.filter_map,
    List.length_map]
  rfl

/-- The entries of the columns have been counted. -/
theorem kktLengths?_eq :
    kktLengths? P.csc A.csc = some ((kktColumns n m P.csc A.csc).map List.length) := by
  have hrows : ∀ i ∈ A.csc.rowval.toList, i < A.csc.m := by
    intro i hi
    rw [← Csc.map_row_slots A.valid] at hi
    obtain ⟨s, hs, rfl⟩ := List.mem_map.mp hi
    exact Csc.row_lt_of_slot A.valid hs
  obtain ⟨counts, hcounts, hsize, hget⟩ := tally?_eq_some hrows
  unfold kktLengths?
  rw [hcounts]
  simp only [bind, Option.bind_some, pure, Option.some_inj]
  rw [kktColumns, List.map_append, List.map_map, A.cols_eq]
  congr 1
  · apply List.map_congr_left
    intro j _
    rw [Function.comp_apply, ← List.length_map (f := Prod.fst), map_fst_hessianColumn,
      List.length_append]
    congr 1
    split <;> rfl
  · rw [A.rows_eq] at hsize hget
    apply List.ext_getElem
    · simp [hsize]
    · intro i hi _
      have hi : i < m := by simpa [hsize] using hi
      have hcount := length_rowSlots A.valid ⟨i, hi⟩
      have hgeti := hget i hi
      rw [Array.getElem?_eq_getElem (by omega), Option.some_inj] at hgeti
      rw [Vec.get_eq_getElem] at hcount
      simp [constraintColumn, hcount, hgeti]

/-- Lists with the length of the columns, in which the last element is the number of the
list. -/
def diagonalOnly (n m : Nat) (P A : Csc α) : List (List Nat) :=
  (kktColumns n m P A).mapIdx fun c l => List.replicate (l.length - 1) 0 ++ [c]

/-- No column is empty. -/
theorem length_pos_of_kktColumns {P A : Csc α} {column : List (Nat × KktEntry)} {k : Nat}
    (h : (kktColumns n m P A)[k]? = some column) : 0 < column.length := by
  rcases kktColumns_cases h with ⟨_, rfl⟩ | ⟨i, _, rfl⟩
  · rw [← List.length_map (f := Prod.fst), map_fst_hessianColumn]
    by_cases hlast : (P.rows k).getLast? = some k
    · have := List.length_pos_of_mem (List.mem_of_getLast? hlast)
      rw [List.length_append]
      omega
    · simp [hlast]
  · rw [constraintColumn, List.length_append]
    simp

theorem getElem?_diagonalOnly {P A : Csc α} {column : List (Nat × KktEntry)} {k : Nat}
    (h : (kktColumns n m P A)[k]? = some column) :
    (diagonalOnly n m P A)[k]? = some (List.replicate (column.length - 1) 0 ++ [k]) := by
  rw [diagonalOnly, List.getElem?_mapIdx, h]
  rfl

theorem map_length_diagonalOnly (P A : Csc α) :
    (diagonalOnly n m P A).map List.length = (kktColumns n m P A).map List.length := by
  apply List.ext_getElem?
  intro k
  rw [List.getElem?_map, List.getElem?_map, diagonalOnly, List.getElem?_mapIdx]
  cases hk : (kktColumns n m P A)[k]? with
  | none => rfl
  | some column =>
    have := length_pos_of_kktColumns hk
    simp
    omega

/-- The last place of each column. -/
def lastPlaces (n m : Nat) (P A : Csc α) : List Nat :=
  (List.range (n + m)).map fun k => offset (kktColumns n m P A) (k + 1) - 1

theorem offset_eq_last {P A : Csc α} {column : List (Nat × KktEntry)} {k : Nat}
    (h : (kktColumns n m P A)[k]? = some column) :
    offset (kktColumns n m P A) (k + 1) - 1
      = offset (kktColumns n m P A) k + (column.length - 1) := by
  have := offset_succ h
  have := length_pos_of_kktColumns h
  omega

theorem getElem?_lastPlaces {P A : Csc α} {k p : Nat} :
    (lastPlaces n m P A)[k]? = some p ↔ ∃ column, (kktColumns n m P A)[k]? = some column ∧
      p = offset (kktColumns n m P A) k + (column.length - 1) := by
  have hlength := length_kktColumns (n := n) (m := m) P A
  rw [lastPlaces, List.getElem?_map]
  by_cases hk : k < n + m
  · have hget := List.getElem?_eq_getElem (show k < (kktColumns n m P A).length by omega)
    rw [List.getElem?_range hk, Option.map_some, Option.some_inj, offset_eq_last hget]
    constructor
    · rintro rfl
      exact ⟨_, hget, rfl⟩
    · rintro ⟨column, hcolumn, rfl⟩
      rw [hget, Option.some_inj] at hcolumn
      rw [hcolumn]
  · rw [List.getElem?_eq_none (by simpa using hk), List.getElem?_eq_none (by omega)]
    simp

theorem pairwise_lastPlaces (P A : Csc α) : (lastPlaces n m P A).Pairwise (· < ·) := by
  rw [List.pairwise_iff_getElem]
  intro j k hj hk hjk
  obtain ⟨c, hc, hjc⟩ := getElem?_lastPlaces.mp (List.getElem?_eq_getElem hj)
  obtain ⟨d, hd, hkd⟩ := getElem?_lastPlaces.mp (List.getElem?_eq_getElem hk)
  have := offset_succ hc
  have := offset_mono (kktColumns n m P A) (Nat.succ_le_of_lt hjk)
  have := length_pos_of_kktColumns hc
  have := length_pos_of_kktColumns hd
  rw [Nat.succ_eq_add_one] at *
  omega

/-- The diagonal is written first. -/
theorem overwrite?_diagonal (P A : Csc α) :
    ∃ cells, overwrite? (Array.replicate (kktColumns n m P A).flatten.length 0)
        (lastPlaces n m P A).zipIdx = some cells ∧
      cells.toList = (diagonalOnly n m P A).flatten := by
  have hlengths := map_length_diagonalOnly (n := n) (m := m) P A
  have hwrites : ∀ e, e ∈ (lastPlaces n m P A).zipIdx ↔
      ∃ column, (kktColumns n m P A)[e.2]? = some column ∧
        e.1 = offset (kktColumns n m P A) e.2 + (column.length - 1) := by
    intro e
    rw [List.mem_zipIdx_iff_getElem?, getElem?_lastPlaces]
  obtain ⟨cells, hcells, hsize, hwritten, hkept⟩ := overwrite?_eq_some
    (a := Array.replicate (kktColumns n m P A).flatten.length 0)
    (lastPlaces n m P A).zipIdx (fun e he => by
      obtain ⟨column, hcolumn, hplace⟩ := (hwrites e).mp he
      have := offset_add_le hcolumn
      have := length_pos_of_kktColumns hcolumn
      simp only [Array.size_replicate]
      omega) (by
      rw [List.zipIdx_map_fst]
      exact (pairwise_lastPlaces P A).imp Nat.ne_of_lt)
  refine ⟨cells, hcells, toList_eq_flatten ?_ fun k l t x hl ht => ?_⟩
  · rw [hsize, Array.size_replicate, List.length_flatten, List.length_flatten, hlengths]
  have hk : k < (kktColumns n m P A).length := by
    simpa [diagonalOnly] using (List.getElem?_eq_some_iff.mp hl).1
  have hcolumn := List.getElem?_eq_getElem hk
  have hpos := length_pos_of_kktColumns hcolumn
  have hin := offset_add_le hcolumn
  rw [getElem?_diagonalOnly hcolumn, Option.some_inj] at hl
  have htlt : t < (kktColumns n m P A)[k].length := by
    have := (List.getElem?_eq_some_iff.mp ht).1
    simp only [← hl, List.length_append, List.length_replicate, List.length_singleton] at this
    omega
  rw [offset_congr hlengths, ← ht, ← hl]
  by_cases hend : t = (kktColumns n m P A)[k].length - 1
  · rw [hwritten _ k ((hwrites _).mpr ⟨_, hcolumn, by rw [hend]⟩), hend,
      List.getElem?_append_right (by simp)]
    simp
  · have hnot : offset (kktColumns n m P A) k + t ∉ lastPlaces n m P A := by
      intro hmem
      obtain ⟨j, hj⟩ := List.mem_iff_getElem?.mp hmem
      obtain ⟨d, hd, hplace⟩ := getElem?_lastPlaces.mp hj
      have := length_pos_of_kktColumns hd
      obtain ⟨rfl, rfl⟩ := offset_inj hcolumn hd htlt (by omega) hplace
      rw [hcolumn, Option.some_inj] at hd
      exact hend (by rw [hd])
    rw [hkept _ (by rwa [List.zipIdx_map_fst]), List.getElem?_append_left (by simp; omega),
      List.getElem?_replicate, Array.getElem?_replicate, if_pos (by omega), if_pos (by omega)]

/-- The rows of `P`, as they are placed in the columns. -/
def hessianItems (P : Csc α) : List (Nat × Nat) :=
  P.slots.map fun s => (s.2, P.rowval.getD s.1 0)

/-- The columns of `A`, as they are placed in the columns of its rows. -/
def constraintItems (n : Nat) (A : Csc α) : List (Nat × Nat) :=
  A.slots.map fun s => (n + A.rowval.getD s.1 0, s.2)

theorem itemsOf_hessianItems (c : Nat) :
    itemsOf (hessianItems P.csc) c = if c < n then P.csc.rows c else [] := by
  rw [hessianItems, itemsOf_map]
  by_cases hc : c < n
  · rw [if_pos hc, Csc.rows_eq_slots P.valid (by rwa [P.cols_eq])]
  · rw [if_neg hc, Csc.filter_slots, if_neg (by rwa [P.cols_eq]), List.map_nil]

theorem itemsOf_constraintItems_of_lt (A : Csc α) {c : Nat} (hc : c < n) :
    itemsOf (constraintItems n A) c = [] := by
  rw [constraintItems, itemsOf_map, List.filter_eq_nil_iff.mpr, List.map_nil]
  intro s _ hs
  have hs : n + A.rowval.getD s.1 0 = c := by simpa using hs
  omega

/-- What is placed in a column is all but the diagonal, or all of it. -/
theorem map_fst_kktColumns {column : List (Nat × KktEntry)} {k : Nat}
    (h : (kktColumns n m P.csc A.csc)[k]? = some column) :
    column.map Prod.fst = itemsOf (constraintItems n A.csc) k ++ itemsOf (hessianItems P.csc) k
      ++ (List.replicate (column.length - 1) 0 ++ [k]).drop
        (itemsOf (constraintItems n A.csc) k ++ itemsOf (hessianItems P.csc) k).length := by
  rcases kktColumns_cases h with ⟨hk, rfl⟩ | ⟨i, rfl, rfl⟩
  · have hlength : (hessianColumn P.csc k).length = (P.csc.rows k).length
        + (if (P.csc.rows k).getLast? = some k then [] else [k]).length := by
      rw [← List.length_map (f := Prod.fst), map_fst_hessianColumn, List.length_append]
    rw [map_fst_hessianColumn, itemsOf_constraintItems_of_lt A.csc hk, itemsOf_hessianItems P k,
      if_pos hk, List.nil_append]
    congr 1
    by_cases hlast : (P.csc.rows k).getLast? = some k
    · have hpos := List.length_pos_of_mem (List.mem_of_getLast? hlast)
      rw [if_pos hlast] at hlength ⊢
      rw [List.drop_of_length_le]
      simp at hlength ⊢
      omega
    · rw [if_neg hlast] at hlength ⊢
      rw [hlength]
      simp
  · rw [constraintColumn_eq_slots, itemsOf_hessianItems P, if_neg (by omega), constraintItems,
      itemsOf_map, List.append_nil]
    simp

theorem fits_kktColumns {c : Nat} {l : List Nat} (hl : (diagonalOnly n m P.csc A.csc)[c]? = some l) :
    (itemsOf (constraintItems n A.csc) c ++ itemsOf (hessianItems P.csc) c).length ≤ l.length := by
  have hc : c < (kktColumns n m P.csc A.csc).length := by
    simpa [diagonalOnly] using (List.getElem?_eq_some_iff.mp hl).1
  have hcolumn := List.getElem?_eq_getElem hc
  have hpos := length_pos_of_kktColumns hcolumn
  have hrows := congrArg List.length (map_fst_kktColumns P A hcolumn)
  rw [getElem?_diagonalOnly hcolumn, Option.some_inj] at hl
  rw [← hl]
  simp only [List.length_map, List.length_append, List.length_drop, List.length_replicate,
    List.length_singleton] at hrows ⊢
  omega

/-- What the rows are when all is placed. -/
theorem overlay_diagonalOnly :
    overlay (itemsOf (constraintItems n A.csc))
        (overlay (itemsOf (hessianItems P.csc)) (diagonalOnly n m P.csc A.csc))
      = (kktColumns n m P.csc A.csc).map (List.map Prod.fst) := by
  rw [overlay_overlay]
  · apply List.ext_getElem?
    intro k
    cases hk : (kktColumns n m P.csc A.csc)[k]? with
    | none =>
      rw [List.getElem?_map, hk, overlay, List.getElem?_mapIdx, diagonalOnly,
        List.getElem?_mapIdx, hk]
      rfl
    | some column =>
      rw [getElem?_overlay (getElem?_diagonalOnly hk), List.getElem?_map, hk, Option.map_some,
        map_fst_kktColumns P A hk]
  · intro c
    by_cases hc : c < n
    · exact .inl (itemsOf_constraintItems_of_lt A.csc hc)
    · rw [itemsOf_hessianItems, if_neg hc]
      exact .inr rfl

/-- There is room for the rows of `P`, and for those that come with `A`. -/
theorem fits_items : Fits (itemsOf (hessianItems P.csc)) (diagonalOnly n m P.csc A.csc) ∧
    Fits (itemsOf (constraintItems n A.csc)) (diagonalOnly n m P.csc A.csc) := by
  refine ⟨fun c l hl => ?_, fun c l hl => ?_⟩
  all_goals
    have := fits_kktColumns P A hl
    rw [List.length_append] at this
    omega

/-- The pointers say where the columns start in which only the diagonal is written. -/
theorem getElem?_pointers_diagonalOnly (P A : Csc α) {k : Nat} (hk : k ≤ n + m) :
    (pointers ((kktColumns n m P A).map List.length))[k]?
      = some (offset (diagonalOnly n m P A) k) := by
  rw [getElem?_pointers_map _ (by rwa [length_kktColumns]),
    offset_congr (map_length_diagonalOnly P A)]

/-- The rows of `P` are placed in the columns, then those that come with `A`. -/
theorem distribute?_items {cells : Array Nat}
    (hcells : cells.toList = (diagonalOnly n m P.csc A.csc).flatten) :
    ∃ p a : Placement Nat,
      distribute? (pointers ((kktColumns n m P.csc A.csc).map List.length)) cells
        (hessianItems P.csc) = some p ∧
      distribute? (pointers ((kktColumns n m P.csc A.csc).map List.length)) p.cells
        (constraintItems n A.csc) = some a ∧
      p.Holds (diagonalOnly n m P.csc A.csc) (hessianItems P.csc) ∧
      a.Holds (overlay (itemsOf (hessianItems P.csc)) (diagonalOnly n m P.csc A.csc))
        (constraintItems n A.csc) := by
  have hcount : (diagonalOnly n m P.csc A.csc).length = n + m := by
    rw [← List.length_map (f := List.length), map_length_diagonalOnly, List.length_map,
      length_kktColumns]
  obtain ⟨hfitsP, hfitsA⟩ := fits_items P A
  obtain ⟨p, hp, hpHolds⟩ := distribute?_holds (hessianItems P.csc)
    (fun c hc => getElem?_pointers_diagonalOnly P.csc A.csc (by omega)) hcells (fun e he => by
      obtain ⟨s, hs, rfl⟩ := List.mem_map.mp he
      have := Csc.slots_lt hs
      rw [P.cols_eq] at this
      simp only
      omega) hfitsP
  obtain ⟨a, ha, haHolds⟩ := distribute?_holds (constraintItems n A.csc)
    (fun c hc => by
      rw [length_overlay] at hc
      rw [offset_congr hfitsP.map_length]
      exact getElem?_pointers_diagonalOnly P.csc A.csc (by omega)) hpHolds.cells (fun e he => by
      obtain ⟨s, hs, rfl⟩ := List.mem_map.mp he
      have hrow := Csc.row_lt_of_slot A.valid hs
      rw [A.rows_eq] at hrow
      rw [length_overlay]
      simp only
      omega) (hfitsP.overlay hfitsA)
  exact ⟨p, a, hp, ha, hpHolds, haHolds⟩

theorem nzval_mapValues_zero [Zero α] (P A : Csc α) :
    (assembleKkt n m P A).nzval.map (fun _ => (0 : α))
      = Array.replicate (kktColumns n m P A).flatten.length 0 := by
  apply Array.ext
  · rw [Array.size_map, Array.size_replicate, assembleKkt, Csc.ofColumns, List.size_toArray,
      List.length_map]
  · intro k _ _
    rw [Array.getElem_map, Array.getElem_replicate]

/-- The matrix is assembled in its pattern, and each entry of `P` and `A` is where its
place is recorded. -/
theorem assembleStored?_eq [Scalar α] (hroom : n + m < arrayLimit) :
    ∃ p a : Placement Nat, assembleStored? P.csc A.csc
        = some ((assembleKkt n m P.csc A.csc).mapValues fun _ => 0,
          ⟨p.places, a.places, (lastPlaces n m P.csc A.csc).toArray⟩) ∧
      p.Holds (diagonalOnly n m P.csc A.csc) (hessianItems P.csc) ∧
      a.Holds (overlay (itemsOf (hessianItems P.csc)) (diagonalOnly n m P.csc A.csc))
        (constraintItems n A.csc) := by
  have hlengths := map_length_diagonalOnly (n := n) (m := m) P.csc A.csc
  obtain ⟨cells, hcells, hdiagonal⟩ := overwrite?_diagonal (n := n) (m := m) P.csc A.csc
  obtain ⟨p, a, hp, ha, hpHolds, haHolds⟩ := distribute?_items P A hdiagonal
  refine ⟨p, a, ?_, hpHolds, haHolds⟩
  have hnnz : (pointers ((kktColumns n m P.csc A.csc).map List.length))[n + m]?
      = some (kktColumns n m P.csc A.csc).flatten.length := by
    rw [getElem?_pointers_map _ (by rw [length_kktColumns]), ← length_kktColumns P.csc A.csc,
      offset_length]
  have hlast : (List.range (n + m)).map (fun k =>
        (pointers ((kktColumns n m P.csc A.csc).map List.length)).getD (k + 1) 0 - 1)
      = lastPlaces n m P.csc A.csc := by
    apply List.map_congr_left
    intro k hk
    rw [Array.getD_eq_getD_getElem?, getElem?_pointers_diagonalOnly _ _ (List.mem_range.mp hk),
      Option.getD_some, offset_congr hlengths]
  have hrowval : a.cells = (assembleKkt n m P.csc A.csc).rowval := by
    rw [← Array.toList_inj, haHolds.cells, overlay_diagonalOnly, assembleKkt, Csc.ofColumns,
      List.toList_toArray, List.map_flatten]
  unfold assembleStored?
  rw [A.cols_eq, A.rows_eq, if_pos hroom, kktLengths?_eq]
  simp only [bind, Option.bind_some, hnnz, hlast, hcells]
  simp only [hessianItems, constraintItems] at hp ha
  simp only [hp, ha, Option.bind_some, hrowval, pure, Option.some_inj]
  rw [Csc.mapValues, nzval_mapValues_zero]
  simp [assembleKkt, Csc.ofColumns, length_kktColumns]

end Assembly

end QuadOpt
