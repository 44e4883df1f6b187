/-
# Matrices assembled from triplets

Triplets that name each place at most once are sorted and stored as they are:
nothing is added up, and the entries of the matrix are the triplets. The matrix
is well formed if the triplets are within its dimensions.

Key definitions: `Triplet.place`, `Triplet.entry`, `Triplet.Before`.
Key theorems: `Csc.validate_of_valid`, `Csc.entries_ofTriplets_perm`,
`Csc.valid_ofTriplets`, `Csc.ofTriplets_map`.
-/
import QuadOpt.Proofs.Sparse.Entries
import QuadOpt.Sparse.Triplets

namespace QuadOpt

namespace Triplet

variable {α : Type}

/-- The place that a triplet names. -/
def place (t : Triplet α) : Nat × Nat := (t.row, t.col)

/-- A triplet as an entry of a matrix. -/
def entry (t : Triplet α) : Nat × Nat × α := (t.row, t.col, t.val)

/-- The place of `s` is stored before that of `t`. -/
def Before (s t : Triplet α) : Prop := s.col < t.col ∨ s.col = t.col ∧ s.row < t.row

theorem Before.col_le {s t : Triplet α} (h : s.Before t) : s.col ≤ t.col := by
  rcases h with h | ⟨h, _⟩
  · exact Nat.le_of_lt h
  · exact Nat.le_of_eq h

/-! ### Sorting -/

variable [Scalar α]

theorem merge_eq_self {ts : List (Triplet α)} (h : ts.Pairwise Before) : merge ts = ts := by
  fun_induction merge ts with
  | case1 => rfl
  | case2 => rfl
  | case3 s t rest hplace _ =>
    have hbefore : s.Before t := (List.pairwise_cons.mp h).1 t (by simp)
    rcases hbefore with hcol | ⟨_, hrow⟩ <;> omega
  | case4 s t rest _ ih => rw [ih (List.pairwise_cons.mp h).2]

/-- Whether the place of `s` is not stored after that of `t`. -/
def placeLe (s t : Triplet α) : Bool := decide (s.col < t.col ∨ s.col = t.col ∧ s.row ≤ t.row)

/-- Triplets at different places are sorted by their places. -/
theorem mergeSort_le_eq (hirrefl : ∀ a : α, ¬a < a) {ts : List (Triplet α)}
    (hplaces : (ts.map place).Nodup) : ts.mergeSort le = ts.mergeSort placeLe := by
  have hagree : ∀ s ∈ ts, ∀ t ∈ ts, le s t = placeLe (id s) (id t) := by
    intro s hs t ht
    by_cases hplace : s.place = t.place
    · obtain rfl : s = t := List.inj_on_of_nodup_map hplaces hs ht hplace
      simp [le, lt, placeLe, hirrefl]
    · have hne : ¬(t.row = s.row ∧ t.col = s.col) := by
        rintro ⟨hrow, hcol⟩
        exact hplace (by rw [place, place, hrow, hcol])
      rw [Bool.eq_iff_iff]
      simp only [le, lt, placeLe, id, Bool.not_eq_true', decide_eq_true_eq]
      by_cases hcol : t.col = s.col
      · have hrow : t.row ≠ s.row := fun hrow => hne ⟨hrow, hcol⟩
        simp only [hcol, ne_eq, not_true_eq_false, if_false, hrow, not_false_eq_true, if_true,
          decide_eq_false_iff_not, true_and]
        omega
      · simp only [ne_eq, hcol, not_false_eq_true, if_true, decide_eq_false_iff_not]
        omega
  have h := List.map_mergeSort (f := id) (l := ts) hagree
  simpa using h

theorem mergeSort_pairwise_before (hirrefl : ∀ a : α, ¬a < a) {ts : List (Triplet α)}
    (hplaces : (ts.map place).Nodup) : (ts.mergeSort le).Pairwise Before := by
  have hsorted : (ts.mergeSort placeLe).Pairwise fun s t => placeLe s t = true :=
    List.pairwise_mergeSort (fun a b c hab hbc => by
      simp only [placeLe, decide_eq_true_eq] at hab hbc ⊢
      omega)
    (fun a b => by
      simp only [placeLe, Bool.or_eq_true, decide_eq_true_eq]
      omega) ts
  rw [← mergeSort_le_eq hirrefl hplaces] at hsorted
  have hnodup : ((ts.mergeSort le).map place).Nodup :=
    ((List.mergeSort_perm ts le).map place).nodup_iff.mpr hplaces
  have hne : (ts.mergeSort le).Pairwise fun s t => s.place ≠ t.place := List.pairwise_map.mp hnodup
  refine (hsorted.and hne).imp ?_
  rintro s t ⟨hle, hplace⟩
  simp only [placeLe, decide_eq_true_eq] at hle
  rcases hle with hcol | ⟨hcol, hrow⟩
  · exact .inl hcol
  · refine .inr ⟨hcol, Nat.lt_of_le_of_ne hrow fun he => hplace ?_⟩
    rw [place, place, hcol, he]

end Triplet

/-! ### Validation -/

namespace Csc

variable {α : Type}

theorem columnFault_of_valid {A : Csc α} (h : A.Valid) {j : Nat} (hj : j < A.n) :
    A.columnFault j = none := by
  have hlast : (A.rows j).getLast?.any (A.m ≤ ·) = false := by
    cases hrow : (A.rows j).getLast? with
    | none => rfl
    | some i =>
      have hi := h.rows_lt j hj i (List.mem_of_getLast? hrow)
      simpa using hi
  unfold columnFault
  rw [hlast, if_neg (by simp), if_pos (h.rows_sorted j hj)]

/-- The check looks at the pattern only. -/
theorem validate_withValues (A : Csc α) {v : Array α} (hv : v.size = A.nzval.size) :
    validate { A with nzval := v } = A.validate := by
  simp only [validate, hv]
  rfl

/-- A well formed matrix passes the check, if its columns can be counted. -/
theorem validate_of_valid {A : Csc α} (h : A.Valid) (hn : A.n + 1 < wordSize) :
    A.validate = .ok () := by
  have hsize : ¬(A.colptr.size ≠ (A.n + 1) % wordSize ∨ A.rowval.size ≠ A.nzval.size) := by
    rw [Nat.mod_eq_of_lt hn, h.colptr_size, h.nzval_size]
    simp
  have hlast : A.colptr[A.n]? = some A.rowval.size := by
    have hget : A.n < A.colptr.size := by
      rw [h.colptr_size]
      omega
    have hstart := h.start_last
    rw [start, Array.getD_eq_getD_getElem?, Array.getElem?_eq_getElem hget] at hstart
    rw [Array.getElem?_eq_getElem hget]
    exact congrArg some hstart
  have hptr : ¬(A.start 0 ≠ 0 ∨
      (List.range A.n).any (fun j => decide (A.start (j + 1) < A.start j)) = true) := by
    simp only [not_or, ne_eq, not_not, List.any_eq_true, List.mem_range, decide_eq_true_eq,
      not_exists, not_and, Nat.not_lt]
    exact ⟨h.start_zero, h.start_mono⟩
  have hfault : (List.range A.n).findSome? A.columnFault = none := by
    rw [List.findSome?_eq_none_iff]
    intro j hj
    exact columnFault_of_valid h (List.mem_range.mp hj)
  unfold validate
  rw [if_neg hsize, hlast]
  simp only
  rw [if_neg (by simp), if_neg hptr, hfault]

/-! ### Storing sorted triplets -/

/-- A test that earlier columns pass if later ones do divides sorted triplets into
two parts. -/
theorem filter_append_filter_not {ts : List (Triplet α)}
    (h : ts.Pairwise fun s t => s.col ≤ t.col) {p : Triplet α → Bool}
    (hp : ∀ s t : Triplet α, s.col ≤ t.col → p t = true → p s = true) :
    ts.filter p ++ ts.filter (fun t => !p t) = ts := by
  induction ts with
  | nil => rfl
  | cons t ts ih =>
    obtain ⟨hhead, htail⟩ := List.pairwise_cons.mp h
    cases ht : p t with
    | true => simp [ht, ih htail]
    | false =>
      have hrest : ∀ s ∈ ts, p s = false := by
        intro s hs
        by_contra hne
        rw [Bool.not_eq_false] at hne
        rw [hp t s (hhead s hs) hne] at ht
        cases ht
      have hnone : ts.filter p = [] := List.filter_eq_nil_iff.mpr fun s hs => by simp [hrest s hs]
      have hall : ts.filter (fun t => !p t) = ts :=
        List.filter_eq_self.mpr fun s hs => by simp [hrest s hs]
      simp [ht, hnone, hall]

theorem filter_col_lt_succ {ts : List (Triplet α)} (h : ts.Pairwise fun s t => s.col ≤ t.col)
    (j : Nat) :
    ts.filter (fun t => t.col < j + 1)
      = ts.filter (fun t => t.col < j) ++ ts.filter fun t => t.col == j := by
  have hsplit := filter_append_filter_not (h.filter fun t => decide (t.col < j + 1))
    (p := fun t => decide (t.col < j)) fun s t hle ht => by
      simp only [decide_eq_true_eq] at ht ⊢
      omega
  rw [List.filter_filter, List.filter_filter] at hsplit
  rw [← hsplit]
  congr 1
  · apply List.filter_congr
    intro t _
    rw [Bool.eq_iff_iff]
    simp only [Bool.and_eq_true, decide_eq_true_eq]
    omega
  · apply List.filter_congr
    intro t _
    rw [Bool.eq_iff_iff]
    simp only [Bool.and_eq_true, Bool.not_eq_true', decide_eq_true_eq, decide_eq_false_iff_not,
      beq_iff_eq]
    omega

/-- The triplets of column `j` stand together, after those of earlier columns. -/
theorem take_drop_col {ts : List (Triplet α)} (h : ts.Pairwise fun s t => s.col ≤ t.col) (j : Nat) :
    (ts.drop (ts.countP fun t => t.col < j)).take (ts.filter fun t => t.col == j).length
      = ts.filter fun t => t.col == j := by
  have hsplit := filter_append_filter_not h (p := fun t => decide (t.col < j + 1))
    fun s t hle ht => by
      simp only [decide_eq_true_eq] at ht ⊢
      omega
  rw [filter_col_lt_succ h, List.append_assoc] at hsplit
  have hdrop : ts.drop (ts.countP fun t => t.col < j)
      = (ts.filter fun t => t.col == j) ++ ts.filter fun t => !decide (t.col < j + 1) := by
    rw [List.countP_eq_length_filter]
    calc ts.drop (ts.filter fun t => t.col < j).length
        = ((ts.filter fun t => t.col < j) ++ ((ts.filter fun t => t.col == j)
            ++ ts.filter fun t => !decide (t.col < j + 1))).drop
              (ts.filter fun t => t.col < j).length := by rw [hsplit]
      _ = _ := List.drop_left
  rw [hdrop, List.take_left']
  rfl

/-- What the arrays hold between the pointers of column `j`. -/
theorem extract_ofSorted {m n : Nat} {ts : List (Triplet α)}
    (h : ts.Pairwise fun s t => s.col ≤ t.col) {j : Nat} (hj : j < n) {β : Type}
    (f : Triplet α → β) :
    ((ts.map f).toArray.extract ((ofSorted m n ts).start j)
      ((ofSorted m n ts).start (j + 1))).toList = (ts.filter fun t => t.col == j).map f := by
  have hlength : ts.countP (fun t => t.col < j + 1) - ts.countP (fun t => t.col < j)
      = (ts.filter fun t => t.col == j).length := by
    rw [countP_col_lt_succ]
    omega
  rw [start_ofSorted m n ts (Nat.le_of_lt hj), start_ofSorted m n ts hj, Array.toList_extract,
    List.extract_eq_take_drop, hlength, ← List.map_drop, ← List.map_take, take_drop_col h]

/-- Column `j` holds the triplets with that column. -/
theorem column_ofSorted {m n : Nat} {ts : List (Triplet α)}
    (h : ts.Pairwise fun s t => s.col ≤ t.col) {j : Nat} (hj : j < n) :
    (ofSorted m n ts).column j
      = (ts.filter fun t => t.col == j).map fun t => (t.row, t.val) := by
  have hrows : (ofSorted m n ts).rows j = _ := extract_ofSorted h hj Triplet.row
  have hvalues : (ofSorted m n ts).values j = _ := extract_ofSorted h hj Triplet.val
  rw [column, hrows, hvalues, List.zip_map']

theorem entries_ofSorted {m n : Nat} {ts : List (Triplet α)}
    (h : ts.Pairwise fun s t => s.col ≤ t.col) (hcol : ∀ t ∈ ts, t.col < n) :
    (ofSorted m n ts).entries = ts.map Triplet.entry := by
  have hcolumns : ∀ k ≤ n, (List.range k).flatMap (fun j => ts.filter fun t => t.col == j)
      = ts.filter fun t => t.col < k := by
    intro k
    induction k with
    | zero => intro _; simp
    | succ k ih =>
      intro hk
      rw [List.range_succ, List.flatMap_append, ih (by omega), List.flatMap_singleton,
        filter_col_lt_succ h]
  have hall : ts.filter (fun t => decide (t.col < n)) = ts :=
    List.filter_eq_self.mpr fun t ht => by simpa using hcol t ht
  have hlist := hcolumns n (Nat.le_refl n)
  rw [hall] at hlist
  conv_rhs => rw [← hlist]
  rw [entries, List.map_flatMap]
  apply List.flatMap_congr
  intro j hj
  have hj : j < n := List.mem_range.mp hj
  rw [column_ofSorted h hj, List.map_map]
  apply List.map_congr_left
  intro t ht
  have hcol : t.col = j := by simpa using (List.mem_filter.mp ht).2
  simp [Triplet.entry, hcol]

theorem valid_ofSorted {m n : Nat} {ts : List (Triplet α)} (h : ts.Pairwise Triplet.Before)
    (hrow : ∀ t ∈ ts, t.row < m) (hcol : ∀ t ∈ ts, t.col < n) : (ofSorted m n ts).Valid := by
  have hsorted : ts.Pairwise fun s t => s.col ≤ t.col := h.imp Triplet.Before.col_le
  have hrows : ∀ j < n, (ofSorted m n ts).rows j
      = (ts.filter fun t => t.col == j).map Triplet.row :=
    fun j hj => extract_ofSorted hsorted hj Triplet.row
  have hcount : (ts.countP fun t => t.col < n) = ts.length :=
    List.countP_eq_length.mpr fun t ht => by simpa using hcol t ht
  exact {
    colptr_size := by simp [ofSorted]
    nzval_size := by simp [ofSorted]
    start_zero := by
      rw [start_ofSorted m n ts (Nat.zero_le n)]
      simp
    start_mono := fun j hj => by
      have hj : j < n := hj
      rw [start_ofSorted m n ts (Nat.le_of_lt hj), start_ofSorted m n ts hj, countP_col_lt_succ]
      omega
    start_last := (start_ofSorted m n ts (Nat.le_refl n)).trans (by simp [ofSorted, hcount])
    rows_lt := fun j hj i hi => by
      rw [hrows j hj] at hi
      obtain ⟨t, ht, rfl⟩ := List.mem_map.mp hi
      exact hrow t (List.mem_filter.mp ht).1
    rows_sorted := fun j hj => by
      rw [hrows j hj, List.pairwise_map]
      refine (h.filter fun t => t.col == j).imp_of_mem ?_
      intro s t hs ht hbefore
      have hs : s.col = j := by simpa using (List.mem_filter.mp hs).2
      have ht : t.col = j := by simpa using (List.mem_filter.mp ht).2
      rcases hbefore with hlt | ⟨_, hlt⟩
      · omega
      · exact hlt }

/-! ### Assembly -/

variable [Scalar α]

/-- Triplets at different places are stored sorted, and as they are. -/
theorem ofTriplets_eq_ofSorted (hirrefl : ∀ a : α, ¬a < a) (m n : Nat) {ts : List (Triplet α)}
    (hplaces : (ts.map Triplet.place).Nodup) :
    ofTriplets m n ts = ofSorted m n (ts.mergeSort Triplet.le) := by
  rw [ofTriplets, Triplet.merge_eq_self (Triplet.mergeSort_pairwise_before hirrefl hplaces)]

theorem entries_ofTriplets_perm (hirrefl : ∀ a : α, ¬a < a) {m n : Nat} {ts : List (Triplet α)}
    (hplaces : (ts.map Triplet.place).Nodup) (hcol : ∀ t ∈ ts, t.col < n) :
    (ofTriplets m n ts).entries.Perm (ts.map Triplet.entry) := by
  have hperm := List.mergeSort_perm ts Triplet.le
  have hsorted := Triplet.mergeSort_pairwise_before hirrefl hplaces
  rw [ofTriplets_eq_ofSorted hirrefl m n hplaces,
    entries_ofSorted (hsorted.imp Triplet.Before.col_le) fun t ht => hcol t (hperm.mem_iff.mp ht)]
  exact hperm.map Triplet.entry

theorem valid_ofTriplets (hirrefl : ∀ a : α, ¬a < a) {m n : Nat} {ts : List (Triplet α)}
    (hplaces : (ts.map Triplet.place).Nodup) (hrow : ∀ t ∈ ts, t.row < m)
    (hcol : ∀ t ∈ ts, t.col < n) : (ofTriplets m n ts).Valid := by
  have hperm := List.mergeSort_perm ts Triplet.le
  rw [ofTriplets_eq_ofSorted hirrefl m n hplaces]
  exact valid_ofSorted (Triplet.mergeSort_pairwise_before hirrefl hplaces)
    (fun t ht => hrow t (hperm.mem_iff.mp ht)) (fun t ht => hcol t (hperm.mem_iff.mp ht))

/-! ### Other values -/

/-- The matrix with all values carried over into another number system. -/
def mapValues {β : Type} (A : Csc α) (f : α → β) : Csc β :=
  ⟨A.m, A.n, A.colptr, A.rowval, A.nzval.map f⟩

omit [Scalar α] in
theorem Valid.mapValues {β : Type} {A : Csc α} (h : A.Valid) (f : α → β) :
    (A.mapValues f).Valid where
  colptr_size := h.colptr_size
  nzval_size := by
    rw [Csc.mapValues, Array.size_map]
    exact h.nzval_size
  start_zero := h.start_zero
  start_mono := h.start_mono
  start_last := h.start_last
  rows_lt := h.rows_lt
  rows_sorted := h.rows_sorted

end Csc

/-- The triplet with its value carried over. -/
def Triplet.mapValue {α β : Type} (f : α → β) (t : Triplet α) : Triplet β := ⟨t.row, t.col, f t.val⟩

section Map

variable {α β : Type} [Scalar α] [Scalar β] {f : α → β}

theorem Triplet.lt_mapValue (hlt : ∀ x y, f x < f y ↔ x < y) (s t : Triplet α) :
    lt (mapValue f s) (mapValue f t) = lt s t := by
  unfold lt
  by_cases hcol : s.col = t.col
  · by_cases hrow : s.row = t.row
    · simp only [mapValue, hcol, hrow, ne_eq, not_true_eq_false, if_false]
      exact decide_eq_decide.mpr (hlt _ _)
    · simp only [mapValue, hcol, hrow, ne_eq, not_true_eq_false, if_false, not_false_eq_true,
        if_true]
  · simp only [mapValue, hcol, ne_eq, not_false_eq_true, if_true]
    rfl

theorem Triplet.merge_map (hadd : ∀ x y, f (x + y) = f x + f y) (ts : List (Triplet α)) :
    merge (ts.map (mapValue f)) = (merge ts).map (mapValue f) := by
  fun_induction merge ts with
  | case1 => simp [merge]
  | case2 t => simp [merge]
  | case3 s t rest hplace ih =>
    rw [← ih]
    simp only [List.map_cons, mapValue, hadd]
    rw [merge, if_pos hplace]
  | case4 s t rest hplace ih =>
    show merge (mapValue f s :: mapValue f t :: rest.map (mapValue f)) = _
    rw [merge]
    exact (if_neg hplace).trans (congrArg (mapValue f s :: ·) ih)

omit [Scalar α] [Scalar β] in
theorem Csc.ofSorted_map (m n : Nat) (ts : List (Triplet α)) :
    ofSorted m n (ts.map (Triplet.mapValue f)) = (ofSorted m n ts).mapValues f := by
  have hlengths : (group n Triplet.col (ts.map (Triplet.mapValue f))).toList.map List.length
      = (group n Triplet.col ts).toList.map List.length := by
    apply List.ext_getElem
    · simp
    · intro j hj _
      have hj : j < n := by simpa using hj
      have hmap := get_group n Triplet.col (ts.map (Triplet.mapValue f)) ⟨j, hj⟩
      have hget := get_group n Triplet.col ts ⟨j, hj⟩
      rw [Vec.get_eq_getElem] at hmap hget
      simp only [List.getElem_map, Vector.getElem_toList, hmap, hget, List.filter_map,
        List.length_map]
      rfl
  rw [ofSorted, hlengths, mapValues, ofSorted]
  simp [Triplet.mapValue, Function.comp_def]

/-- Assembly commutes with a change of the number system that keeps the order and
sums. -/
theorem Csc.ofTriplets_map (hlt : ∀ x y, f x < f y ↔ x < y) (hadd : ∀ x y, f (x + y) = f x + f y)
    (m n : Nat) (ts : List (Triplet α)) :
    ofTriplets m n (ts.map (Triplet.mapValue f)) = (ofTriplets m n ts).mapValues f := by
  have hsort : (ts.mergeSort Triplet.le).map (Triplet.mapValue f)
      = (ts.map (Triplet.mapValue f)).mergeSort Triplet.le := by
    apply List.map_mergeSort
    intro s _ t _
    rw [Triplet.le, Triplet.le, Triplet.lt_mapValue hlt]
  rw [ofTriplets, ← hsort, Triplet.merge_map hadd, ofSorted_map]
  rfl

end Map
end QuadOpt
