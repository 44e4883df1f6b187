/-
# Triplets that share a place

Sorted triplets name each place in one run, and merging leaves one triplet of each run: its
value is that of the run, added up from the left. So a matrix assembled from triplets stores
a place iff a triplet names it. This needs no law of arithmetic, and no order of the values:
if some are not numbers, the places are sorted all the same.

Key definitions: `Sorting.Refines`, `Triplet.addTo`, `Triplet.valuesAt`, `Triplet.ofVectors`.
Key theorems: `Sorting.pairwise_mergeSort_of_refines`, `Triplet.mem_merge`,
`Csc.get?_ofTriplets`, `Csc.ofTripletVectors_sums`, `Csc.ofTripletVectors_undefined`.
-/
import QuadOpt.Proofs.Binary64
import QuadOpt.Proofs.Sparse.Assembly

namespace QuadOpt

variable {α : Type} [Scalar α]

/-! ### Sorting by a comparison that refines an order -/

namespace Sorting

/-- What a comparison decides is consistent with an order `R` on the members of a list. -/
def Refines {β : Type} (le : β → β → Bool) (R : β → β → Prop) (xs : List β) : Prop :=
  ∀ x ∈ xs, ∀ y ∈ xs, if le x y then R x y else R y x

variable {β : Type} {le : β → β → Bool} {R : β → β → Prop} {xs ys : List β}

theorem Refines.subset (h : Refines le R xs) (hys : ys ⊆ xs) : Refines le R ys :=
  fun x hx y hy => h x (hys hx) y (hys hy)

theorem pairwise_merge_of_refines (htrans : ∀ {x y z}, R x y → R y z → R x z)
    (hrefines : Refines le R (xs ++ ys)) (hxs : xs.Pairwise R) (hys : ys.Pairwise R) :
    (List.merge xs ys le).Pairwise R := by
  fun_induction List.merge xs ys le with
  | case1 ys => exact hys
  | case2 xs => exact hxs
  | case3 x xs y ys hle ih =>
    obtain ⟨hx, hxs'⟩ := List.pairwise_cons.mp hxs
    obtain ⟨hy, -⟩ := List.pairwise_cons.mp hys
    have hxy : R x y := by simpa [hle] using hrefines x (by simp) y (by simp)
    refine List.pairwise_cons.mpr ⟨fun z hz => ?_, ih (hrefines.subset (by simp)) hxs' hys⟩
    rcases List.mem_merge.mp hz with hz | hz
    · exact hx z hz
    · rcases List.mem_cons.mp hz with rfl | hz
      · exact hxy
      · exact htrans hxy (hy z hz)
  | case4 x xs y ys hle ih =>
    obtain ⟨hx, -⟩ := List.pairwise_cons.mp hxs
    obtain ⟨hy, hys'⟩ := List.pairwise_cons.mp hys
    have hyx : R y x := by simpa [hle] using hrefines x (by simp) y (by simp)
    refine List.pairwise_cons.mpr ⟨fun z hz => ?_, ih (hrefines.subset ?_) hxs hys'⟩
    · rcases List.mem_merge.mp hz with hz | hz
      · rcases List.mem_cons.mp hz with rfl | hz
        · exact hyx
        · exact htrans hyx (hx z hz)
      · exact hy z hz
    · intro z hz
      simp only [List.mem_append, List.mem_cons] at hz ⊢
      tauto

/-- A list is sorted in every order that the comparison refines, even if the comparison is
not itself one. -/
theorem pairwise_mergeSort_of_refines (htrans : ∀ {x y z}, R x y → R y z → R x z)
    (hrefines : Refines le R xs) : (xs.mergeSort le).Pairwise R := by
  fun_induction List.mergeSort xs le with
  | case1 => exact .nil
  | case2 x => exact List.pairwise_singleton R _
  | case3 x y xs le halves _ _ ih₁ ih₂ =>
    have hhalves : halves.1.1 ++ halves.2.1 = x :: y :: xs :=
      List.MergeSort.Internal.splitInTwo_fst_append_splitInTwo_snd ⟨x :: y :: xs, rfl⟩
    rw [← hhalves] at hrefines
    refine pairwise_merge_of_refines htrans (hrefines.subset ?_)
      (ih₁ (hrefines.subset (List.subset_append_left _ _)))
      (ih₂ (hrefines.subset (List.subset_append_right _ _)))
    intro z hz
    rw [List.mem_append, List.mem_mergeSort, List.mem_mergeSort] at hz
    exact List.mem_append.mpr hz

end Sorting

/-! ### Runs -/

namespace Triplet

/-- One more summand. The first one starts the sum. -/
def addTo : Option α → α → Option α
  | none, v => some v
  | some s, v => some (s + v)

/-- The values of the triplets at a place, in turn. -/
def valuesAt (p : Nat × Nat) (ts : List (Triplet α)) : List α :=
  (ts.filter fun t => t.place == p).map val

variable {s t : Triplet α} {p : Nat × Nat} {ts : List (Triplet α)}

omit [Scalar α] in
theorem valuesAt_cons_of_place (h : t.place = p) :
    valuesAt p (t :: ts) = t.val :: valuesAt p ts := by
  simp [valuesAt, h]

omit [Scalar α] in
theorem valuesAt_cons_of_ne (h : t.place ≠ p) : valuesAt p (t :: ts) = valuesAt p ts := by
  simp [valuesAt, h]

omit [Scalar α] in
theorem valuesAt_eq_nil_iff : valuesAt p ts = [] ↔ ∀ t ∈ ts, t.place ≠ p := by
  simp [valuesAt, List.filter_eq_nil_iff]

theorem foldl_addTo_some (s : α) (vs : List α) :
    vs.foldl addTo (some s) = some (vs.foldl (· + ·) s) := by
  induction vs generalizing s with
  | nil => rfl
  | cons v vs ih => exact ih (s + v)

theorem isSome_foldl_addTo (vs : List α) :
    (vs.foldl addTo none).isSome = true ↔ vs ≠ [] := by
  cases vs with
  | nil => simp
  | cons v vs =>
    show (vs.foldl addTo (some v)).isSome = true ↔ _
    rw [foldl_addTo_some]
    simp

/-- The place of `s` is not stored after that of `t`. -/
def NotAfter (s t : Triplet α) : Prop := placeLe s t = true

omit [Scalar α] in
theorem notAfter_iff : NotAfter s t ↔ s.Before t ∨ s.place = t.place := by
  unfold NotAfter placeLe Before place
  rw [decide_eq_true_eq, Prod.mk.injEq]
  omega

omit [Scalar α] in
theorem eq_iff_place_val : t = s ↔ s.place = t.place ∧ s.val = t.val := by
  obtain ⟨i, j, v⟩ := s
  obtain ⟨i', j', v'⟩ := t
  simp only [place, Prod.mk.injEq, Triplet.mk.injEq]
  tauto

omit [Scalar α] in
/-- If the place of `u` is not that of its successor then it does not come again. -/
theorem before_of_ne {u v : Triplet α} (hsorted : (u :: v :: ts).Pairwise NotAfter)
    (hne : u.place ≠ v.place) : ∀ w ∈ v :: ts, u.Before w := by
  obtain ⟨hu, hrest⟩ := List.pairwise_cons.mp hsorted
  have huv : u.Before v := (notAfter_iff.mp (hu v (by simp))).resolve_right hne
  intro w hw
  rcases List.mem_cons.mp hw with rfl | hw
  · exact huv
  · have hvw := (List.pairwise_cons.mp hrest).1 w hw
    rw [NotAfter, placeLe, decide_eq_true_eq] at hvw
    unfold Before at huv ⊢
    omega

omit [Scalar α] in
theorem Before.place_ne (h : s.Before t) : t.place ≠ s.place := by
  intro hplace
  rw [place, place, Prod.mk.injEq] at hplace
  unfold Before at h
  omega

omit [Scalar α] in
theorem place_eq_iff : s.place = t.place ↔ s.row = t.row ∧ s.col = t.col := by
  rw [place, place, Prod.mk.injEq]

omit [Scalar α] in
/-- Sorting looks at the place. -/
theorem pairwise_notAfter_cons_iff {u v : Triplet α} (hplace : u.place = v.place) :
    (u :: ts).Pairwise NotAfter ↔ (v :: ts).Pairwise NotAfter := by
  have hnotAfter : ∀ w, NotAfter u w ↔ NotAfter v w := by
    intro w
    obtain ⟨hrow, hcol⟩ := place_eq_iff.mp hplace
    rw [NotAfter, NotAfter, placeLe, placeLe, hrow, hcol]
  simp only [List.pairwise_cons, hnotAfter]

theorem sorted_of_merged {u v : Triplet α} (hplace : u.row = v.row ∧ u.col = v.col)
    (hsorted : (u :: v :: ts).Pairwise NotAfter) :
    (⟨u.row, u.col, u.val + v.val⟩ :: ts).Pairwise NotAfter :=
  (pairwise_notAfter_cons_iff (v := ⟨u.row, u.col, u.val + v.val⟩)
    (place_eq_iff.mpr hplace).symm).mp (List.pairwise_cons.mp hsorted).2

/-- A triplet is left by merging iff its value is the sum of those at its place. -/
theorem mem_merge (hsorted : ts.Pairwise NotAfter) :
    t ∈ merge ts ↔ (valuesAt t.place ts).foldl addTo none = some t.val := by
  fun_induction merge ts with
  | case1 => simp [valuesAt]
  | case2 u =>
    rw [List.mem_singleton, eq_iff_place_val]
    by_cases hplace : u.place = t.place
    · simp [valuesAt, hplace, addTo]
    · simp [valuesAt, hplace]
  | case3 u v rest hplace ih =>
    have huv : u.place = v.place := place_eq_iff.mpr hplace
    have hplaced : (⟨u.row, u.col, u.val + v.val⟩ : Triplet α).place = u.place := rfl
    rw [ih (sorted_of_merged hplace hsorted)]
    by_cases ht : u.place = t.place
    · rw [valuesAt_cons_of_place (hplaced.trans ht), valuesAt_cons_of_place ht,
        valuesAt_cons_of_place (huv ▸ ht)]
      rfl
    · rw [valuesAt_cons_of_ne (hplaced ▸ ht), valuesAt_cons_of_ne ht,
        valuesAt_cons_of_ne (huv ▸ ht)]
  | case4 u v rest hplace ih =>
    have hbefore := before_of_ne hsorted fun h => hplace (place_eq_iff.mp h)
    rw [List.mem_cons, ih (List.pairwise_cons.mp hsorted).2, eq_iff_place_val]
    by_cases ht : u.place = t.place
    · have hnone : valuesAt t.place (v :: rest) = [] :=
        valuesAt_eq_nil_iff.mpr fun w hw => ht ▸ (hbefore w hw).place_ne
      rw [valuesAt_cons_of_place ht, hnone]
      simp [ht, addTo]
    · rw [valuesAt_cons_of_ne ht]
      simp [ht]

/-- The places that are left are those of the triplets, -/
theorem exists_mem_merge_iff (hsorted : ts.Pairwise NotAfter) :
    (∃ t ∈ merge ts, t.place = p) ↔ ∃ t ∈ ts, t.place = p := by
  have hsome := (isSome_foldl_addTo (valuesAt p ts)).trans (not_congr valuesAt_eq_nil_iff)
  rw [Option.isSome_iff_exists] at hsome
  push Not at hsome
  rw [← hsome]
  constructor
  · rintro ⟨t, ht, rfl⟩
    exact ⟨t.val, (mem_merge hsorted).mp ht⟩
  · rintro ⟨v, hv⟩
    exact ⟨⟨p.1, p.2, v⟩, (mem_merge hsorted).mpr hv, rfl⟩

/-- each of them once, and in order. -/
theorem merge_pairwise_before (hsorted : ts.Pairwise NotAfter) : (merge ts).Pairwise Before := by
  fun_induction merge ts with
  | case1 => exact .nil
  | case2 u => exact List.pairwise_singleton Before u
  | case3 u v rest hplace ih =>
    exact ih (sorted_of_merged hplace hsorted)
  | case4 u v rest hplace ih =>
    have hbefore := before_of_ne hsorted fun h => hplace (place_eq_iff.mp h)
    obtain ⟨-, hrest⟩ := List.pairwise_cons.mp hsorted
    refine List.pairwise_cons.mpr ⟨fun t ht => ?_, ih hrest⟩
    obtain ⟨w, hw, hwt⟩ := (exists_mem_merge_iff hrest).mp ⟨t, ht, rfl⟩
    obtain ⟨hrow, hcol⟩ := place_eq_iff.mp hwt
    have huw := hbefore w hw
    rwa [Before, hrow, hcol] at huw

/-- The comparison looks at the places first, -/
theorem notAfter_of_le (h : le s t = true) : s.NotAfter t := by
  rw [NotAfter, placeLe, decide_eq_true_eq]
  simp only [le, lt, Bool.not_eq_true'] at h
  split at h
  · rw [decide_eq_false_iff_not] at h
    omega
  · split at h
    · rw [decide_eq_false_iff_not] at h
      omega
    · omega

/-- and takes one triplet of any two to be the larger one only if its place is not before. -/
theorem notAfter_of_not_le (h : ¬le s t = true) : t.NotAfter s := by
  rw [NotAfter, placeLe, decide_eq_true_eq]
  simp only [le, lt, Bool.not_eq_true', Bool.not_eq_false] at h
  split at h
  · rw [decide_eq_true_eq] at h
    omega
  · split at h
    · rw [decide_eq_true_eq] at h
      omega
    · omega

/-- Whatever its values are, a list is sorted by its places. -/
theorem mergeSort_notAfter (ts : List (Triplet α)) : (ts.mergeSort le).Pairwise NotAfter := by
  refine Sorting.pairwise_mergeSort_of_refines (fun {s t u} hst htu => ?_) fun s _ t _ => ?_
  · rw [NotAfter, placeLe, decide_eq_true_eq] at hst htu ⊢
    omega
  · split
    · rename_i h
      exact notAfter_of_le h
    · rename_i h
      exact notAfter_of_not_le h

/-- Triplets at different places are sorted strictly. -/
theorem mergeSort_before (hplaces : (ts.map place).Nodup) : (ts.mergeSort le).Pairwise Before := by
  have hnodup : ((ts.mergeSort le).map place).Nodup :=
    ((List.mergeSort_perm ts le).map place).nodup_iff.mpr hplaces
  refine ((mergeSort_notAfter ts).and (List.pairwise_map.mp hnodup)).imp ?_
  rintro s t ⟨hst, hne⟩
  exact (notAfter_iff.mp hst).resolve_right hne

/-- The triplets of three vectors. -/
def ofVectors (I J : Array Nat) (V : Array α) : List (Triplet α) :=
  (I.toList.zip (J.toList.zip V.toList)).map fun e => ⟨e.1, e.2.1, e.2.2⟩

end Triplet

/-! ### Assembly -/

namespace Csc

open Triplet

variable {m n : Nat} {ts : List (Triplet α)}

theorem valid_ofTriplets_of_lt (hrow : ∀ t ∈ ts, t.row < m) (hcol : ∀ t ∈ ts, t.col < n) :
    (ofTriplets m n ts).Valid := by
  have hsorted := mergeSort_notAfter ts
  have hplace : ∀ t ∈ merge (ts.mergeSort le), ∃ u ∈ ts, u.place = t.place := by
    intro t ht
    obtain ⟨u, hu, hplace⟩ := (exists_mem_merge_iff hsorted).mp ⟨t, ht, rfl⟩
    exact ⟨u, List.mem_mergeSort.mp hu, hplace⟩
  refine valid_ofSorted (merge_pairwise_before hsorted) (fun t ht => ?_) fun t ht => ?_
  · obtain ⟨u, hu, hplace⟩ := hplace t ht
    exact (place_eq_iff.mp hplace).1 ▸ hrow u hu
  · obtain ⟨u, hu, hplace⟩ := hplace t ht
    exact (place_eq_iff.mp hplace).2 ▸ hcol u hu

/-- What is stored at a place is the sum of the values there, in the order that they are
sorted in. -/
theorem get?_ofTriplets (hrow : ∀ t ∈ ts, t.row < m) (hcol : ∀ t ∈ ts, t.col < n) (i j : Nat) :
    (ofTriplets m n ts).get? i j = (valuesAt (i, j) (ts.mergeSort le)).foldl addTo none := by
  have hvalid := valid_ofTriplets_of_lt hrow hcol
  have hsorted := mergeSort_notAfter ts
  have hcols : ∀ t ∈ merge (ts.mergeSort le), t.col < n := by
    intro t ht
    obtain ⟨u, hu, hplace⟩ := (exists_mem_merge_iff hsorted).mp ⟨t, ht, rfl⟩
    exact (place_eq_iff.mp hplace).2 ▸ hcol u (List.mem_mergeSort.mp hu)
  ext v
  rw [get?_eq_some_iff hvalid, ofTriplets,
    entries_ofSorted ((merge_pairwise_before hsorted).imp Before.col_le) hcols]
  refine Iff.trans ?_ (mem_merge (t := ⟨i, j, v⟩) hsorted)
  rw [List.mem_map]
  constructor
  · rintro ⟨⟨i, j, v⟩, ht, ⟨⟩⟩
    exact ht
  · exact fun ht => ⟨⟨i, j, v⟩, ht, rfl⟩

/-- A place is stored iff a triplet names it. -/
theorem isSome_get?_ofTriplets (hrow : ∀ t ∈ ts, t.row < m) (hcol : ∀ t ∈ ts, t.col < n)
    (i j : Nat) : ((ofTriplets m n ts).get? i j).isSome = true ↔ ∃ t ∈ ts, t.place = (i, j) := by
  rw [get?_ofTriplets hrow hcol, isSome_foldl_addTo, ne_eq, valuesAt_eq_nil_iff]
  simp only [List.mem_mergeSort]
  push Not
  rfl

/-- Triplets at different places make the same matrix in any order. -/
theorem ofTriplets_eq_of_perm {us : List (Triplet α)} (hperm : ts.Perm us)
    (hplaces : (ts.map place).Nodup) : ofTriplets m n ts = ofTriplets m n us := by
  have hplaces' : (us.map place).Nodup := (hperm.map place).nodup_iff.mp hplaces
  have hsort : (ts.mergeSort le).Perm (us.mergeSort le) :=
    (List.mergeSort_perm ts le).trans (hperm.trans (List.mergeSort_perm us le).symm)
  have heq : ts.mergeSort le = us.mergeSort le := by
    refine List.Perm.eq_of_pairwise (fun s t _ _ hst hts => ?_) (mergeSort_before hplaces)
      (mergeSort_before hplaces') hsort
    unfold Before at hst hts
    omega
  rw [ofTriplets, heq, ofTriplets]

/-! ### Vectors of triplets -/

variable {I J : Array Nat} {V : Array α} {A : Csc α}

/-- The lengths of the vectors agree, and the indices are in range. -/
structure FormsTriplets (m n : Nat) (I J : Array Nat) (V : Array α) : Prop where
  size_cols : I.size = J.size
  size_vals : I.size = V.size
  row_lt : ∀ i ∈ I, i < m
  col_lt : ∀ j ∈ J, j < n

omit [Scalar α] in
theorem any_le_eq_false_iff {k : Nat} {a : Array Nat} :
    a.any (k ≤ ·) = false ↔ ∀ i ∈ a, i < k := by
  rw [Bool.eq_false_iff, Ne, Array.any_eq_true']
  simp

theorem ofTripletVectors_eq (m n : Nat) (I J : Array Nat) (V : Array α) :
    ofTripletVectors m n I J V =
      if I.size ≠ J.size ∨ I.size ≠ V.size then .error .dimensions
      else if I.any (m ≤ ·) then .error .rowRange
      else if J.any (n ≤ ·) then .error .columnRange
      else if arrayLimit ≤ n then .error .tooWide
      else if sortable (ofVectors I J V) then .ok (ofTriplets m n (ofVectors I J V))
      else .error .unsortable := rfl

/-- Triplets are assembled if they are in range, there is room for the pointers, and they can
be sorted. -/
theorem ofTripletVectors_eq_ok_iff : ofTripletVectors m n I J V = .ok A ↔
    FormsTriplets m n I J V ∧ n < arrayLimit ∧ sortable (ofVectors I J V) = true ∧
      ofTriplets m n (ofVectors I J V) = A := by
  rw [ofTripletVectors_eq]
  constructor
  · intro h
    split_ifs at h with hsize hrow hcol hn hsort
    cases h
    rw [not_or, not_ne_iff, not_ne_iff] at hsize
    rw [Bool.not_eq_true, any_le_eq_false_iff] at hrow hcol
    exact ⟨⟨hsize.1, hsize.2, hrow, hcol⟩, Nat.lt_of_not_le hn, hsort, rfl⟩
  · rintro ⟨h, hn, hsort, rfl⟩
    rw [if_neg (by simp [← h.size_cols, ← h.size_vals]),
      if_neg (by rw [any_le_eq_false_iff.mpr h.row_lt]; exact Bool.false_ne_true),
      if_neg (by rw [any_le_eq_false_iff.mpr h.col_lt]; exact Bool.false_ne_true),
      if_neg (Nat.not_le_of_lt hn)]
    exact if_pos hsort

omit [Scalar α] in
/-- The triplets, by their positions. -/
theorem ofVectors_eq_map (h : FormsTriplets m n I J V) [Zero α] :
    ofVectors I J V = (List.range V.size).map fun k =>
      ⟨I.getD k 0, J.getD k 0, V.getD k 0⟩ := by
  have hcols := h.size_cols
  have hvals := h.size_vals
  apply List.ext_getElem
  · simp [ofVectors]
    omega
  · intro k hk hk'
    have hk : k < V.size := by simpa using hk'
    simp [ofVectors, show k < I.size by omega, show k < J.size by omega, hk]

omit [Scalar α] in
/-- The places of the triplets are those that the indices name, -/
theorem exists_mem_ofVectors_iff [Zero α] (h : FormsTriplets m n I J V) {i j : Nat} :
    (∃ t ∈ ofVectors I J V, t.place = (i, j)) ↔ ∃ k : Nat, I[k]? = some i ∧ J[k]? = some j := by
  have hcols := h.size_cols
  have hvals := h.size_vals
  rw [ofVectors_eq_map h]
  constructor
  · rintro ⟨t, ht, hplace⟩
    obtain ⟨k, hk, rfl⟩ := List.mem_map.mp ht
    have hk : k < V.size := List.mem_range.mp hk
    rw [place, Prod.mk.injEq] at hplace
    refine ⟨k, ?_⟩
    simpa [show k < I.size by omega, show k < J.size by omega] using hplace
  · rintro ⟨k, hi, hj⟩
    obtain ⟨hk, -⟩ := Array.getElem?_eq_some_iff.mp hi
    refine ⟨_, List.mem_map.mpr ⟨k, List.mem_range.mpr (hvals ▸ hk), rfl⟩, ?_⟩
    simp [place, hi, hj]

omit [Scalar α] in
/-- and they are in range. -/
theorem ofVectors_lt [Zero α] (h : FormsTriplets m n I J V) :
    ∀ t ∈ ofVectors I J V, t.row < m ∧ t.col < n := by
  intro t ht
  obtain ⟨k, hi, hj⟩ := (exists_mem_ofVectors_iff h).mp ⟨t, ht, rfl⟩
  exact ⟨h.row_lt _ (Array.mem_of_getElem? hi), h.col_lt _ (Array.mem_of_getElem? hj)⟩

theorem sortable_ofVectors (hnumbers : ∀ v ∈ V, Scalar.isNaN v = false) :
    sortable (ofVectors I J V) = true := by
  have hnone : (ofVectors I J V).any (fun t => Scalar.isNaN t.val) = false := by
    rw [List.any_eq_false]
    intro t ht
    obtain ⟨e, he, rfl⟩ := List.mem_map.mp ht
    have hv := (List.of_mem_zip (List.of_mem_zip he).2).2
    rw [hnumbers e.2.2 (Array.mem_def.mpr hv)]
    exact Bool.false_ne_true
  rw [sortable, hnone]
  rfl

end Csc

section Exact

variable {K : Type} [Field K] [LinearOrder K] [ExactScalar K]

open Triplet

theorem Triplet.eq_sum_of_foldl_addTo {vs : List K} {v : K}
    (h : vs.foldl addTo none = some v) : v = vs.sum := by
  have hsum : ∀ (s : K) (vs : List K), vs.foldl (· + ·) s = s + vs.sum := by
    intro s vs
    induction vs generalizing s with
    | nil => simp
    | cons w vs ih => rw [List.foldl_cons, ih, List.sum_cons, add_assoc]
  cases vs with
  | nil => cases h
  | cons w vs =>
    have h : vs.foldl addTo (some w) = some v := h
    rw [foldl_addTo_some, Option.some.injEq] at h
    rw [← h, List.sum_cons]
    exact hsum w vs

omit [LinearOrder K] [ExactScalar K] in
theorem Triplet.sum_valuesAt (p : Nat × Nat) (ts : List (Triplet K)) :
    (valuesAt p ts).sum = (ts.map fun t => if t.place = p then t.val else 0).sum := by
  induction ts with
  | nil => rfl
  | cons t ts ih =>
    by_cases hplace : t.place = p
    · rw [valuesAt_cons_of_place hplace, List.map_cons, List.sum_cons, List.sum_cons, ih,
        if_pos hplace]
    · rw [valuesAt_cons_of_ne hplace, List.map_cons, List.sum_cons, ih, if_neg hplace, zero_add]

/-- In exact arithmetic the order of the summands does not matter. -/
theorem Csc.get?_ofTriplets_exact {m n : Nat} {I J : Array Nat} {V : Array K}
    (h : FormsTriplets m n I J V) {i j : Nat} {v : K}
    (hget : (ofTriplets m n (ofVectors I J V)).get? i j = some v) :
    v = ∑ k ∈ Finset.range V.size,
      if I[k]? = some i ∧ J[k]? = some j then V.getD k 0 else 0 := by
  have hlt := ofVectors_lt h
  rw [get?_ofTriplets (fun t ht => (hlt t ht).1) fun t ht => (hlt t ht).2] at hget
  have hperm : (valuesAt (i, j) ((ofVectors I J V).mergeSort le)).Perm
      (valuesAt (i, j) (ofVectors I J V)) :=
    ((List.mergeSort_perm _ _).filter _).map _
  have hcols := h.size_cols
  have hvals := h.size_vals
  rw [eq_sum_of_foldl_addTo hget, hperm.sum_eq, sum_valuesAt, ofVectors_eq_map h, List.map_map]
  show ((List.range V.size).map _).sum = ((List.range V.size).map _).sum
  congr 1
  apply List.map_congr_left
  intro k hk
  have hk : k < V.size := List.mem_range.mp hk
  simp [place, show k < I.size by omega, show k < J.size by omega]

end Exact

namespace Csc

/-- Whatever is computed with, triplets of numbers are assembled iff they are in range and there
is room for the pointers. The matrix passes the check and stores each place that a triplet
names, once. In exact arithmetic the value at a place is the sum of all triplets there. -/
theorem ofTripletVectors_sums (m n : Nat) (I J : Array Nat) :
    (∀ {α : Type} [Scalar α] (V : Array α), (∀ v ∈ V, Scalar.isNaN v = false) →
      ((∃ A, ofTripletVectors m n I J V = .ok A) ↔ I.size = J.size ∧ I.size = V.size ∧
        (∀ i ∈ I, i < m) ∧ (∀ j ∈ J, j < n) ∧ n < arrayLimit)) ∧
    (∀ {α : Type} [Scalar α] (V : Array α) (A : Csc α), ofTripletVectors m n I J V = .ok A →
      A.m = m ∧ A.n = n ∧ A.validate = .ok () ∧ (A.entries.map fun e => (e.1, e.2.1)).Nodup ∧
      ∀ i j : Nat, (A.get? i j).isSome = true ↔ ∃ k : Nat, I[k]? = some i ∧ J[k]? = some j) ∧
    (∀ {K : Type} [Field K] [LinearOrder K] [ExactScalar K] (V : Array K) (A : Csc K),
      ofTripletVectors m n I J V = .ok A → ∀ i j v, A.get? i j = some v →
        v = ∑ k ∈ Finset.range V.size,
          if I[k]? = some i ∧ J[k]? = some j then V.getD k 0 else 0) := by
  refine ⟨fun V hnumbers => ?_, fun V A hA => ?_, fun V A hA i j v hv => ?_⟩
  · constructor
    · rintro ⟨A, hA⟩
      obtain ⟨h, hn, -⟩ := ofTripletVectors_eq_ok_iff.mp hA
      exact ⟨h.size_cols, h.size_vals, h.row_lt, h.col_lt, hn⟩
    · rintro ⟨hcols, hvals, hrow, hcol, hn⟩
      exact ⟨_, ofTripletVectors_eq_ok_iff.mpr
        ⟨⟨hcols, hvals, hrow, hcol⟩, hn, sortable_ofVectors hnumbers, rfl⟩⟩
  · obtain ⟨h, hn, -, rfl⟩ := ofTripletVectors_eq_ok_iff.mp hA
    have hlt := ofVectors_lt h
    have hvalid := valid_ofTriplets_of_lt (fun t ht => (hlt t ht).1) fun t ht => (hlt t ht).2
    refine ⟨rfl, rfl, validate_of_valid hvalid ?_, nodup_places hvalid, fun i j => ?_⟩
    · show n + 1 < wordSize
      unfold arrayLimit at hn
      unfold wordSize
      omega
    · rw [isSome_get?_ofTriplets (fun t ht => (hlt t ht).1) fun t ht => (hlt t ht).2,
        exists_mem_ofVectors_iff h]
  · obtain ⟨h, -, -, rfl⟩ := ofTripletVectors_eq_ok_iff.mp hA
    exact get?_ofTriplets_exact h hv

/-- Two triplets at one place and one at another. -/
theorem ofTripletVectors_sums_column :
    (∃ A : Csc Float, ofTripletVectors 2 2 #[1, 0, 0] #[0, 0, 0] #[1.0, 3.0, 4.0] = .ok A ∧
      A.validate = .ok () ∧ (A.get? 0 0).isSome = true ∧ (A.get? 1 1).isSome = false) ∧
    ∃ A : Csc ℚ, ofTripletVectors 2 2 #[1, 0, 0] #[0, 0, 0] #[1, 3, 4] = .ok A ∧
      A.get? 0 0 = some 7 := by
  obtain ⟨hassembled, hstored, hsum⟩ := ofTripletVectors_sums 2 2 #[1, 0, 0] #[0, 0, 0]
  have hnumbers : ∀ v ∈ #[(1.0 : Float), 3.0, 4.0], Scalar.isNaN v = false := by
    have hall : #[(1.0 : Float), 3.0, 4.0].all (fun v => !Scalar.isNaN v) = true := by
      decide +kernel
    intro v hv
    simpa using Array.all_eq_true'.mp hall v hv
  obtain ⟨A, hA⟩ := (hassembled #[(1.0 : Float), 3.0, 4.0] hnumbers).mpr (by decide)
  obtain ⟨B, hB⟩ := (hassembled #[(1 : ℚ), 3, 4] fun v _ => isNaN_exact v).mpr (by decide)
  obtain ⟨-, -, hvalidate, -, hplaces⟩ := hstored _ A hA
  obtain ⟨-, -, -, -, hplaces'⟩ := hstored _ B hB
  refine ⟨⟨A, hA, hvalidate, (hplaces 0 0).mpr ⟨1, rfl, rfl⟩, ?_⟩, B, hB, ?_⟩
  · rw [Bool.eq_false_iff, Ne, hplaces 1 1]
    rintro ⟨k, -, hk⟩
    match k with
    | 0 | 1 | 2 => cases hk
    | k + 3 => cases hk
  · obtain ⟨v, hv⟩ := Option.isSome_iff_exists.mp ((hplaces' 0 0).mpr ⟨1, rfl, rfl⟩)
    rw [hv, hsum _ B hB 0 0 v hv]
    decide +kernel

/-- The values of 21 triplets at one place, one of which is not a number. It counts as equal to
all others, by which they have no order. -/
def unorderedValues : Array Float :=
  #[20.0, 19.0, 18.0, 17.0, 16.0, 15.0, 14.0, 13.0, 12.0, 11.0, Scalar.nan, 9.0, 8.0, 7.0, 6.0,
    5.0, 4.0, 3.0, 2.0, 1.0, 0.0]

/-- Triplets in range that are not assembled: the sort meets a contradiction in them. -/
theorem ofTripletVectors_undefined :
    (Array.replicate 21 0).size = unorderedValues.size ∧
    (∀ k ∈ Array.replicate 21 0, k < 1) ∧ 1 < arrayLimit ∧
    ¬∃ A, ofTripletVectors 1 1 (Array.replicate 21 0) (Array.replicate 21 0) unorderedValues
      = .ok A := by
  have hunsortable : Triplet.sortable (Triplet.ofVectors (Array.replicate 21 0) (Array.replicate 21 0)
      unorderedValues) = false := by decide +kernel
  refine ⟨by decide, by simp, by decide, ?_⟩
  rintro ⟨A, hA⟩
  obtain ⟨-, -, hsort, -⟩ := ofTripletVectors_eq_ok_iff.mp hA
  exact Bool.false_ne_true (hunsortable.symm.trans hsort)

end Csc
end QuadOpt
