/-
# Triplets in another order

The same triplets make the same matrix in whatever order they are given. The values at a
place are added up in ascending order, so the order of the summands is that of their sizes;
it is left open between zeros of two signs only, which may be exchanged. This is the result
of any sort, stable or not, and it does not need that sums are associative.

Key definitions: `Triplet.Ascends`, `Csc.ofTripletList`.
Key theorems: `Triplet.foldl_addTo_eq_of_perm`, `Triplet.merge_eq_of_perm`,
`Csc.ofTripletList_eq`, `Csc.ofTripletList_perm`.
-/
import QuadOpt.Proofs.Sparse.Merging

namespace QuadOpt

open Scalar OrderedScalar

variable {α : Type} [Scalar α] [SignedZeros α]

namespace Triplet

/-! ### Sums of sorted values -/

/-- Equal summands may be exchanged: they are the same, or zeros. -/
theorem addTo_exchange (s : Option α) {v w : α} (hvw : v ≤ w) (hwv : w ≤ v) :
    addTo (addTo s v) w = addTo (addTo s w) v := by
  rcases SignedZeros.eq_or_zeros hvw hwv with rfl | ⟨hv, hw⟩
  · rfl
  · cases s with
    | none => exact congrArg some (SignedZeros.add_zeros hv hw)
    | some s => exact congrArg some (SignedZeros.add_add_zeros s hv hw)

/-- A summand may be added ahead of equal ones. -/
theorem foldl_addTo_move (s : Option α) {vs ws : List α} {v : α}
    (hvs : ∀ u ∈ vs, u ≤ v ∧ v ≤ u) :
    (vs ++ v :: ws).foldl addTo s = (v :: (vs ++ ws)).foldl addTo s := by
  induction vs generalizing s with
  | nil => rfl
  | cons u vs ih =>
    obtain ⟨⟨huv, hvu⟩, hvs⟩ := List.forall_mem_cons.mp hvs
    calc (vs ++ v :: ws).foldl addTo (addTo s u)
        = (vs ++ ws).foldl addTo (addTo (addTo s u) v) := ih (addTo s u) hvs
      _ = (vs ++ ws).foldl addTo (addTo (addTo s v) u) := by rw [addTo_exchange s huv hvu]

/-- Sorted values have one sum. -/
theorem foldl_addTo_eq_of_perm (s : Option α) {vs ws : List α} (hperm : vs.Perm ws)
    (hvs : vs.Pairwise (· ≤ ·)) (hws : ws.Pairwise (· ≤ ·)) :
    vs.foldl addTo s = ws.foldl addTo s := by
  induction vs generalizing s ws with
  | nil => rw [List.nil_perm.mp hperm]
  | cons v vs ih =>
    obtain ⟨hv, hvs⟩ := List.pairwise_cons.mp hvs
    obtain ⟨before, rest, rfl⟩ := List.append_of_mem (hperm.mem_iff.mp List.mem_cons_self)
    have hrest : vs.Perm (before ++ rest) := (hperm.trans List.perm_middle).cons_inv
    obtain ⟨-, -, hcross⟩ := List.pairwise_append.mp hws
    -- What comes before `v` in the other list is not larger, and not smaller either.
    have hequal : ∀ u ∈ before, u ≤ v ∧ v ≤ u := fun u hu =>
      ⟨hcross u hu v List.mem_cons_self,
        hv u (hrest.mem_iff.mpr (List.mem_append_left rest hu))⟩
    rw [foldl_addTo_move s hequal]
    exact ih (addTo s v) hrest hvs
      (hws.sublist ((List.sublist_cons_self v rest).append_left before))

/-! ### Sorted triplets -/

variable {s t u : Triplet α} {ts us : List (Triplet α)}

/-- The place of `s` is stored before that of `t`, or it is the same and the value of `s` is
not the larger one. -/
def Ascends (s t : Triplet α) : Prop := s.Before t ∨ s.place = t.place ∧ s.val ≤ t.val

theorem Ascends.trans (h : s.Ascends t) (h' : t.Ascends u) : s.Ascends u := by
  unfold Ascends at h h' ⊢
  rw [place_eq_iff] at h h' ⊢
  unfold Before at h h' ⊢
  rcases h with h | ⟨⟨hrow, hcol⟩, hval⟩
  · left
    omega
  · rcases h' with h' | ⟨⟨hrow', hcol'⟩, hval'⟩
    · left
      omega
    · exact .inr ⟨⟨hrow.trans hrow', hcol.trans hcol'⟩, le_trans hval hval'⟩

omit [SignedZeros α] in
theorem Ascends.notAfter (h : s.Ascends t) : s.NotAfter t :=
  notAfter_iff.mpr (h.imp_right And.left)

/-- Numbers are compared as they are ordered. -/
theorem le_iff_ascends (hs : isNaN s.val = false) (ht : isNaN t.val = false) :
    le s t = true ↔ s.Ascends t := by
  have hval : decide (t.val < s.val) = false ↔ s.val ≤ t.val := by
    rw [decide_eq_false_iff_not, not_lt_iff hs ht]
  unfold le lt Ascends
  rw [place_eq_iff, Bool.not_eq_true']
  unfold Before
  split
  · rw [decide_eq_false_iff_not]
    omega
  · rename_i hcol
    split
    · rw [decide_eq_false_iff_not]
      omega
    · rename_i hrow
      rw [hval, not_ne_iff.mp hcol, not_ne_iff.mp hrow]
      simp

theorem ascends_total (hs : isNaN s.val = false) (ht : isNaN t.val = false) :
    s.Ascends t ∨ t.Ascends s := by
  rcases Nat.lt_trichotomy s.col t.col with hcol | hcol | hcol
  · exact .inl (.inl (.inl hcol))
  · rcases Nat.lt_trichotomy s.row t.row with hrow | hrow | hrow
    · exact .inl (.inl (.inr ⟨hcol, hrow⟩))
    · have hplace : s.place = t.place := place_eq_iff.mpr ⟨hrow, hcol⟩
      exact (le_total hs ht).imp (fun h => .inr ⟨hplace, h⟩) fun h => .inr ⟨hplace.symm, h⟩
    · exact .inr (.inl (.inr ⟨hcol.symm, hrow⟩))
  · exact .inr (.inl (.inl hcol))

theorem mergeSort_ascends (hnumbers : ∀ t ∈ ts, isNaN t.val = false) :
    (ts.mergeSort le).Pairwise Ascends := by
  refine Sorting.pairwise_mergeSort_of_refines (fun h h' => h.trans h') fun s hs t ht => ?_
  have hle := le_iff_ascends (hnumbers s hs) (hnumbers t ht)
  split
  · rename_i h
    exact hle.mp h
  · rename_i h
    exact (ascends_total (hnumbers s hs) (hnumbers t ht)).resolve_left (mt hle.mpr h)

omit [SignedZeros α] in
theorem valuesAt_ascend (hts : ts.Pairwise Ascends) (p : Nat × Nat) :
    (valuesAt p ts).Pairwise (· ≤ ·) := by
  unfold valuesAt
  rw [List.pairwise_map]
  refine (hts.filter _).imp_of_mem fun {s t} hs ht hst => ?_
  have hs : s.place = p := by simpa using (List.mem_filter.mp hs).2
  have ht : t.place = p := by simpa using (List.mem_filter.mp ht).2
  rcases hst with hbefore | ⟨-, hval⟩
  · exact absurd (ht.trans hs.symm) hbefore.place_ne
  · exact hval

/-- Sorted triplets are merged to the same, however they were given. -/
theorem merge_eq_of_perm (hperm : ts.Perm us) (hts : ts.Pairwise Ascends)
    (hus : us.Pairwise Ascends) : merge ts = merge us := by
  have hts' := hts.imp Ascends.notAfter
  have hus' := hus.imp Ascends.notAfter
  have hmem : ∀ t, t ∈ merge ts ↔ t ∈ merge us := by
    intro t
    have hvalues : (valuesAt t.place ts).Perm (valuesAt t.place us) := (hperm.filter _).map _
    rw [mem_merge hts', mem_merge hus', foldl_addTo_eq_of_perm none hvalues
      (valuesAt_ascend hts t.place) (valuesAt_ascend hus t.place)]
  have hbefore := merge_pairwise_before hts'
  have hbefore' := merge_pairwise_before hus'
  have hnodup : ∀ {vs : List (Triplet α)}, vs.Pairwise Before → vs.Nodup := fun hvs =>
    hvs.imp fun {s t} hst heq => hst.place_ne (congrArg place heq.symm)
  refine List.Perm.eq_of_pairwise (fun s t _ _ hst hts => ?_) hbefore hbefore'
    ((List.perm_ext_iff_of_nodup (hnodup hbefore) (hnodup hbefore')).mpr hmem)
  unfold Before at hst hts
  omega

end Triplet

/-! ### Assembly -/

namespace Csc

open Triplet

/-- The matrix of a list of triplets, which are given by three vectors. -/
def ofTripletList (m n : Nat) (ts : List (Triplet α)) : Except FormatError (Csc α) :=
  ofTripletVectors m n (ts.map row).toArray (ts.map col).toArray (ts.map val).toArray

omit [Scalar α] [SignedZeros α] in
theorem ofVectors_map (ts : List (Triplet α)) :
    ofVectors (ts.map row).toArray (ts.map col).toArray (ts.map val).toArray = ts := by
  simp [ofVectors, List.zip_map', Function.comp_def]

omit [SignedZeros α] in
/-- Without a value that is not a number, triplets are only refused for their places. -/
theorem ofTripletList_eq {ts : List (Triplet α)} (hnumbers : ∀ t ∈ ts, isNaN t.val = false)
    (m n : Nat) : ofTripletList m n ts =
      if ts.any (m ≤ ·.row) then .error .rowRange
      else if ts.any (n ≤ ·.col) then .error .columnRange
      else if arrayLimit ≤ n then .error .tooWide
      else .ok (ofTriplets m n ts) := by
  have hsortable : sortable ts = true := by
    rw [← ofVectors_map ts]
    exact sortable_ofVectors (by simpa using hnumbers)
  have hrow : (ts.map row).toArray.any (m ≤ ·) = ts.any (m ≤ ·.row) := by
    rw [List.any_toArray, List.any_map]
    rfl
  have hcol : (ts.map col).toArray.any (n ≤ ·) = ts.any (n ≤ ·.col) := by
    rw [List.any_toArray, List.any_map]
    rfl
  rw [ofTripletList, ofTripletVectors_eq, if_neg (by simp), ofVectors_map, hsortable, hrow, hcol]
  rfl

/-- Any sort of the triplets leads to the same matrix. -/
theorem ofSorted_merge_eq {ts us : List (Triplet α)} (m n : Nat) (hperm : us.Perm ts)
    (hus : us.Pairwise Ascends) (hnumbers : ∀ t ∈ ts, isNaN t.val = false) :
    ofSorted m n (merge us) = ofTriplets m n ts := by
  have hsort : us.Perm (ts.mergeSort le) := hperm.trans (List.mergeSort_perm ts le).symm
  rw [ofTriplets, merge_eq_of_perm hsort hus (mergeSort_ascends hnumbers)]

/-- Triplets that are permuted make the same matrix or the same error, and so does any sort of
them that leaves them in the order of the comparison. -/
theorem ofTripletList_perm (m n : Nat) {ts us : List (Triplet α)} (hperm : ts.Perm us)
    (hnumbers : ∀ t ∈ ts, isNaN t.val = false) :
    ofTripletList m n ts = ofTripletList m n us ∧
      ∀ vs : List (Triplet α), vs.Perm ts → (vs.Pairwise fun s t => le s t = true) →
        ofSorted m n (merge vs) = ofTriplets m n us := by
  have hnumbers' : ∀ t ∈ us, isNaN t.val = false := fun t ht => hnumbers t (hperm.mem_iff.mpr ht)
  constructor
  · have hassembled : ofTriplets m n ts = ofTriplets m n us :=
      ofSorted_merge_eq m n ((List.mergeSort_perm ts le).trans hperm)
        (mergeSort_ascends hnumbers) hnumbers'
    rw [ofTripletList_eq hnumbers, ofTripletList_eq hnumbers', hperm.any_eq, hperm.any_eq,
      hassembled]
  · intro vs hvs hsorted
    have hascends : vs.Pairwise Ascends := hsorted.imp_of_mem fun {s t} hs ht hst =>
      (le_iff_ascends (hnumbers s (hvs.mem_iff.mp hs)) (hnumbers t (hvs.mem_iff.mp ht))).mp hst
    exact ofSorted_merge_eq m n (hvs.trans hperm) hascends hnumbers'

/-- Five values whose sum depends on the order of the summands, with zeros of both signs, at one
place and one value at another. -/
def cancellingTriplets : List (Triplet Float) :=
  [⟨0, 0, 1e16⟩, ⟨0, 0, 1.0⟩, ⟨1, 0, 2.0⟩, ⟨0, 0, -1e16⟩, ⟨0, 0, 0.0⟩, ⟨0, 0, -0.0⟩]

theorem ofTripletList_perm_cancelling :
    cancellingTriplets.Perm cancellingTriplets.reverse ∧
      (∀ t ∈ cancellingTriplets, isNaN t.val = false) ∧
      ofTripletList 2 1 cancellingTriplets = ofTripletList 2 1 cancellingTriplets.reverse := by
  have hperm := (List.reverse_perm cancellingTriplets).symm
  have hnumbers : ∀ t ∈ cancellingTriplets, isNaN t.val = false := by
    have hall : cancellingTriplets.all (fun t => !isNaN t.val) = true := by decide +kernel
    simpa using hall
  exact ⟨hperm, hnumbers, (ofTripletList_perm 2 1 hperm hnumbers).1⟩

end Csc
end QuadOpt
