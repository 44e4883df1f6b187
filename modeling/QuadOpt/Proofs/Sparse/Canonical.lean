/-
# The one form of a matrix

A matrix that passes the check is the only one that does and stores the same values at the same
places: the order of the entries leaves no choice for the arrays. So it is made again from its
entries in whatever order they are given. They name different places, by which they are ordered
whatever their values are, so that sorting them meets no contradiction, even among values that
are not numbers.

Key theorems: `Triplet.sortable_of_nodup`, `Csc.eq_of_entries`, `Csc.ofTripletList_entries`,
`Csc.canonical`.
-/
import QuadOpt.Proofs.Sorting.Order
import QuadOpt.Proofs.Sparse.Products
import QuadOpt.Proofs.Sparse.Reordering
import QuadOpt.Proofs.Sparse.Search
import QuadOpt.Proofs.Sparse.Shape

namespace QuadOpt

variable {α : Type} [Scalar α]

/-! ### Triplets at different places -/

namespace Triplet

variable [OrderedScalar α] {s t : Triplet α} {ts : List (Triplet α)}

omit [Scalar α] [OrderedScalar α] in
theorem places_eq_map_entry (ts : List (Triplet α)) :
    ts.map place = (ts.map entry).map fun e => (e.1, e.2.1) := by
  rw [List.map_map]
  rfl

/-- Triplets at different places are compared by their places. -/
theorem lt_iff_before (hplaces : (ts.map place).Nodup) (hs : s ∈ ts) (ht : t ∈ ts) :
    lt s t = true ↔ s.Before t := by
  by_cases hplace : s.place = t.place
  · -- values are compared at one place only, where there is but one triplet
    obtain rfl : s = t := List.inj_on_of_nodup_map hplaces hs ht hplace
    simp [lt, Before, OrderedScalar.not_lt_self]
  · rw [place_eq_iff] at hplace
    unfold lt Before
    split
    · rw [decide_eq_true_eq]
      omega
    · split
      · rw [decide_eq_true_eq]
        omega
      · omega

theorem weakOrderOn_lt (hplaces : (ts.map place).Nodup) : Sorting.WeakOrderOn lt ts where
  asymm s hs t ht hst := by
    rw [← Bool.not_eq_true, lt_iff_before hplaces ht hs]
    rw [lt_iff_before hplaces hs ht] at hst
    unfold Before at hst ⊢
    omega
  cotrans s hs t ht u hu hsu := by
    rw [lt_iff_before hplaces hs ht, lt_iff_before hplaces ht hu]
    rw [lt_iff_before hplaces hs hu] at hsu
    by_cases hst : s.place = t.place
    · obtain rfl : s = t := List.inj_on_of_nodup_map hplaces hs ht hst
      exact .inr hsu
    · rw [place_eq_iff] at hst
      unfold Before at hsu ⊢
      omega

/-- They can be sorted, whatever their values are. -/
theorem sortable_of_nodup (hplaces : (ts.map place).Nodup) : sortable ts = true := by
  rw [sortable, Sorting.consistent_of_weakOrderOn (weakOrderOn_lt hplaces), Bool.or_true]

end Triplet

namespace Csc

open Triplet

variable {A B : Csc α}

/-! ### Matrices with the same entries -/

omit [Scalar α] in
theorem entries_eq_of_mem_iff (hA : A.Valid) (hB : B.Valid)
    (hmem : ∀ e, e ∈ A.entries ↔ e ∈ B.entries) : A.entries = B.entries := by
  have hnodup : ∀ {C : Csc α}, C.Valid → C.entries.Nodup := fun hC => .of_map _ (nodup_places hC)
  refine List.Perm.eq_of_pairwise (fun e e' _ _ hlt hgt => ?_) (pairwise_entries hA)
    (pairwise_entries hB) ((List.perm_ext_iff_of_nodup (hnodup hA) (hnodup hB)).mpr hmem)
  omega

/-- The values are those of the entries, in storage order. -/
theorem toList_nzval (h : A.Valid) : A.nzval.toList = A.entries.map fun e => e.2.2 := by
  rw [entries_eq_map_slots h, List.map_map, ← map_getD_slots h h.nzval_size 0]
  rfl

/-- A well formed matrix is determined by its dimensions and what it stores. -/
theorem eq_of_entries (hA : A.Valid) (hB : B.Valid) (hm : A.m = B.m) (hn : A.n = B.n)
    (hmem : ∀ e, e ∈ A.entries ↔ e ∈ B.entries) : A = B := by
  have hrows : A.rows = B.rows := by
    funext j
    by_cases hj : j < A.n
    · refine List.Pairwise.eq_of_mem_iff (hA.rows_sorted j hj) (hB.rows_sorted j (hn ▸ hj))
        fun i => ?_
      simp only [← isSome_get?_iff hA, ← isSome_get?_iff hB, Option.isSome_iff_exists,
        get?_eq_some_iff hA, get?_eq_some_iff hB, hmem]
    · rw [rows_of_le hA (Nat.le_of_not_lt hj), rows_of_le hB (hn ▸ Nat.le_of_not_lt hj)]
  have hcolptr := colptr_eq_of_rows_eq hA hB hn hrows
  have hrowval := rowval_eq_of_rows_eq hA hB hn hrows
  have hnzval : A.nzval = B.nzval := Array.toList_inj.mp
    (by rw [toList_nzval hA, toList_nzval hB, entries_eq_of_mem_iff hA hB hmem])
  cases A
  cases B
  simp_all only

theorem eq_of_lookup? (hA : A.Valid) (hB : B.Valid) (hm : A.m = B.m) (hn : A.n = B.n)
    (hlookup : ∀ i < A.m, ∀ j < A.n, A.lookup? i j = B.lookup? i j) : A = B := by
  have hget : ∀ i < A.m, ∀ j < A.n, A.get? i j = B.get? i j := by
    intro i hi j hj
    have h := hlookup i hi j hj
    rw [lookup?_of_valid hA hi hj, lookup?_of_valid hB (hm ▸ hi) (hn ▸ hj)] at h
    exact Option.some.inj h
  refine eq_of_entries hA hB hm hn fun ⟨i, j, v⟩ => ⟨fun he => ?_, fun he => ?_⟩
  · obtain ⟨hi, hj⟩ := entries_lt hA he
    rwa [← get?_eq_some_iff hB, ← hget i hi j hj, get?_eq_some_iff hA]
  · obtain ⟨hi, hj⟩ := entries_lt hB he
    rwa [← get?_eq_some_iff hA, hget i (hm ▸ hi) j (hn ▸ hj), get?_eq_some_iff hB]

/-! ### Entries read and assembled again -/

omit [Scalar α] in
theorem entries?_of_valid (h : A.Valid) : A.entries? = some A.entries := by
  have hcolumns : ((List.range A.n).all fun j =>
      A.start (j + 1) ≤ A.start j || A.readable j) = true := by
    rw [List.all_eq_true]
    intro j hj
    rw [readable_of_valid h (List.mem_range.mp hj), Bool.or_true]
  have hpointers : A.hasPointers = true := by
    rw [hasPointers, h.colptr_size]
    exact decide_eq_true (Nat.le_refl _)
  rw [entries?, hpointers, hcolumns]
  rfl

variable [OrderedScalar α]

/-- A matrix is assembled again from its entries, in any order. -/
theorem ofTripletList_entries (h : A.Valid) (hn : A.n < arrayLimit) {ts : List (Triplet α)}
    (hts : (ts.map Triplet.entry).Perm A.entries) : ofTripletList A.m A.n ts = .ok A := by
  have hplaces : (ts.map place).Nodup := by
    rw [places_eq_map_entry, (hts.map _).nodup_iff]
    exact nodup_places h
  have hlt : ∀ t ∈ ts, t.row < A.m ∧ t.col < A.n := fun t ht =>
    entries_lt h (hts.mem_iff.mp (List.mem_map_of_mem ht))
  have hentries := entries_ofTriplets_perm (m := A.m) OrderedScalar.not_lt_self hplaces
    fun t ht => (hlt t ht).2
  have hvalid := valid_ofTriplets_of_lt (fun t ht => (hlt t ht).1) fun t ht => (hlt t ht).2
  rw [ofTripletList, ofTripletVectors_eq_ok_iff, ofVectors_map]
  refine ⟨⟨by simp, by simp, ?_, ?_⟩, hn, sortable_of_nodup hplaces,
    eq_of_entries hvalid h rfl rfl fun e => (hentries.trans hts).mem_iff⟩
  · simpa using fun t ht => (hlt t ht).1
  · simpa using fun t ht => (hlt t ht).2

/-- The form of a matrix that passes the check is canonical. Its entries are read, and in any
order they make the same arrays again, if an array has room for its pointers; a look-up finds
what the entries say; and it is the only matrix of its dimensions that passes the check and
answers every look-up in this way. Its values need not be numbers. -/
theorem canonical (h : A.validate = .ok ()) :
    ∃ es, A.entries? = some es ∧
      (A.colptr.size ≤ arrayLimit → ∀ ts : List (Triplet α), (ts.map Triplet.entry).Perm es →
        ofTripletList A.m A.n ts = .ok A) ∧
      (∀ i j v, A.lookup? i j = some (some v) ↔ (i, j, v) ∈ es) ∧
      ∀ B : Csc α, B.validate = .ok () → B.m = A.m → B.n = A.n →
        (∀ i < A.m, ∀ j < A.n, B.lookup? i j = A.lookup? i j) → B = A := by
  have hA := valid_of_validate h
  refine ⟨A.entries, entries?_of_valid hA, fun hfits ts hts => ?_, fun i j v => ?_,
    fun B hB hm hn hlookup => ?_⟩
  · rw [hA.colptr_size] at hfits
    exact ofTripletList_entries hA hfits hts
  · rw [← get?_eq_some_iff hA]
    by_cases hplace : i < A.m ∧ j < A.n
    · rw [lookup?_of_valid hA hplace.1 hplace.2, Option.some.injEq]
    · have hrefused : A.lookup? i j = none := if_neg fun hread => hplace ⟨hread.1, hread.2.1⟩
      rw [hrefused, get?_eq_some_iff hA]
      constructor
      · intro hnone
        cases hnone
      · intro he
        exact absurd (entries_lt hA he) hplace
  · exact eq_of_lookup? (valid_of_validate hB) hA hm hn fun i hi j hj =>
      hlookup i (hm ▸ hi) j (hn ▸ hj)

/-- A matrix with an empty column, a zero of negative sign and a value that is not a number. -/
def gappedMatrix : Csc Float :=
  ⟨3, 3, #[0, 2, 2, 3], #[0, 2, 1], #[Scalar.nan, -0.0, 1.5]⟩

theorem canonical_gapped :
    gappedMatrix.validate = .ok () ∧
      ofTripletList 3 3 [⟨2, 0, -0.0⟩, ⟨1, 2, 1.5⟩, ⟨0, 0, Scalar.nan⟩] = .ok gappedMatrix ∧
      gappedMatrix.lookup? 2 0 = some (some (-0.0)) := by
  have hvalidate : gappedMatrix.validate = .ok () := by decide
  obtain ⟨es, hes, hassembled, hfound, -⟩ := canonical hvalidate
  obtain rfl : [(0, 0, Scalar.nan), (2, 0, -0.0), (1, 2, 1.5)] = es := Option.some.inj hes
  refine ⟨hvalidate, hassembled (by decide) _ ?_, (hfound 2 0 _).mpr (by simp)⟩
  exact List.perm_append_singleton (0, 0, Scalar.nan) [(2, 0, -0.0), (1, 2, 1.5)]

end Csc
end QuadOpt
