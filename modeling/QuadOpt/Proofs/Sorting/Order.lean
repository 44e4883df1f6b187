/-
# Sorting by an order meets no contradiction

If the comparison orders the elements of a list, up to elements of which neither goes first,
then sorting the list notices nothing. Halves are arranged in ascending order, and two ascending
lists are merged in one way only: where a merge is cut in two, the elements before the cut are
decided by how many they are. So it does not matter from which end the merge is taken, and the
two ends meet. Splitting a list only moves its elements, which the comparison still orders.

Key definitions: `Sorting.WeakOrderOn`, `Sorting.Ascending`, `Sorting.Cut`.
Key theorems: `Sorting.arrange_ascending`, `Sorting.Cut.mono`, `Sorting.cut_countFront`,
`Sorting.endsMeet_of_ascending`, `Sorting.consistent_of_weakOrderOn`.
-/
import Mathlib.Data.List.Basic
import QuadOpt.Sorting.Consistency

namespace QuadOpt.Sorting

variable {α : Type} {lt : α → α → Bool}

/-- The comparison orders the members of a list, up to members of which neither goes first: no
two go before each other, and a third one goes after the first or before the last of two that
are in order. -/
structure WeakOrderOn (lt : α → α → Bool) (xs : List α) : Prop where
  asymm : ∀ a ∈ xs, ∀ b ∈ xs, lt a b = true → lt b a = false
  cotrans : ∀ a ∈ xs, ∀ b ∈ xs, ∀ c ∈ xs, lt a c = true → lt a b = true ∨ lt b c = true

/-- No element goes before an earlier one. -/
def Ascending (lt : α → α → Bool) (xs : List α) : Prop := xs.Pairwise fun a b => lt b a = false

/-- No element goes before a later one. -/
def Descending (lt : α → α → Bool) (xs : List α) : Prop := xs.Pairwise fun a b => lt a b = false

theorem ascending_reverse {xs : List α} (h : Descending lt xs) : Ascending lt xs.reverse :=
  List.pairwise_reverse.mpr h

namespace WeakOrderOn

variable {xs ys : List α} {a b c : α}

theorem subset (h : WeakOrderOn lt xs) (hys : ys ⊆ xs) : WeakOrderOn lt ys where
  asymm a ha b hb := h.asymm a (hys ha) b (hys hb)
  cotrans a ha b hb c hc := h.cotrans a (hys ha) b (hys hb) c (hys hc)

theorem perm (h : WeakOrderOn lt xs) (hys : ys.Perm xs) : WeakOrderOn lt ys :=
  h.subset fun _ => hys.mem_iff.mp

/-- The opposite order. -/
theorem flip (h : WeakOrderOn lt xs) : WeakOrderOn (fun a b => lt b a) xs where
  asymm a ha b hb := h.asymm b hb a ha
  cotrans a ha b hb c hc hca := (h.cotrans c hc b hb a ha hca).symm

/-- What does not go before what does not go before a third does not go before it. -/
theorem not_trans (h : WeakOrderOn lt xs) (ha : a ∈ xs) (hb : b ∈ xs) (hc : c ∈ xs)
    (hab : lt a b = false) (hbc : lt b c = false) : lt a c = false := by
  by_contra hac
  rw [Bool.not_eq_false] at hac
  rcases h.cotrans a ha b hb c hc hac with h | h
  · exact Bool.false_ne_true (hab.symm.trans h)
  · exact Bool.false_ne_true (hbc.symm.trans h)

end WeakOrderOn

/-! ### Arranging -/

section Arrange

variable {x : α} {xs ys : List α}

/-- An element is inserted where it belongs. -/
theorem insertDown_descending (h : WeakOrderOn lt (x :: ys)) (hys : Descending lt ys) :
    Descending lt (insertDown lt x ys) := by
  induction ys with
  | nil => exact List.pairwise_singleton _ x
  | cons y ys ih =>
    obtain ⟨hy, hrest⟩ := List.pairwise_cons.mp hys
    unfold insertDown
    split
    · rename_i hxy
      refine List.pairwise_cons.mpr ⟨fun z hz => ?_, ih (h.subset ?_) hrest⟩
      · rcases List.mem_cons.mp ((insertDown_perm lt x ys).mem_iff.mp hz) with rfl | hz
        · exact h.asymm z (by simp) y (by simp) hxy
        · exact hy z hz
      · exact List.cons_subset_cons x (List.subset_cons_self y ys)
    · rename_i hxy
      rw [Bool.not_eq_true] at hxy
      refine List.pairwise_cons.mpr ⟨fun z hz => ?_, hys⟩
      rcases List.mem_cons.mp hz with rfl | hz
      · exact hxy
      · exact h.not_trans (by simp) (by simp) (by simp [hz]) hxy (hy z hz)

theorem foldl_insertDown_descending (h : WeakOrderOn lt (xs ++ ys)) (hys : Descending lt ys) :
    Descending lt (xs.foldl (fun sorted x => insertDown lt x sorted) ys) := by
  induction xs generalizing ys with
  | nil => exact hys
  | cons x xs ih =>
    have hinsert := insertDown_perm lt x ys
    refine ih (h.subset fun z hz => ?_) (insertDown_descending (h.subset ?_) hys)
    · rw [List.mem_append, hinsert.mem_iff] at hz
      simp only [List.mem_append, List.mem_cons] at hz ⊢
      tauto
    · exact List.cons_subset_cons x (List.subset_append_right xs ys)

/-- Of four elements the first and the last are known. -/
theorem ends_ascending {a b c d : α} (h : WeakOrderOn lt [a, b, c, d]) (hab : lt b a = false)
    (hac : lt c a = false) (hbd : lt d b = false) (hcd : lt d c = false) :
    Ascending lt (a :: arrangeTwo lt b c ++ [d]) := by
  have had : lt d a = false := h.not_trans (by simp) (by simp) (by simp) hbd hab
  unfold arrangeTwo
  split
  · rename_i hcb
    have hbc : lt b c = false := h.asymm c (by simp) b (by simp) hcb
    simp [Ascending, hab, hac, had, hbc, hbd, hcd]
  · rename_i hcb
    simp [Ascending, hab, hac, had, hbd, hcd, hcb]

/-- Two ascending pairs are merged. -/
theorem mergePairs_ascending {a b c d : α} (h : WeakOrderOn lt [a, b, c, d])
    (hab : lt b a = false) (hcd : lt d c = false) : Ascending lt (mergePairs lt a b c d) := by
  have hasymm : ∀ {x y : α}, x ∈ [a, b, c, d] → y ∈ [a, b, c, d] → lt x y = true →
      lt y x = false := fun hx hy hxy => h.asymm _ hx _ hy hxy
  unfold mergePairs
  split
  · rename_i hca hdb
    exact ends_ascending h hab hca hdb hcd
  · rename_i hca hdb
    have hbd := hasymm (by simp) (by simp) hdb
    have hda : lt d a = false := h.not_trans (by simp) (by simp) (by simp) hcd hca
    have hbc : lt b c = false := h.not_trans (by simp) (by simp) (by simp) hbd hcd
    exact ends_ascending (h.subset (by simp)) hca hda hbc hbd
  · rename_i hca hdb
    have hac := hasymm (by simp) (by simp) hca
    have hbc : lt b c = false := h.not_trans (by simp) (by simp) (by simp) hab hac
    have hda : lt d a = false := h.not_trans (by simp) (by simp) (by simp) hdb hab
    exact ends_ascending (h.subset (by simp)) hac hbc hda hdb
  · rename_i hca hdb
    have hac := hasymm (by simp) (by simp) hca
    have hbd := hasymm (by simp) (by simp) hdb
    exact ends_ascending (h.subset (by simp)) hac hcd hab hbd

theorem arrangeFour_ascending {p q r s : α} (h : WeakOrderOn lt [p, q, r, s]) :
    Ascending lt (arrangeFour lt p q r s) := by
  have hpq : lt q p = true → lt p q = false := h.asymm q (by simp) p (by simp)
  have hrs : lt s r = true → lt r s = false := h.asymm s (by simp) r (by simp)
  unfold arrangeFour
  split
  · rename_i hqp hsr
    exact mergePairs_ascending h hqp hsr
  · rename_i hqp hsr
    exact mergePairs_ascending (h.subset (by simp)) hqp (hrs hsr)
  · rename_i hqp hsr
    exact mergePairs_ascending (h.subset (by simp)) (hpq hqp) hsr
  · rename_i hqp hsr
    exact mergePairs_ascending (h.subset (by simp)) (hpq hqp) (hrs hsr)

/-- Arranging puts a list in ascending order. -/
theorem arrange_ascending (h : WeakOrderOn lt xs) (byFour : Bool) :
    Ascending lt (arrange lt byFour xs) := by
  unfold arrange
  split
  · next p q r s rest =>
    have hfour : Ascending lt (arrangeFour lt p q r s) :=
      arrangeFour_ascending (h.subset (by simp))
    refine ascending_reverse (foldl_insertDown_descending (h.subset fun z hz => ?_)
      (List.pairwise_reverse.mpr hfour))
    rw [List.mem_append, List.mem_reverse, (arrangeFour_perm lt p q r s).mem_iff] at hz
    simp only [List.mem_cons, List.not_mem_nil, or_false] at hz ⊢
    tauto
  · refine ascending_reverse (foldl_insertDown_descending ?_ .nil)
    rwa [List.append_nil]

end Arrange

/-! ### The ends of a merge -/

section Ends

variable {xs ys : List α} {a b a' b' : Nat}

/-- The first `a` elements of `xs` and the first `b` of `ys` are those that a merge begins with,
where elements of `xs` go first among equals. -/
structure Cut (lt : α → α → Bool) (xs ys : List α) (a b : Nat) : Prop where
  le_left : a ≤ xs.length
  le_right : b ≤ ys.length
  left : ∀ x ∈ xs.take a, ∀ y ∈ ys.drop b, lt y x = false
  right : ∀ y ∈ ys.take b, ∀ x ∈ xs.drop a, lt y x = true

theorem mem_take_of_lt {k l : Nat} (hk : k < xs.length) (hkl : k < l) : xs[k] ∈ xs.take l :=
  List.mem_take_iff_getElem.mpr ⟨k, by omega, rfl⟩

theorem mem_drop_of_le {k l : Nat} (hk : k < xs.length) (hlk : l ≤ k) : xs[k] ∈ xs.drop l :=
  List.mem_drop_iff_getElem.mpr ⟨k - l, by omega, by congr 1; omega⟩

/-- A cut further on in the merge is further on in both lists. So there is only one cut behind
each number of elements. -/
theorem Cut.mono (h : Cut lt xs ys a b) (h' : Cut lt xs ys a' b') (hle : a + b ≤ a' + b') :
    a ≤ a' ∧ b ≤ b' := by
  have hleft := h.le_left
  have hleft' := h'.le_left
  have hright := h.le_right
  have hright' := h'.le_right
  constructor
  · by_contra hlt
    have hfirst := h.left _ (mem_take_of_lt (show a' < xs.length by omega) (by omega)) _
      (mem_drop_of_le (show b < ys.length by omega) (Nat.le_refl b))
    have hlast := h'.right _ (mem_take_of_lt (show b < ys.length by omega) (by omega)) _
      (mem_drop_of_le (show a' < xs.length by omega) (Nat.le_refl a'))
    exact Bool.false_ne_true (hfirst.symm.trans hlast)
  · by_contra hlt
    have hfirst := h'.left _ (mem_take_of_lt (show a < xs.length by omega) (by omega)) _
      (mem_drop_of_le (show b' < ys.length by omega) (Nat.le_refl b'))
    have hlast := h.right _ (mem_take_of_lt (show b' < ys.length by omega) (by omega)) _
      (mem_drop_of_le (show a < xs.length by omega) (Nat.le_refl a))
    exact Bool.false_ne_true (hfirst.symm.trans hlast)

/-- Counting from the front cuts the merge. -/
theorem cut_countFront {k : Nat} (h : WeakOrderOn lt (xs ++ ys)) (hxs : Ascending lt xs)
    (hys : Ascending lt ys) (hk : k ≤ xs.length + ys.length) :
    ∃ b, countFront lt k xs ys + b = k ∧ Cut lt xs ys (countFront lt k xs ys) b := by
  fun_induction countFront lt k xs ys with
  | case1 k x xs y ys hyx ih =>
    obtain ⟨b, hsum, hcut⟩ := ih
      (h.subset fun z hz => by
        simp only [List.mem_append, List.mem_cons] at hz ⊢
        tauto) hxs
      (List.pairwise_cons.mp hys).2 (by simp at hk ⊢; omega)
    have hright := hcut.le_right
    refine ⟨b + 1, by omega, hcut.le_left, by simpa using hright, hcut.left, ?_⟩
    intro z hz w hw
    rw [List.take_succ_cons, List.mem_cons] at hz
    rcases hz with rfl | hz
    · -- `z` goes before `x`, which no element of its list goes before
      have hwx : w = x ∨ w ∈ xs := List.mem_cons.mp (List.mem_of_mem_drop hw)
      rcases hwx with rfl | hmem
      · exact hyx
      · have hwx : lt w x = false := (List.pairwise_cons.mp hxs).1 w hmem
        rcases h.cotrans z (by simp) w (by simp [hmem]) x (by simp) hyx with hzw | hwx'
        · exact hzw
        · exact absurd (hwx.symm.trans hwx') Bool.false_ne_true
    · exact hcut.right z hz w hw
  | case2 k x xs y ys hyx ih =>
    rw [Bool.not_eq_true] at hyx
    obtain ⟨b, hsum, hcut⟩ := ih (h.subset (by simp)) (List.pairwise_cons.mp hxs).2 hys
      (by simp at hk ⊢; omega)
    have hleft := hcut.le_left
    refine ⟨b, by omega, by simpa using hleft, hcut.le_right, ?_, hcut.right⟩
    intro z hz w hw
    rw [List.take_succ_cons, List.mem_cons] at hz
    rcases hz with rfl | hz
    · have hwy : w = y ∨ w ∈ ys := List.mem_cons.mp (List.mem_of_mem_drop hw)
      rcases hwy with rfl | hmem
      · exact hyx
      · exact h.not_trans (by simp [hmem]) (by simp) (by simp)
          ((List.pairwise_cons.mp hys).1 w hmem) hyx
    · exact hcut.left z hz w hw
  | case3 k xs =>
    rw [List.length_nil, Nat.add_zero] at hk
    rw [Nat.min_eq_left hk]
    exact ⟨0, rfl, hk, Nat.le_refl 0, by simp, by simp⟩
  | case4 k xs ys hright hboth =>
    have hstart : k = 0 ∨ xs = [] := by
      cases k with
      | zero => exact .inl rfl
      | succ k =>
        cases xs with
        | nil => exact .inr rfl
        | cons x xs =>
          cases ys with
          | nil => exact (hright rfl).elim
          | cons y ys => exact (hboth k x xs y ys rfl rfl rfl).elim
    refine ⟨k, Nat.zero_add k, Nat.zero_le _, ?_, by simp, ?_⟩
    · rcases hstart with rfl | rfl
      · exact Nat.zero_le _
      · simpa using hk
    · rcases hstart with rfl | rfl <;> simp

/-- A cut counted from the back is one from the front. -/
theorem Cut.of_reverse (h : Cut (fun a b => lt b a) ys.reverse xs.reverse b a) :
    Cut lt xs ys (xs.length - a) (ys.length - b) where
  le_left := Nat.sub_le _ _
  le_right := Nat.sub_le _ _
  left x hx y hy := by
    refine h.left y ?_ x ?_
    · rwa [List.take_reverse, List.mem_reverse]
    · rwa [List.drop_reverse, List.mem_reverse]
  right y hy x hx := by
    refine h.right x ?_ y ?_
    · rwa [List.take_reverse, List.mem_reverse]
    · rwa [List.drop_reverse, List.mem_reverse]

/-- The two ends of the merge of ascending lists meet. -/
theorem endsMeet_of_ascending (h : WeakOrderOn lt (xs ++ ys)) (hxs : Ascending lt xs)
    (hys : Ascending lt ys) : endsMeet lt xs ys = true := by
  obtain ⟨b, hfront, hcut⟩ := cut_countFront h hxs hys
    (show (xs.length + ys.length) / 2 ≤ xs.length + ys.length by omega)
  have hreverse : WeakOrderOn (fun a b => lt b a) (ys.reverse ++ xs.reverse) := by
    rw [← List.reverse_append]
    exact h.flip.perm (List.reverse_perm _)
  obtain ⟨a, hback, hcut'⟩ := cut_countFront hreverse (List.pairwise_reverse.mpr hys)
    (List.pairwise_reverse.mpr hxs) (k := (xs.length + ys.length) / 2) (by simp; omega)
  have hright := hcut'.le_left
  have hleft := hcut'.le_right
  rw [List.length_reverse] at hright hleft
  -- the first half ends where the last half begins, or one element before
  obtain ⟨hxs, hys⟩ := hcut.mono hcut'.of_reverse (by omega)
  unfold endsMeet
  simp only [Bool.or_eq_true, Bool.and_eq_true, beq_iff_eq]
  omega

end Ends

/-! ### Sorting -/

variable {xs ys : List α}

theorem halvesMeet_of_weakOrderOn (h : WeakOrderOn lt xs) : halvesMeet lt xs = true := by
  have hfirst := arrange_perm lt (decide (8 ≤ xs.length)) (xs.take (xs.length / 2))
  have hlast := arrange_perm lt (decide (8 ≤ xs.length)) (xs.drop (xs.length / 2))
  refine endsMeet_of_ascending (h.perm ?_)
    (arrange_ascending (h.subset (List.take_subset _ _)) _)
    (arrange_ascending (h.subset (List.drop_subset _ _)) _)
  exact (hfirst.append hlast).trans (.of_eq (List.take_append_drop _ _))

theorem swapIfInBounds_perm (v : Array α) (i j : Nat) : (v.swapIfInBounds i j).Perm v := by
  rw [Array.swapIfInBounds_def]
  split
  · split
    · exact Array.swap_perm _ _
    · exact .refl v
  · exact .refl v

theorem mem_of_mem_extract {v : Array α} {i j : Nat} {x : α} (hx : x ∈ v.extract i j) : x ∈ v := by
  obtain ⟨k, _, rfl⟩ := Array.mem_extract_iff_getElem.mp hx
  exact Array.getElem_mem _

/-- Gathering only moves elements. -/
theorem gather_perm (test : α → Bool) (v : Array α) : (gather test v).1.Perm v := by
  have hsteps : ∀ (js : List Nat) (w : Array α) (k : Nat),
      (js.foldl (fun (s : Array α × Nat) j => (s.1.swapIfInBounds s.2 j,
        if s.1[j]?.any test then s.2 + 1 else s.2)) (w, k)).1.Perm w := by
    intro js
    induction js with
    | nil => exact fun w _ => .refl w
    | cons j js ih => exact fun w k => (ih _ _).trans (swapIfInBounds_perm w k j)
  exact hsteps _ v 0

/-- Splitting leaves elements out, but it brings none in. -/
theorem mem_of_mem_split {test : α → Bool} {v : Array α} {p : Nat} {x : α}
    (hx : x ∈ (split test v p).1 ∨ x ∈ (split test v p).2) : x ∈ v := by
  have hgathered : x ∈ (gather test ((v.swapIfInBounds 0 p).extract 2 (v.swapIfInBounds 0 p).size
      ++ (v.swapIfInBounds 0 p).extract 1 2)).1 := by
    rcases hx with hx | hx
    · rcases Array.mem_append.mp hx with hx | hx
      · exact mem_of_mem_extract hx
      · exact mem_of_mem_extract hx
    · exact mem_of_mem_extract hx
  rw [(gather_perm _ _).mem_iff, Array.mem_append] at hgathered
  exact (swapIfInBounds_perm v 0 p).mem_iff.mp (hgathered.elim mem_of_mem_extract mem_of_mem_extract)

/-- Quicksort meets no contradiction, however it splits up the elements. -/
theorem quickConsistent_of_weakOrderOn (limit : Nat) (floor : Option α) {v : Array α}
    (h : WeakOrderOn lt v.toList) : quickConsistent lt limit floor v = true := by
  induction limit generalizing floor v with
  | zero =>
    rw [quickConsistent, halvesMeet_of_weakOrderOn h, Bool.or_true]
  | succ limit ih =>
    have hpart : ∀ {w : Array α}, (∀ x ∈ w, x ∈ v) → ∀ f, quickConsistent lt limit f w = true :=
      fun hw f => ih f (h.subset fun x hx =>
        Array.mem_toList_iff.mpr (hw x (Array.mem_toList_iff.mp hx)))
    unfold quickConsistent
    split
    · exact halvesMeet_of_weakOrderOn h
    · simp only
      split
      · rfl
      · rename_i x _
        split
        · exact hpart (fun y hy => mem_of_mem_split (.inr hy)) none
        · rw [Bool.and_eq_true]
          exact ⟨hpart (fun y hy => mem_of_mem_split (.inl hy)) floor,
            hpart (fun y hy => mem_of_mem_split (.inr hy)) (some x)⟩

/-- A sort by an order meets no contradiction. -/
theorem consistent_of_weakOrderOn (h : WeakOrderOn lt xs) : consistent lt xs = true := by
  rw [consistent, quickConsistent_of_weakOrderOn _ _ h, Bool.or_true]

end QuadOpt.Sorting
