/-
# Factorisations like those of a fresh analysis

The elimination order of a permutation is accepted, and so is every well formed
upper triangle without an empty column. However often the values of an analysed
matrix are replaced and factored, valid factors are those that a fresh analysis of
the matrix in the same order finds.

Key definitions: `Ldl.Holds`.
Key theorems: `Order.exists_ofArray`, `Ldl.exists_analyse`, `Ldl.Holds.replace`,
`Ldl.Holds.factor`, `Ldl.Holds.factor_eq`, `Ldl.Holds.fresh`.
-/
import Mathlib.Data.Fintype.EquivFin
import QuadOpt.Proofs.Ldl.History
import QuadOpt.Proofs.Sparse.Assembly
import QuadOpt.Sparse.Matrix

namespace QuadOpt

/-! ### Orders -/

namespace Order

variable {n : Nat}

theorem getElem?_foldl_mark (l : List Nat) (seen : Array Bool) (i : Nat) :
    (l.foldl (fun seen i => seen.setIfInBounds i true) seen)[i]?
      = if i ∈ l ∧ i < seen.size then some true else seen[i]? := by
  induction l generalizing seen with
  | nil => simp
  | cons k l ih =>
    rw [List.foldl_cons, ih, Array.size_setIfInBounds, Array.getElem?_setIfInBounds]
    by_cases hl : i ∈ l ∧ i < seen.size
    · rw [if_pos hl, if_pos ⟨List.mem_cons_of_mem _ hl.1, hl.2⟩]
    · rw [if_neg hl]
      by_cases hk : k = i
      · subst hk
        by_cases hlt : k < seen.size <;> simp [hlt]
      · have hnot : ¬(i ∈ k :: l ∧ i < seen.size) := by simpa [Ne.symm hk] using hl
        rw [if_neg hk, if_neg hnot]

/-- Every index is marked as seen iff each of them is listed, and so each of them once. -/
theorem isPermutation_iff {p : Array Nat} :
    isPermutation p = true ↔ p.toList.Perm (List.range p.size) := by
  have hmark := getElem?_foldl_mark p.toList (Array.replicate p.size false)
  rw [Array.foldl_toList] at hmark
  rw [isPermutation, Array.all_eq_true_iff_forall_mem]
  constructor
  · intro hall
    have hmem : ∀ i ∈ List.range p.size, i ∈ p.toList := by
      intro i hi
      by_contra hnot
      have hget := hmark i
      rw [if_neg (fun h => hnot h.1), Array.getElem?_replicate,
        if_pos (List.mem_range.mp hi)] at hget
      exact Bool.false_ne_true (hall false (Array.mem_of_getElem? hget))
    refine ((List.nodup_range.subperm hmem).perm_of_length_le ?_).symm
    rw [List.length_range, Array.length_toList]
  · intro h b hb
    obtain ⟨i, hi, rfl⟩ := Array.mem_iff_getElem.mp hb
    have hget := Array.getElem?_eq_getElem hi
    have hlt : i < p.size := by
      by_contra hge
      rw [hmark] at hget
      simp [hge] at hget
    have hmem : i ∈ p.toList := h.mem_iff.mpr (List.mem_range.mpr hlt)
    rw [hmark, if_pos ⟨hmem, by simpa using hlt⟩] at hget
    exact (Option.some.inj hget).symm

/-- The step in which a row is eliminated is the one that was listed last for it. -/
theorem get_positions {perm : Vector (Fin n) n} (hinj : Function.Injective perm.get)
    (k : Fin n) : (positions perm).get (perm.get k) = k := by
  have hpass : ∀ k : Fin n, k.val < n → (positions perm).get (perm.get k) = k := by
    refine pass_induction
      (fun (j : Nat) (v : Vector (Fin n) n) => ∀ k : Fin n, k.val < j → v.get (perm.get k) = k)
      (fun k hk => absurd hk (Nat.not_lt_zero _)) fun i v ih k hk => ?_
    by_cases hki : k = i
    · subst hki
      exact Vec.get_put _ _ _
    · have hne : perm.get i ≠ perm.get k := fun h => hki (hinj h).symm
      rw [Vec.get_put_ne _ hne]
      exact ih k (by omega)
  exact hpass k k.isLt

theorem areInverse_positions {perm : Vector (Fin n) n} (hinj : Function.Injective perm.get) :
    areInverse perm (positions perm) = true := by
  rw [areInverse, List.all_eq_true]
  intro k _
  obtain ⟨j, hj⟩ := Finite.injective_iff_surjective.mp hinj k
  have hback : perm.get ((positions perm).get k) = k := by
    rw [← hj, get_positions hinj]
  simp [get_positions hinj k, hback]

/-- A permutation is an order if the rows come first in it. -/
theorem exists_ofArray_of_take {p : Array Nat} (hperm : p.toList.Perm (List.range p.size))
    (h : (p.toList.take n).Perm (List.range n)) : ∃ o, ofArray n p = .ok o := by
  have hlength : (p.toList.take n).length = n := by rw [h.length_eq, List.length_range]
  have hbound : ∀ k : Fin n, k.val < (p.toList.take n).length := by simp [hlength]
  have hget : ∀ k : Fin n, p.getD k n = (p.toList.take n).get ⟨k, hbound k⟩ := by
    intro k
    have hk := hbound k
    rw [List.length_take, Array.length_toList] at hk
    simp [show k.val < p.size by omega]
  have hrange : ((List.finRange n).all fun k => decide (p.getD k n < n)) = true := by
    rw [List.all_eq_true]
    intro k _
    rw [decide_eq_true_eq, hget]
    exact List.mem_range.mp (h.mem_iff.mp (List.get_mem _ _))
  have hnodup : (p.toList.take n).Nodup := h.nodup_iff.mpr List.nodup_range
  unfold ofArray
  rw [isPermutation_iff.mpr hperm, if_neg (by simp), dif_pos hrange]
  simp only
  rw [dif_pos]
  · exact ⟨_, rfl⟩
  · refine areInverse_positions fun i j hij => ?_
    rw [Vec.get_ofFn, Vec.get_ofFn, Fin.mk.injEq, hget, hget, hnodup.get_inj_iff, Fin.mk.injEq]
      at hij
    exact Fin.ext hij

/-- A permutation of the rows is an order. -/
theorem exists_ofArray {p : Array Nat} (h : p.toList.Perm (List.range n)) :
    ∃ o, ofArray n p = .ok o := by
  have hsize : p.size = n := by
    have := h.length_eq
    rwa [Array.length_toList, List.length_range] at this
  refine exists_ofArray_of_take (hsize ▸ h) ?_
  rwa [List.take_of_length_le (by simp [hsize])]

/-- The steps are those that are listed. -/
theorem getElem?_of_ofArray {p : Array Nat} {o : Order n} (h : ofArray n p = .ok o) (k : Fin n) :
    p[k.val]? = some (o.perm.get k).val := by
  unfold ofArray at h
  split at h
  · cases h
  · split at h
    · rename_i inRange
      simp only at h
      split at h
      · cases h
        have hlt : p.getD k n < n :=
          of_decide_eq_true (List.all_eq_true.mp inRange k (List.mem_finRange k))
        rw [Vec.get_ofFn]
        show p[k.val]? = some (p.getD k n)
        rw [Array.getD_eq_getD_getElem?] at hlt ⊢
        cases hget : p[k.val]? with
        | none =>
          rw [hget] at hlt
          exact absurd hlt (lt_irrefl n)
        | some i => rfl
      · cases h
    · cases h

end Order

/-! ### Analyses -/

namespace Ldl

variable {α : Type} {n : Nat}

theorem requireUpper_of_validate {A : Csc α} (h : A.validate = .ok ()) (hm : A.m = n)
    (hn : A.n = n) (hupper : A.isUpper = true) (hcolumns : ∀ j < n, A.start j < A.start (j + 1)) :
    requireUpper A n = .ok () := by
  have hempty : ((List.range n).any fun j => A.start j == A.start (j + 1)) = false := by
    rw [List.any_eq_false]
    intro j hj
    have := hcolumns j (List.mem_range.mp hj)
    simp only [beq_iff_eq]
    omega
  unfold requireUpper
  rw [if_neg (by omega), h]
  simp only [hupper, hempty]
  rfl

theorem requireUpper_of_valid {A : Csc α} (h : A.Valid) (hm : A.m = n) (hn : A.n = n)
    (hupper : A.isUpper = true) (hcolumns : ∀ j < n, A.start j < A.start (j + 1))
    (hword : n + 1 < wordSize) : requireUpper A n = .ok () :=
  requireUpper_of_validate (Csc.validate_of_valid h (by rwa [hn])) hm hn hupper hcolumns

variable [Scalar α]

/-- A well formed triangle without an empty column is analysed, in the order of its
rows or in any other. -/
theorem exists_analyse {A : Csc α} (h : A.Valid) (hm : A.m = n) (hn : A.n = n)
    (hupper : A.isUpper = true) (hcolumns : ∀ j < n, A.start j < A.start (j + 1))
    (hword : n + 1 < wordSize) {order : Option (Array Nat)}
    (horder : ∀ p, order = some p → p.toList.Perm (List.range n)) :
    ∃ F : Ldl α n, analyse A n order = .ok F := by
  have hrequire := requireUpper_of_valid h hm hn hupper hcolumns hword
  obtain ⟨o, ho⟩ : ∃ o, Order.ofArray n (order.getD (Array.range n)) = .ok o := by
    apply Order.exists_ofArray
    cases order with
    | none => simp
    | some p => exact horder p rfl
  unfold analyse
  rw [hrequire]
  simp only [bind, Except.bind, ho]
  exact ⟨_, rfl⟩

/-! ### What stays as a fresh analysis finds it -/

/-- `F` was analysed in the order that was given, and holds the values of `A` and
their factors if it has any. -/
structure Holds (A : Csc α) (F : Ldl α n) : Prop where
  analysed : F.Analysed A
  required : requireUpper A n = .ok ()
  ordered : Order.ofArray n F.givenOrder = .ok F.order
  values : F.values = A.nzval

/-- The order is the one that is given, or that of the rows. -/
theorem analyse_order {A : Csc α} {order : Option (Array Nat)} {F : Ldl α n}
    (h : analyse A n order = .ok F) : F.givenOrder = order.getD (Array.range n) ∧
      Order.ofArray n F.givenOrder = .ok F.order := by
  have hrequire := (analyse_eq_ok h).1
  unfold analyse at h
  rw [hrequire] at h
  simp only [bind, Except.bind] at h
  cases horder : Order.ofArray n (order.getD (Array.range n)) with
  | error e =>
    rw [horder] at h
    cases h
  | ok o =>
    rw [horder] at h
    cases h
    exact ⟨rfl, horder⟩

theorem holds_of_analyse {A : Csc α} {order : Option (Array Nat)} {F : Ldl α n}
    (h : analyse A n order = .ok F) : F.Holds A := by
  obtain ⟨hrequire, -, -, -, hvalues, -, -⟩ := analyse_eq_ok h
  exact ⟨analysed_of_analyse h, hrequire, (analyse_order h).2, hvalues⟩

omit [Scalar α] in
/-- The check of a matrix looks at its pattern only. -/
theorem requireUpper_withValues (A : Csc α) {v : Array α} (hv : v.size = A.nzval.size) (n : Nat) :
    requireUpper { A with nzval := v } n = requireUpper A n := by
  unfold requireUpper
  rw [A.validate_withValues hv]
  rfl

theorem factor_order (F : Ldl α n) :
    F.factor.1.givenOrder = F.givenOrder ∧ F.factor.1.order = F.order := by
  unfold Ldl.factor
  cases Factors.compute F.forest F.upperValues <;> exact ⟨rfl, rfl⟩

theorem calls_order (F : Ldl α n) (history : List (Call α n)) :
    (F.calls history).order = F.order := by
  induction history generalizing F with
  | nil => rfl
  | cons c history ih =>
    rw [calls, List.foldl_cons, ← calls, ih]
    cases c with
    | setValues values =>
      by_cases hsize : values.size = F.values.size <;> simp [call, withValues?, hsize]
    | refactor => exact F.factor_order.2
    | solve b => rfl

namespace Holds

variable {A : Csc α} {F : Ldl α n}

theorem size_values (h : F.Holds A) : F.values.size = A.nzval.size := congrArg Array.size h.values

/-- New values in the same pattern. -/
theorem replace (h : F.Holds A) {v : Array α} (hv : v.size = A.nzval.size) :
    F.withValues? v = some { F with values := v, isFactored := false } ∧
      Ldl.Holds { A with nzval := v } { F with values := v, isFactored := false } := by
  have hwith : F.withValues? v = some { F with values := v, isFactored := false } :=
    if_pos (hv.trans h.size_values.symm)
  refine ⟨hwith, ?_⟩
  have hvalid : Csc.Valid { A with nzval := v } := h.analysed.valid.withValues hv
  have hplaces : (Csc.entries { A with nzval := v }).map (fun e => (e.1, e.2.1))
      = A.entries.map fun e => (e.1, e.2.1) := by
    rw [Csc.places_eq hvalid, Csc.places_eq h.analysed.valid]
    rfl
  have hanalysed := (h.analysed.withValues hwith).1
  exact {
    analysed := { hanalysed with
      valid := hvalid
      upper_eq := by
        rw [hplaces]
        exact hanalysed.upper_eq
      values_size := rfl }
    required := (requireUpper_withValues A hv n).trans h.required
    ordered := h.ordered
    values := rfl }

theorem factor (h : F.Holds A) : F.factor.1.Holds A := by
  refine ⟨h.analysed.factor, h.required, ?_, (factor_values F).trans h.values⟩
  rw [F.factor_order.1, F.factor_order.2]
  exact h.ordered

/-- What a fresh analysis of the matrix gives, in the same order. -/
theorem analyse_eq (h : F.Holds A) : analyse A n (some F.givenOrder) = .ok { F with
    lower := Vector.ofFn fun c => List.replicate (F.counts.get c) (⟨0, c.pos⟩, 0)
    D := .fill n 0
    Dinv := .fill n 0
    positive := 0
    isFactored := false } := by
  have hforest := h.analysed.forest_eq
  have hcounts := h.analysed.counts_eq
  rw [rowsOf_upperValues] at hforest hcounts
  unfold analyse
  rw [h.required]
  simp only [bind, Except.bind, Option.getD_some, h.ordered, pure, Except.pure,
    ← hforest, ← hcounts, ← h.analysed.upper_eq, ← h.values]

/-- Whatever factors were there before, those of a matrix are found again. -/
theorem factor_eq {G : Ldl α n} (h : F.Holds A) (hG : G.Holds A)
    (hgiven : G.givenOrder = F.givenOrder) (hfactored : F.isFactored = true) :
    G.factor = (F, .ok F.positive) := by
  have hanalysis := hG.analyse_eq
  rw [hgiven, h.analyse_eq, Except.ok.injEq, Ldl.mk.injEq] at hanalysis
  obtain ⟨-, horder, hupper, hforest, hcounts, hvalues, -⟩ := hanalysis
  obtain ⟨f, hf, hlower, hD, hDinv, hpositive⟩ := h.analysed.factored hfactored
  have hupperValues : G.upperValues = F.upperValues := by
    unfold upperValues
    rw [hupper, hvalues]
  rw [← hupperValues, hforest] at hf
  rw [hG.analysed.factor_of_ok hf, ← hlower, ← hD, ← hDinv, ← hpositive, ← hfactored, hgiven,
    ← horder, ← hupper, ← hforest, ← hcounts, ← hvalues]

/-- Valid factors are those of a fresh analysis in the same order. -/
theorem fresh (h : F.Holds A) (hfactored : F.isFactored = true) :
    ∃ F₀ : Ldl α n, analyse A n (some F.givenOrder) = .ok F₀ ∧
      F₀.factor = (F, .ok F.positive) :=
  ⟨_, h.analyse_eq, h.factor_eq (holds_of_analyse h.analyse_eq) rfl hfactored⟩

end Holds
end Ldl
end QuadOpt
