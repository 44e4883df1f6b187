/-
# The signs of the pivots

For every pivot there is a direction that ends in its row, in which the matrix is
the pivot in this row and zero before it. So if the quadratic form of a symmetric
matrix is positive once some of its rows are negated, the pivot of a row is
positive or negative as the row is counted, whatever the elimination order. In
particular there is one for each row.

Key definitions: `SignDefinite`.
Key theorems: `Factors.Expands.exists_direction`, `Factors.compute_of_signDefinite`,
`Ldl.Analysed.factor_of_signDefinite`.
-/
import Mathlib.Data.Fintype.Card
import QuadOpt.Proofs.Ldl.Solve

namespace QuadOpt

open Matrix

/-! ### Forms of a definite sign -/

section SignDefinite

variable {K : Type} [Field K] [LinearOrder K] {ι κ : Type} [Fintype ι] [Fintype κ]

/-- The quadratic form of `M` is positive when each row is counted with its sign
in `s`. -/
def SignDefinite (s : ι → K) (M : Matrix ι ι K) : Prop :=
  ∀ v, v ≠ 0 → 0 < ∑ i, s i * (v i * (M *ᵥ v) i)

theorem SignDefinite.submatrix {s : ι → K} {M : Matrix ι ι K} (h : SignDefinite s M)
    (e : κ ≃ ι) : SignDefinite (s ∘ e) (M.submatrix e e) := by
  intro v hv
  have hne : v ∘ e.symm ≠ 0 := by
    intro hzero
    refine hv (funext fun k => ?_)
    have := congrFun hzero (e k)
    simpa using this
  have hpos := h (v ∘ e.symm) hne
  rw [← Equiv.sum_comp e] at hpos
  simpa [submatrix_mulVec_equiv] using hpos

theorem SignDefinite.of_submatrix {s : ι → K} {M : Matrix ι ι K} (e : κ ≃ ι)
    (h : SignDefinite (s ∘ e) (M.submatrix e e)) : SignDefinite s M := by
  have hback := h.submatrix e.symm
  rw [submatrix_submatrix, Function.comp_assoc] at hback
  simpa using hback

end SignDefinite

/-! ### Pivots -/

namespace Factors

variable {K : Type} [Field K] [LinearOrder K] [ExactScalar K] {n : Nat} {forest : Forest n}
  {upper : Vector (List (Fin n × K)) n} {f : Factors K n}

omit [LinearOrder K] [ExactScalar K] in
/-- A row of the transpose of `L` sees only what comes after it. -/
theorem transpose_mulVec_eq_zero {lower : Vector (List (Fin n × K)) n}
    (hlower : StrictlyLower lower) {v : Fin n → K} {k : Fin n} (hafter : ∀ r, k < r → v r = 0) :
    ((columnMatrix lower)ᵀ *ᵥ v) k = 0 := by
  show ∑ r, columnMatrix lower r k * v r = 0
  refine Finset.sum_eq_zero fun r _ => ?_
  by_cases hr : r ≤ k
  · rw [hlower.columnMatrix_eq_zero hr, zero_mul]
  · rw [hafter r (by omega), mul_zero]

omit [LinearOrder K] [ExactScalar K] in
/-- A solve with the transpose of `I + L` moves nothing into the rows after the
last one of its right-hand side, and that one it keeps. -/
theorem eq_of_transpose_mulVec {lower : Vector (List (Fin n × K)) n}
    (hlower : StrictlyLower lower) {v b : Fin n → K} {k : Fin n}
    (hsolve : (1 + columnMatrix lower)ᵀ *ᵥ v = b) (hb : ∀ c, k < c → b c = 0) :
    v k = b k ∧ ∀ c, k < c → v c = 0 := by
  have hrow : ∀ c, (∀ r, c < r → v r = 0) → v c = b c := by
    intro c hafter
    have := congrFun hsolve c
    rwa [transpose_add, transpose_one, add_mulVec, one_mulVec, Pi.add_apply,
      transpose_mulVec_eq_zero hlower hafter, add_zero] at this
  -- The rows are solved for from the last one up.
  have hrows : ∀ d (c : Fin n), n - c.val ≤ d → k < c → v c = 0 := by
    intro d
    induction d with
    | zero => exact fun c hd _ => absurd c.isLt (by omega)
    | succ d ih =>
      intro c hd hkc
      rw [hrow c fun r hr => ih r (by omega) (by omega), hb c hkc]
  have hafter : ∀ c, k < c → v c = 0 := fun c => hrows n c (Nat.sub_le _ _)
  exact ⟨hrow k hafter, hafter⟩

omit [LinearOrder K] [ExactScalar K] in
/-- On both sides of the diagonal, the rows that have been eliminated are those of the
product of the factors. -/
theorem Expands.apply_eq {j : Nat} (h : f.Expands upper j) {M : Matrix (Fin n) (Fin n) K}
    (hM : ∀ r c, c ≤ r → coefficient (upper.get r) c = M c r) (hsymm : ∀ r c, M r c = M c r)
    {i r : Fin n} (hi : i.val < j) (hr : r.val < j) :
    M i r = ∑ c, f.unitLower i c * f.D.get c * f.unitLower r c := by
  rcases Nat.le_total r.val i.val with hri | hir
  · rw [hsymm, ← hM i r hri, h.product i r hi hri]
  · rw [← hM r i hir, h.product r i hr hir]
    exact Finset.sum_congr rfl fun c _ => by ring

/-- A direction that ends in row `k`, in which the matrix is the pivot of this row
and zero in those before it. -/
theorem Expands.exists_direction {j : Nat} {k : Fin n} (hlower : StrictlyLower f.lower)
    (h : f.Expands upper j) (hk : k.val < j) {M : Matrix (Fin n) (Fin n) K}
    (hM : ∀ r c, c ≤ r → coefficient (upper.get r) c = M c r) (hsymm : ∀ r c, M r c = M c r) :
    ∃ v : Fin n → K, v k = 1 ∧ (∀ c, k < c → v c = 0) ∧
      ∀ i, i ≤ k → (M *ᵥ v) i = if i = k then f.D.get k else 0 := by
  let b : Vec K n := Vector.ofFn (Pi.single k 1)
  let v := (solveLowerTranspose f.lower b).get
  have hb : ∀ c, b.get c = Pi.single (M := fun _ => K) k 1 c := fun c => Vec.get_ofFn _ c
  have hsolve : f.unitLowerᵀ *ᵥ v = b.get := solveLowerTranspose_eq hlower b
  obtain ⟨hpivot, hafter⟩ : v k = b.get k ∧ ∀ c, k < c → v c = 0 := by
    refine eq_of_transpose_mulVec hlower hsolve fun c hc => ?_
    rw [hb, Pi.single_eq_of_ne (Fin.ne_of_gt hc)]
  rw [hb, Pi.single_eq_same] at hpivot
  refine ⟨v, hpivot, hafter, fun i hik => ?_⟩
  -- The part of the matrix that the direction sees is the product of the factors.
  have hproduct : ∀ r, r ≤ k → M i r = ∑ c, f.unitLower i c * f.D.get c * f.unitLower r c :=
    fun r hrk => h.apply_eq hM hsymm (by omega) (by omega)
  calc (M *ᵥ v) i
      = ∑ r, ∑ c, f.unitLower i c * f.D.get c * (f.unitLower r c * v r) := by
        show ∑ r, M i r * v r = _
        refine Finset.sum_congr rfl fun r _ => ?_
        by_cases hrk : r ≤ k
        · rw [hproduct r hrk, Finset.sum_mul]
          exact Finset.sum_congr rfl fun c _ => by ring
        · simp [hafter r (by omega)]
    _ = ∑ c, f.unitLower i c * f.D.get c * b.get c := by
        rw [Finset.sum_comm]
        refine Finset.sum_congr rfl fun c _ => ?_
        rw [← Finset.mul_sum]
        congr 1
        exact congrFun hsolve c
    _ = f.unitLower i k * f.D.get k := by
        simp [hb, Pi.single_apply]
    _ = if i = k then f.D.get k else 0 := by
        rw [unitLower_apply, hlower.columnMatrix_eq_zero hik, add_zero, ite_mul, one_mul, zero_mul]

/-- A pivot has the sign with which its row is counted. -/
theorem Expands.sign_pivot {j : Nat} {k : Fin n} (hlower : StrictlyLower f.lower)
    (h : f.Expands upper j) (hk : k.val < j) {M : Matrix (Fin n) (Fin n) K} {s : Fin n → K}
    (hM : ∀ r c, c ≤ r → coefficient (upper.get r) c = M c r) (hsymm : ∀ r c, M r c = M c r)
    (hsign : SignDefinite s M) : 0 < s k * f.D.get k := by
  obtain ⟨v, hpivot, hafter, hrows⟩ := h.exists_direction hlower hk hM hsymm
  have hne : v ≠ 0 := by
    intro hzero
    rw [hzero] at hpivot
    exact zero_ne_one hpivot
  have hsum : ∑ i, s i * (v i * (M *ᵥ v) i) = s k * f.D.get k := by
    rw [Finset.sum_eq_single k]
    · rw [hrows k (Fin.le_refl k), if_pos rfl, hpivot, one_mul]
    · intro i _ hik
      by_cases hle : i ≤ k
      · rw [hrows i hle, if_neg hik, mul_zero, mul_zero]
      · rw [hafter i (by omega), zero_mul, mul_zero]
    · simp
  rw [← hsum]
  exact hsign v hne

/-- Elimination finds a pivot in each row, with the sign of the row. -/
theorem compute_of_signDefinite (hfits : Fits forest upper) {M : Matrix (Fin n) (Fin n) K}
    {s : Fin n → K} (hM : ∀ r c, c ≤ r → coefficient (upper.get r) c = M c r)
    (hsymm : ∀ r c, M r c = M c r) (hsign : SignDefinite s M) :
    ∃ f, compute forest upper = .ok f ∧ ∀ k, 0 < s k * f.D.get k := by
  obtain ⟨hshaped, hstuck⟩ := compute_shaped forest upper
  obtain ⟨hexpands, hzero⟩ := compute_expands hfits
  cases hrun : compute forest upper with
  | ok f =>
    refine ⟨f, rfl, fun k => ?_⟩
    exact (hexpands f hrun).1.sign_pivot (hshaped f hrun).strictlyLower k.isLt hM hsymm hsign
  | error e =>
    obtain ⟨hrows, -, hpivot⟩ := hzero e hrun
    have hpos := hrows.sign_pivot (hstuck e hrun).strictlyLower (Nat.lt_succ_self e.1.val)
      hM hsymm hsign
    rw [hpivot, mul_zero] at hpos
    exact absurd hpos (lt_irrefl 0)

end Factors

/-! ### Factorisations -/

namespace Ldl

variable {K : Type} [Field K] [LinearOrder K] [ExactScalar K] [IsStrictOrderedRing K] {n : Nat}

/-- A matrix whose rows have signs is factored in any order, with as many positive
pivots as rows that are counted as positive. -/
theorem Analysed.factor_of_signDefinite {A : Csc K} {F : Ldl K n} (h : F.Analysed A)
    {s : Fin n → K} (hsign : SignDefinite s (symmetric A n F.values)) :
    F.factor.2 = .ok (Finset.univ.filter fun i => 0 < s i).card := by
  have hmoved := hsign.submatrix F.order.toEquiv
  obtain ⟨f, hf, hpivots⟩ := Factors.compute_of_signDefinite h.fits
    (fun r c hcr => h.coefficient_upperValues hcr)
    (fun r c => symmetric_comm A F.values _ _) hmoved
  have hpositive := ((Factors.compute_expands h.fits).1 f hf).2.positive
  have hiff : ∀ k, 0 < f.D.get k ↔ 0 < s (F.order.toEquiv k) := fun k =>
    (pos_iff_pos_of_mul_pos (hpivots k)).symm
  have hmoves : (Finset.univ.filter fun k => 0 < s (F.order.toEquiv k)).card
      = (Finset.univ.filter fun i => 0 < s i).card :=
    Finset.card_equiv F.order.toEquiv (by simp)
  rw [List.take_of_length_le (by simp), countP_finRange] at hpositive
  simp only [h.factor_of_ok hf, hpositive, hiff, hmoves]

end Ldl
end QuadOpt
