/-
# The number of positive pivots

With the factors of a matrix its quadratic form is a sum of squares that are weighted by
the pivots. So there are no more directions along all of which the form is positive than
positive pivots, and no more along all of which it is not positive than other pivots. The
number of positive pivots is thus one of the matrix, and not of its elimination order.

Key definitions: `Ldl.coordinates`.
Key theorems: `exists_ne_zero_vanishing`, `Ldl.Factorises.dotProduct_mulVec`,
`Ldl.Factorises.card_le_positive`, `Ldl.Factorises.card_add_positive_le`,
`Ldl.Factorises.positive_le`, `Ldl.factor_positive_unique`.
-/
import Mathlib.Data.Matrix.ColumnRowPartitioned
import Mathlib.LinearAlgebra.FiniteDimensional.Lemmas
import Mathlib.LinearAlgebra.Matrix.ToLin
import QuadOpt.Proofs.Ldl.Solve

namespace QuadOpt

open Matrix

/-- Fewer equations than unknowns have a solution that is not zero. -/
theorem exists_ne_zero_vanishing {K ι κ : Type} [Field K] [Fintype ι] (B : Matrix κ ι K)
    (s : Finset κ) (h : s.card < Fintype.card ι) : ∃ w ≠ 0, ∀ k ∈ s, (B *ᵥ w) k = 0 := by
  let f : (ι → K) →ₗ[K] (s → K) := (B.submatrix Subtype.val id).mulVecLin
  have hker : LinearMap.ker f ≠ ⊥ := by
    apply LinearMap.ker_ne_bot_of_finrank_lt
    rwa [Module.finrank_fintype_fun_eq_card, Module.finrank_fintype_fun_eq_card,
      Fintype.card_coe]
  obtain ⟨w, hw, hne⟩ := (Submodule.ne_bot_iff _).mp hker
  exact ⟨w, hne, fun k hk => congrFun (LinearMap.mem_ker.mp hw) ⟨k, hk⟩⟩

namespace Ldl

variable {K : Type} [Field K] [LinearOrder K] [ExactScalar K] {n : Nat}

/-- What the coordinates of a vector are multiplied with to bring the matrix into the form
of its pivots: the rows of the transposed factor, with its columns put back in their
places. -/
def coordinates (F : Ldl K n) : Matrix (Fin n) (Fin n) K :=
  (1 + columnMatrix F.lower)ᵀ.submatrix id F.order.toEquiv.symm

variable {F : Ldl K n} {M : Matrix (Fin n) (Fin n) K} {ι : Type} [Fintype ι]

omit [ExactScalar K] in
theorem Factorises.eq_coordinates (h : F.Factorises M) :
    M = F.coordinatesᵀ * diagonal F.D.get * F.coordinates := by
  have hback := congrArg (fun N => N.submatrix F.order.toEquiv.symm F.order.toEquiv.symm) h.product
  simp only [submatrix_submatrix, Equiv.self_comp_symm, submatrix_id_id] at hback
  rw [hback, coordinates, transpose_submatrix, transpose_transpose]
  rfl

omit [ExactScalar K] in
/-- The quadratic form is a sum of squares with the pivots as weights. -/
theorem Factorises.dotProduct_mulVec (h : F.Factorises M) (v : Fin n → K) :
    v ⬝ᵥ M *ᵥ v = ∑ k, F.D.get k * (F.coordinates *ᵥ v) k ^ 2 := by
  have hform : v ⬝ᵥ M *ᵥ v
      = (F.coordinates *ᵥ v) ⬝ᵥ diagonal F.D.get *ᵥ (F.coordinates *ᵥ v) := by
    conv_lhs => rw [h.eq_coordinates, ← mulVec_mulVec, ← mulVec_mulVec]
    rw [Matrix.dotProduct_mulVec, vecMul_transpose]
  rw [hform]
  refine Finset.sum_congr rfl fun k _ => ?_
  rw [mulVec_diagonal]
  ring

omit [ExactScalar K] in
theorem Factorises.card_others (h : F.Factorises M) :
    (Finset.univ.filter fun k => ¬0 < F.D.get k).card + F.positive = n := by
  rw [h.positive, add_comm, Finset.card_filter_add_card_filter_not, Finset.card_univ,
    Fintype.card_fin]

/-- Only the zero vector has no coordinates. -/
theorem Factorises.eq_zero_of_coordinates (h : F.Factorises M) (hfactored : F.isFactored = true)
    {v : Fin n → K} (hv : F.coordinates *ᵥ v = 0) : v = 0 := by
  apply mulVec_injective_of_isUnit (h.isUnit hfactored)
  conv_lhs => rw [h.eq_coordinates, ← mulVec_mulVec, hv]
  rw [mulVec_zero, mulVec_zero]

variable [IsStrictOrderedRing K]

omit [ExactScalar K] in
/-- The form is not positive where the coordinates of all positive pivots are zero. -/
theorem Factorises.form_nonpos (h : F.Factorises M) {v : Fin n → K}
    (hv : ∀ k, 0 < F.D.get k → (F.coordinates *ᵥ v) k = 0) : v ⬝ᵥ M *ᵥ v ≤ 0 := by
  rw [h.dotProduct_mulVec]
  refine Finset.sum_nonpos fun k _ => ?_
  by_cases hk : 0 < F.D.get k
  · rw [hv k hk]
    simp
  · exact mul_nonpos_of_nonpos_of_nonneg (not_lt.mp hk) (sq_nonneg _)

/-- The form is positive where the coordinates of all other pivots are zero. -/
theorem Factorises.form_pos (h : F.Factorises M) (hfactored : F.isFactored = true)
    {v : Fin n → K} (hne : v ≠ 0) (hv : ∀ k, ¬0 < F.D.get k → (F.coordinates *ᵥ v) k = 0) :
    0 < v ⬝ᵥ M *ᵥ v := by
  obtain ⟨k, hk⟩ : ∃ k, (F.coordinates *ᵥ v) k ≠ 0 := by
    by_contra hall
    exact hne (h.eq_zero_of_coordinates hfactored (funext (not_exists_not.mp hall)))
  rw [h.dotProduct_mulVec]
  refine Finset.sum_pos' (fun k _ => ?_) ⟨k, Finset.mem_univ k, ?_⟩
  · by_cases hpivot : 0 < F.D.get k
    · exact mul_nonneg hpivot.le (sq_nonneg _)
    · rw [hv k hpivot]
      simp
  · exact mul_pos (not_not.mp fun hpivot => hk (hv k hpivot)) (sq_pos_of_ne_zero hk)

omit [ExactScalar K] in
/-- There is a positive pivot for each of the directions that the columns of `B` span, if
the form is positive along all of them. -/
theorem Factorises.card_le_positive (h : F.Factorises M) (B : Matrix (Fin n) ι K)
    (hpos : ∀ w ≠ 0, 0 < (B *ᵥ w) ⬝ᵥ M *ᵥ (B *ᵥ w)) : Fintype.card ι ≤ F.positive := by
  by_contra hlt
  rw [h.positive, not_le] at hlt
  obtain ⟨w, hw, hzero⟩ := exists_ne_zero_vanishing (F.coordinates * B) _ hlt
  refine absurd (hpos w hw) (not_lt.mpr (h.form_nonpos fun k hk => ?_))
  rw [mulVec_mulVec]
  exact hzero k (Finset.mem_filter.mpr ⟨Finset.mem_univ k, hk⟩)

/-- There is a pivot that is not positive for each of the directions that the columns of
`B` span, if the form is not positive along any of them. -/
theorem Factorises.card_add_positive_le (h : F.Factorises M) (hfactored : F.isFactored = true)
    (B : Matrix (Fin n) ι K) (hB : ∀ w, B *ᵥ w = 0 → w = 0)
    (hnonpos : ∀ w, (B *ᵥ w) ⬝ᵥ M *ᵥ (B *ᵥ w) ≤ 0) : Fintype.card ι + F.positive ≤ n := by
  by_contra hlt
  have hcount := h.card_others
  obtain ⟨w, hw, hzero⟩ := exists_ne_zero_vanishing (F.coordinates * B)
    (Finset.univ.filter fun k => ¬0 < F.D.get k) (by omega)
  refine absurd (hnonpos w) (not_le.mpr (h.form_pos hfactored (fun h => hw (hB w h)) ?_))
  intro k hk
  rw [mulVec_mulVec]
  exact hzero k (Finset.mem_filter.mpr ⟨Finset.mem_univ k, hk⟩)

/-! ### One matrix in two orders -/

/-- In one order there are not more positive pivots than in another. Otherwise the
coordinates of the others in the first and of the positive ones in the second would vanish
together somewhere, and the form would be positive there and would not. -/
theorem Factorises.positive_le {G : Ldl K n} (hF : F.Factorises M)
    (hfactored : F.isFactored = true) (hG : G.Factorises M) : F.positive ≤ G.positive := by
  by_contra hlt
  let others := Finset.univ.filter fun k => ¬0 < F.D.get k
  let positives := Finset.univ.filter fun k => 0 < G.D.get k
  have hfew : (others.disjSum positives).card < Fintype.card (Fin n) := by
    have hothers : others.card + F.positive = n := hF.card_others
    have hpositives : positives.card = G.positive := hG.positive.symm
    rw [Finset.card_disjSum, Fintype.card_fin]
    omega
  obtain ⟨v, hne, hzero⟩ :=
    exists_ne_zero_vanishing (fromRows F.coordinates G.coordinates) _ hfew
  rw [fromRows_mulVec] at hzero
  have hpos : 0 < v ⬝ᵥ M *ᵥ v := by
    refine hF.form_pos hfactored hne fun k hk => hzero (.inl k) ?_
    simpa [others] using hk
  refine absurd hpos (not_lt.mpr (hG.form_nonpos fun k hk => hzero (.inr k) ?_))
  simpa [positives] using hk

/-- The number of positive pivots is the same in any two orders, after any histories that
lead to the values of one symmetric matrix, if it is factored in both. -/
theorem factor_positive_unique {A B : Csc K} {orderA orderB : Option (Array Nat)}
    {F G : Ldl K n} (hA : analyse A n orderA = .ok F) (hB : analyse B n orderB = .ok G)
    {historyA historyB : List (Call K n)}
    (hM : symmetric A n (latestValues A.nzval historyA)
      = symmetric B n (latestValues B.nzval historyB))
    {p q : Nat} (hp : (F.calls historyA).factor.2 = .ok p)
    (hq : (G.calls historyB).factor.2 = .ok q) : p = q := by
  obtain ⟨hF, hFfactored, rfl⟩ := ((analysed_of_analyse hA).calls historyA).factorises_of_factor hp
  obtain ⟨hG, hGfactored, rfl⟩ := ((analysed_of_analyse hB).calls historyB).factorises_of_factor hq
  rw [values_of_analyse hA] at hF
  rw [values_of_analyse hB, ← hM] at hG
  exact le_antisymm (hF.positive_le hFfactored hG) (hG.positive_le hGfactored hF)

/-- The hollow matrix, from its last row and from its first. -/
theorem factor_positive_unique_hollow : ∃ (F G : Ldl ℚ 3) (p q : Nat),
    analyse hollowMatrix 3 (some #[2, 0, 1]) = .ok F ∧ analyse hollowMatrix 3 none = .ok G ∧
    (F.calls hollowHistory).factor.2 = .ok p ∧ (G.calls hollowHistory).factor.2 = .ok q ∧
    (F.calls hollowHistory).factor.1.D ≠ (G.calls hollowHistory).factor.1.D ∧ p = q := by
  have hrun : (analyse hollowMatrix 3 (some #[2, 0, 1])).toOption.any (fun F =>
      (analyse hollowMatrix 3 none).toOption.any fun G =>
        decide ((F.calls hollowHistory).factor.2 = .ok 2 ∧
          (G.calls hollowHistory).factor.2 = .ok 2 ∧
          (F.calls hollowHistory).factor.1.D ≠ (G.calls hollowHistory).factor.1.D)) = true := by
    decide +kernel
  cases hA : analyse hollowMatrix 3 (some #[2, 0, 1]) with
  | error e =>
    rw [hA] at hrun
    cases hrun
  | ok F =>
    cases hB : analyse hollowMatrix 3 none with
    | error e =>
      rw [hA, hB] at hrun
      cases hrun
    | ok G =>
      rw [hA, hB] at hrun
      obtain ⟨hp, hq, hpivots⟩ := of_decide_eq_true hrun
      exact ⟨F, G, 2, 2, rfl, rfl, hp, hq, hpivots, factor_positive_unique hA hB rfl hp hq⟩

end Ldl
end QuadOpt
