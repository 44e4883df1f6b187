/-
# The meaning of the number of positive pivots

A linear system is analysed once for the places of its entries, and then weighted and
factored any number of times. Whenever it is factored, with whatever values, step sizes and
elimination order, it has as many positive pivots as there are variables iff
`P + σ I + Aᵀ R A` is positive definite.

Key definitions: `PositiveDefinite`, `curvature`, `SparseMatrix.SamePlaces`,
`LinearSystem.weigh`, `LinearSystem.Arises`.
Key theorems: `positiveDefinite_curvature_iff`, `LinearSystem.Arises.prepared`,
`LinearSystem.Arises.weighted`, `LinearSystem.factor_eq_iff_positiveDefinite`.
-/
import QuadOpt.Proofs.Admm.Definite

namespace QuadOpt

open Matrix

/-! ### Definite matrices -/

section Definite

variable {K : Type} [Field K] [LinearOrder K] {n m : Nat}

/-- A symmetric matrix with a positive quadratic form. -/
def PositiveDefinite (M : Matrix (Fin n) (Fin n) K) : Prop :=
  M.IsSymm ∧ ∀ x ≠ 0, 0 < x ⬝ᵥ M *ᵥ x

/-- The matrix `P + δ I + Aᵀ diag(ρ) A`. -/
def curvature (P : Matrix (Fin n) (Fin n) K) (A : Matrix (Fin m) (Fin n) K) (δ : K)
    (ρ : Fin m → K) : Matrix (Fin n) (Fin n) K :=
  P + δ • 1 + Aᵀ * diagonal ρ * A

variable {P : Matrix (Fin n) (Fin n) K} {A : Matrix (Fin m) (Fin n) K} {δ : K} {ρ : Fin m → K}

omit [LinearOrder K] in
theorem isSymm_curvature (hP : P.IsSymm) : (curvature P A δ ρ).IsSymm := by
  have hconstraints : (Aᵀ * diagonal ρ * A).IsSymm := by
    rw [IsSymm, transpose_mul, transpose_mul, transpose_transpose, diagonal_transpose,
      Matrix.mul_assoc]
  exact (hP.add (isSymm_one.smul δ)).add hconstraints

omit [LinearOrder K] in
theorem dotProduct_curvature_mulVec (x : Fin n → K) :
    x ⬝ᵥ curvature P A δ ρ *ᵥ x = augmentedForm P A δ ρ x := by
  have hshift : x ⬝ᵥ (δ • 1 : Matrix (Fin n) (Fin n) K) *ᵥ x = ∑ j, δ * x j ^ 2 := by
    rw [smul_mulVec, one_mulVec]
    exact Finset.sum_congr rfl fun j _ => by
      rw [Pi.smul_apply, smul_eq_mul]
      ring
  have hconstraints : x ⬝ᵥ (Aᵀ * diagonal ρ * A) *ᵥ x = ∑ i, ρ i * (A *ᵥ x) i ^ 2 := by
    rw [← mulVec_mulVec, ← mulVec_mulVec, dotProduct_mulVec, vecMul_transpose]
    refine Finset.sum_congr rfl fun i _ => ?_
    rw [mulVec_diagonal]
    ring
  rw [curvature, add_mulVec, add_mulVec, dotProduct_add, dotProduct_add, hshift, hconstraints,
    augmentedForm]

theorem positiveDefinite_curvature_iff (hP : P.IsSymm) :
    PositiveDefinite (curvature P A δ ρ) ↔ ∀ x ≠ 0, 0 < augmentedForm P A δ ρ x := by
  simp only [PositiveDefinite, isSymm_curvature hP, true_and, dotProduct_curvature_mulVec]

end Definite

theorem Csc.isSymm_mirror {K : Type} [Field K] (M : Csc K) {n : Nat} : (M.mirror n).IsSymm :=
  .ext fun i j => Ldl.symmetric_comm M M.nzval j i

/-! ### Linear systems -/

namespace SparseMatrix

variable {α : Type} {m n : Nat} {A B : SparseMatrix α m n}

/-- Both matrices store entries at the same places. -/
def SamePlaces (A B : SparseMatrix α m n) : Prop :=
  A.csc.colptr = B.csc.colptr ∧ A.csc.rowval = B.csc.rowval

theorem SamePlaces.csc_eq (h : A.SamePlaces B) : A.csc = { B.csc with nzval := A.csc.nzval } := by
  show (⟨A.csc.m, A.csc.n, A.csc.colptr, A.csc.rowval, A.csc.nzval⟩ : Csc α)
    = ⟨B.csc.m, B.csc.n, B.csc.colptr, B.csc.rowval, A.csc.nzval⟩
  rw [h.1, h.2, A.rows_eq, A.cols_eq, B.rows_eq, B.cols_eq]

end SparseMatrix

namespace LinearSystem

section Arises

variable {α : Type} [Scalar α] {n m : Nat}

/-- The system with the given step sizes. -/
def weigh (L : LinearSystem α n m) (R : Vec α m) : LinearSystem α n m :=
  { L with rho := R, rhoInv := R.recip }

/-- The systems that arise from one that was analysed for matrices with the places of `P`
and `A`, however often it is classified, weighted and factored for others. -/
inductive Arises (ordering : Ordering? α) (P : SparseMatrix α n n) (A : SparseMatrix α m n) :
    LinearSystem α n m → Prop
  | new {L} : LinearSystem.new ordering P A = .ok L → Arises ordering P A L
  | classify {L} (l u) : Arises ordering P A L → Arises ordering P A (L.classify l u)
  | weigh {L} (R) : Arises ordering P A L → Arises ordering P A (L.weigh R)
  | factor {L} (P' A' sigma) : P'.SamePlaces P → A'.SamePlaces A → Arises ordering P A L →
    Arises ordering P A (L.factor P' A' sigma).1

variable {ordering : Ordering? α} {P P' : SparseMatrix α n n} {A A' : SparseMatrix α m n}
  {L : LinearSystem α n m}

/-- Step sizes by the kinds of the constraints are among them. -/
theorem Arises.withRho (h : L.Arises ordering P A) (t : α) :
    (L.withRho t).Arises ordering P A := h.weigh (L.kinds.map (ConstraintKind.rho t))

omit [Scalar α] in
/-- The pattern of a system has no values in it. -/
theorem assembleKkt_eq (hP : P'.SamePlaces P) (hA : A'.SamePlaces A) :
    assembleKkt n m P'.csc A'.csc = assembleKkt n m P.csc A.csc := by
  rw [hP.csc_eq, hA.csc_eq]
  rfl

theorem Arises.prepared (h : L.Arises ordering P A) (hP : P'.SamePlaces P)
    (hA : A'.SamePlaces A) : L.Prepared P' A' := by
  induction h generalizing P' A' with
  | new hnew =>
    obtain ⟨hpattern, hshape, hholds⟩ := new_prepared hnew
    exact ⟨hpattern.trans (assembleKkt_eq hP hA).symm, hshape, hholds⟩
  | classify l u _ ih => exact (ih hP hA).classify l u
  | weigh R _ ih => exact ⟨(ih hP hA).pattern, (ih hP hA).shape, (ih hP hA).holds⟩
  | factor P'' A'' sigma hP'' hA'' _ ih =>
    obtain ⟨hpattern, hshape, hholds⟩ := ((ih hP'' hA'').factor sigma).1
    refine ⟨?_, hshape, hholds⟩
    rw [hpattern, assembleKkt_eq hP'' hA'', assembleKkt_eq hP hA]

end Arises

variable {K : Type} [Field K] [LinearOrder K] [ExactScalar K] {n m : Nat}
  {L : LinearSystem K n m} {P : SparseMatrix K n n} {A : SparseMatrix K m n}

/-- A factorisation that succeeds leaves factors of the matrix of the system, and gives the
number of its positive pivots. -/
theorem Prepared.factorises (h : L.Prepared P A) (hupper : P.csc.isUpper = true) {sigma : K}
    {k : Nat} (hk : (L.factor P A sigma).2 = .ok k) :
    ∃ (F : Ldl K (n + m)) (M : Matrix (Fin (n + m)) (Fin (n + m)) K), F.Factorises M ∧
      F.isFactored = true ∧ F.positive = k ∧ M.submatrix finSumFinEquiv finSumFinEquiv
        = kktMatrix (P.csc.mirror n) (A.csc.toMatrix m n) sigma L.rhoInv.get := by
  obtain ⟨hholds, hfactor⟩ := h.factor_eq sigma
  rw [hfactor] at hk
  have hkkt := fillKkt_isKkt (A := A) P sigma L.rhoInv hupper
  rw [← h.pattern] at hkkt
  obtain ⟨hfactors, hfactored, hpositive⟩ := hholds.analysed.factorises_of_factor hk
  exact ⟨_, _, hfactors, hfactored, hpositive, hkkt.mirror_eq⟩

/-- Step sizes come with their inverses, once there are any. -/
theorem Arises.weighted {ordering : Ordering? K} (h : L.Arises ordering P A)
    (hrho : ∀ i, 0 < L.rho.get i) : L.Weighted := by
  refine ⟨hrho, fun i => ?_⟩
  replace hrho := hrho i
  induction h with
  | new hnew =>
    simp only [LinearSystem.new, bind, Except.bind] at hnew
    split at hnew
    · cases hnew
    · cases hnew
      rw [Vec.get_fill] at hrho
      exact absurd hrho (lt_irrefl 0)
  | classify l u _ ih => exact ih hrho
  | weigh R _ _ => exact Vec.get_recip R i
  | factor P' A' sigma _ _ _ ih => exact ih hrho

variable [IsStrictOrderedRing K]

/-- However a system has arisen, if it is factored for an upper triangular `P`, an `A` and
positive step sizes `R`, in whatever order, there is a positive pivot for each variable iff
`P + σ I + Aᵀ R A` is positive definite. -/
theorem factor_eq_iff_positiveDefinite {ordering : Ordering? K} {P₀ : SparseMatrix K n n}
    {A₀ : SparseMatrix K m n} (h : L.Arises ordering P₀ A₀) (hP : P.SamePlaces P₀)
    (hA : A.SamePlaces A₀) (hupper : P.csc.isUpper = true) (hR : ∀ i, 0 < L.rho.get i)
    {sigma : K} {k : Nat} (hk : (L.factor P A sigma).2 = .ok k) :
    k = n ↔ PositiveDefinite
      (curvature (P.csc.mirror n) (A.csc.toMatrix m n) sigma L.rho.get) := by
  have hweighted := h.weighted hR
  obtain ⟨F, M, hfactors, hfactored, rfl, hM⟩ := (h.prepared hP hA).factorises hupper hk
  rw [positiveDefinite_curvature_iff P.csc.isSymm_mirror]
  exact hfactors.positive_eq_iff hM hweighted.rho_mul_rhoInv hfactored
    fun i => (hweighted.rhoInv_pos i).le

end LinearSystem

/-- The matrix of one entry. -/
def entryMatrix (a : ℚ) : SparseMatrix ℚ 1 1 where
  csc := ⟨1, 1, #[0, 1], #[0], #[a]⟩
  rows_eq := rfl
  cols_eq := rfl
  valid := Csc.valid_of_validate rfl

namespace LinearSystem

/-- A curvature of `-2` with a shift of `1` is made up for by a step size of `3`, but not by
one of a half. -/
theorem factor_eq_iff_positiveDefinite_entry : ∃ L : LinearSystem ℚ 1 1,
    LinearSystem.new (fun _ => some #[1, 0]) (entryMatrix (-2)) (entryMatrix 1) = .ok L ∧
    ((L.withRho 3).factor (entryMatrix (-2)) (entryMatrix 1) 1).2 = .ok 1 ∧
    ((L.withRho 0.5).factor (entryMatrix (-2)) (entryMatrix 1) 1).2 = .ok 0 ∧
    PositiveDefinite (curvature ((entryMatrix (-2)).csc.mirror 1)
      ((entryMatrix 1).csc.toMatrix 1 1) 1 (L.withRho 3).rho.get) ∧
    ¬PositiveDefinite (curvature ((entryMatrix (-2)).csc.mirror 1)
      ((entryMatrix 1).csc.toMatrix 1 1) 1 (L.withRho 0.5).rho.get) := by
  have hrun : (match LinearSystem.new (fun _ => some #[1, 0]) (entryMatrix (-2))
        (entryMatrix 1) with
      | .error _ => false
      | .ok L => decide (
          ((L.withRho 3).factor (entryMatrix (-2)) (entryMatrix 1) 1).2 = .ok 1 ∧
          ((L.withRho 0.5).factor (entryMatrix (-2)) (entryMatrix 1) 1).2 = .ok 0 ∧
          (∀ i, 0 < (L.withRho 3).rho.get i) ∧ ∀ i, 0 < (L.withRho 0.5).rho.get i)) = true := by
    decide +kernel
  split at hrun
  · cases hrun
  · rename_i L hnew
    obtain ⟨hone, hnone, hthree, hhalf⟩ := of_decide_eq_true hrun
    have hiff : ∀ {t : ℚ}, (∀ i, 0 < (L.withRho t).rho.get i) → ∀ {k : Nat},
        ((L.withRho t).factor (entryMatrix (-2)) (entryMatrix 1) 1).2 = .ok k →
        (k = 1 ↔ PositiveDefinite (curvature ((entryMatrix (-2)).csc.mirror 1)
          ((entryMatrix 1).csc.toMatrix 1 1) 1 (L.withRho t).rho.get)) := fun ht _ hk =>
      factor_eq_iff_positiveDefinite (.withRho (.new hnew) _) ⟨rfl, rfl⟩ ⟨rfl, rfl⟩
        (by decide +kernel) ht hk
    exact ⟨L, hnew, hone, hnone, (hiff hthree hone).mp rfl,
      fun hdefinite => absurd ((hiff hhalf hnone).mpr hdefinite) (by decide)⟩

end LinearSystem
end QuadOpt
