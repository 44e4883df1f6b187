/-
# Residuals in the coordinates of the user

The residuals of an iterate are computed from the scaled data and the scaled
iterate. In exact arithmetic they are the residuals of the point that the user
gets to see, on the data that the user gave.

Key definitions: `Problem.userX`, `Problem.userY`, `Problem.userZ`.
Key theorems: `Problem.Scaled.residuals_prim`, `Problem.Scaled.residuals_dual`,
`Problem.Scaled.residuals_primNorm`, `Problem.Scaled.residuals_dualNorm`.
-/
import Mathlib.Tactic.FieldSimp
import Mathlib.Tactic.LinearCombination
import QuadOpt.Admm.Step
import QuadOpt.Proofs.Admm.Scaled

namespace QuadOpt

open Matrix

variable {K : Type} [Field K] [LinearOrder K] {n m : Nat}

namespace Problem

/-! ### The iterate of the user -/

/-- The point of an iterate in the coordinates of the user. -/
def userX (D : Problem K n m) (v : Iterate K n m) : Fin n → K :=
  fun j => v.x.get j * D.scaling.d.get j

/-- The multipliers of an iterate in the coordinates of the user. -/
def userY (D : Problem K n m) (v : Iterate K n m) : Fin m → K :=
  fun i => v.y.get i * D.scaling.e.get i * D.scaling.cinv

/-- The projected constraint values of an iterate in the coordinates of the
user. -/
def userZ (D : Problem K n m) (v : Iterate K n m) : Fin m → K :=
  fun i => v.z.get i * D.scaling.einv.get i

namespace Scaled

variable {D : Problem K n m} (h : D.Scaled)

include h

theorem dinv_mul (j : Fin n) (t : K) : D.scaling.d.get j * t * D.scaling.dinv.get j = t := by
  have hd := (h.d_pos j).ne'
  rw [h.dinv_eq]
  field_simp

theorem einv_mul (i : Fin m) (t : K) : D.scaling.e.get i * t * D.scaling.einv.get i = t := by
  have he := (h.e_pos i).ne'
  rw [h.einv_eq]
  field_simp

theorem cinv_mul : D.scaling.cinv * D.scaling.c = 1 := by
  rw [h.cinv_eq]
  exact one_div_mul_cancel h.c_pos.ne'

/-! ### Products -/

/-- `Ā x = E A (D x)` -/
theorem A_mulVec (x : Fin n → K) (i : Fin m) : (D.work.A.csc.toMatrix m n *ᵥ x) i
    = D.scaling.e.get i
      * (D.user.A.csc.toMatrix m n *ᵥ fun j => x j * D.scaling.d.get j) i := by
  simp only [mulVec, dotProduct, Csc.toMatrix, of_apply, h.A_eq, Finset.mul_sum]
  exact Finset.sum_congr rfl fun j _ => by ring

/-- `Āᵀ y = D Aᵀ (E y)` -/
theorem A_transpose_mulVec (y : Fin m → K) (j : Fin n) :
    ((D.work.A.csc.toMatrix m n)ᵀ *ᵥ y) j = D.scaling.d.get j
      * ((D.user.A.csc.toMatrix m n)ᵀ *ᵥ fun i => y i * D.scaling.e.get i) j := by
  simp only [mulVec, dotProduct, transpose_apply, Csc.toMatrix, of_apply, h.A_eq, Finset.mul_sum]
  exact Finset.sum_congr rfl fun i _ => by ring

theorem work_mirror (i j : Fin n) : D.work.P.csc.mirror n i j
    = D.scaling.c * (D.scaling.d.get i * D.user.P.csc.mirror n i j * D.scaling.d.get j) := by
  simp only [Csc.mirror, of_apply]
  by_cases hij : i ≤ j
  · rw [if_pos hij, if_pos hij, h.P_eq]
  · rw [if_neg hij, if_neg hij, h.P_eq]
    ring

/-- `P̄ x = c D P (D x)` -/
theorem P_mulVec (x : Fin n → K) (j : Fin n) : (D.work.P.csc.mirror n *ᵥ x) j = D.scaling.c
    * (D.scaling.d.get j * (D.user.P.csc.mirror n *ᵥ fun i => x i * D.scaling.d.get i) j) := by
  simp only [mulVec, dotProduct, h.work_mirror, Finset.mul_sum]
  exact Finset.sum_congr rfl fun i _ => by ring

theorem work_mulVec (v : Iterate K n m) (i : Fin m) :
    (D.work.A.csc.toMatrix m n *ᵥ v.x.get) i
      = D.scaling.e.get i * (D.user.A.csc.toMatrix m n *ᵥ D.userX v) i := h.A_mulVec _ i

theorem work_symMulVec (v : Iterate K n m) (j : Fin n) :
    (D.work.P.csc.mirror n *ᵥ v.x.get) j
      = D.scaling.c * (D.scaling.d.get j * (D.user.P.csc.mirror n *ᵥ D.userX v) j) :=
  h.P_mulVec _ j

theorem work_transposeMulVec (v : Iterate K n m) (j : Fin n) :
    ((D.work.A.csc.toMatrix m n)ᵀ *ᵥ v.y.get) j
      = D.scaling.c * (D.scaling.d.get j * ((D.user.A.csc.toMatrix m n)ᵀ *ᵥ D.userY v) j) := by
  have hy : D.userY v = D.scaling.cinv • fun i => v.y.get i * D.scaling.e.get i := by
    funext i
    simp only [userY, Pi.smul_apply, smul_eq_mul]
    ring
  rw [h.A_transpose_mulVec, hy, mulVec_smul, Pi.smul_apply, smul_eq_mul]
  linear_combination -(D.scaling.d.get j
    * ((D.user.A.csc.toMatrix m n)ᵀ *ᵥ fun i => v.y.get i * D.scaling.e.get i) j) * h.cinv_mul

/-! ### Residuals -/

variable [ExactScalar K]

theorem residuals_prim (v : Iterate K n m) : (Session.residuals D v).prim
    = supNorm (D.user.A.csc.toMatrix m n *ᵥ D.userX v - D.userZ v) := by
  simp only [Session.residuals]
  rw [Vec.normInfWeighted_eq_supNorm]
  congr 1
  funext i
  rw [Vec.get_combine, Csc.get_mulVec, h.work_mulVec]
  simp only [Pi.sub_apply, userZ]
  linear_combination h.einv_mul i ((D.user.A.csc.toMatrix m n *ᵥ D.userX v) i)

theorem residuals_primNorm (v : Iterate K n m) : (Session.residuals D v).primNorm
    = max (supNorm (D.user.A.csc.toMatrix m n *ᵥ D.userX v)) (supNorm (D.userZ v)) := by
  have hAx : (D.work.A.csc.mulVec m v.x).normInfWeighted D.scaling.einv
      = supNorm (D.user.A.csc.toMatrix m n *ᵥ D.userX v) := by
    rw [Vec.normInfWeighted_eq_supNorm]
    congr 1
    funext i
    rw [Csc.get_mulVec, h.work_mulVec, h.einv_mul]
  have hz : v.z.normInfWeighted D.scaling.einv = supNorm (D.userZ v) :=
    Vec.normInfWeighted_eq_supNorm _ _
  simp only [Session.residuals]
  rw [hAx, hz]
  rfl

variable [IsStrictOrderedRing K]

omit [ExactScalar K] in
/-- The norm of scaled numbers, each divided by its scaling. -/
theorem cinv_mul_supNorm {w : Fin n → K} {f : Fin n → K}
    (hw : ∀ j, w j = D.scaling.c * (D.scaling.d.get j * f j)) :
    D.scaling.cinv * supNorm (fun j => w j * D.scaling.dinv.get j) = supNorm f := by
  have hcinv : 0 < D.scaling.cinv := by
    rw [h.cinv_eq]
    exact one_div_pos.mpr h.c_pos
  rw [mul_supNorm hcinv]
  congr 1
  funext j
  rw [hw]
  linear_combination (D.scaling.d.get j * f j * D.scaling.dinv.get j) * h.cinv_mul
    + h.dinv_mul j (f j)

theorem residuals_dual (v : Iterate K n m) : (Session.residuals D v).dual
    = supNorm (D.user.P.csc.mirror n *ᵥ D.userX v + D.user.q.get
        + (D.user.A.csc.toMatrix m n)ᵀ *ᵥ D.userY v) := by
  simp only [Session.residuals]
  rw [Vec.normInfWeighted_eq_supNorm]
  apply h.cinv_mul_supNorm
  intro j
  rw [Vec.get_ofFn, Csc.get_symMulVec _ fun e => Csc.le_of_isUpper D.work.upper,
    Csc.get_transposeMulVec _ D.work.A.cols_eq, h.work_symMulVec, h.work_transposeMulVec, h.q_eq]
  simp only [Pi.add_apply]
  ring

theorem residuals_dualNorm (v : Iterate K n m) : (Session.residuals D v).dualNorm
    = max (max (supNorm (D.user.P.csc.mirror n *ᵥ D.userX v))
        (supNorm ((D.user.A.csc.toMatrix m n)ᵀ *ᵥ D.userY v))) (supNorm D.user.q.get) := by
  have hcinv : 0 ≤ D.scaling.cinv := by
    rw [h.cinv_eq]
    exact (one_div_pos.mpr h.c_pos).le
  have hPx : D.scaling.cinv * (D.work.P.csc.symMulVec v.x).normInfWeighted D.scaling.dinv
      = supNorm (D.user.P.csc.mirror n *ᵥ D.userX v) := by
    rw [Vec.normInfWeighted_eq_supNorm]
    apply h.cinv_mul_supNorm
    intro j
    rw [Csc.get_symMulVec _ fun e => Csc.le_of_isUpper D.work.upper, h.work_symMulVec]
  have hAty : D.scaling.cinv * (D.work.A.csc.transposeMulVec n v.y).normInfWeighted D.scaling.dinv
      = supNorm ((D.user.A.csc.toMatrix m n)ᵀ *ᵥ D.userY v) := by
    rw [Vec.normInfWeighted_eq_supNorm]
    apply h.cinv_mul_supNorm
    intro j
    rw [Csc.get_transposeMulVec _ D.work.A.cols_eq, h.work_transposeMulVec]
  have hq : D.scaling.cinv * D.work.q.normInfWeighted D.scaling.dinv = supNorm D.user.q.get := by
    rw [Vec.normInfWeighted_eq_supNorm]
    exact h.cinv_mul_supNorm h.q_eq
  simp only [Session.residuals]
  rw [← hPx, ← hAty, ← hq, ← mul_max_of_nonneg _ _ hcinv, ← mul_max_of_nonneg _ _ hcinv]
  rfl

end Scaled
end Problem
end QuadOpt
