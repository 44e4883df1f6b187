/-
# The working data are the scaled data of the user

In exact arithmetic the data that a session works on are, entry by entry,

    P̄ = c D P D,   q̄ = c D q,   Ā = E A D,   l̄ = E l,   ū = E u

for positive `c`, `D` and `E` of which the exact inverses are at hand. A round
of equilibration keeps this up, and so does every change of the data.

Key definitions: `Equilibration.Scales`, `Problem.Scaled`.
Key theorems: `Equilibration.repeat_scales`, `Problem.equilibrate_scaled`,
`Problem.scaleVectors_scaled`.
-/
import QuadOpt.Admm.Equilibration
import QuadOpt.Proofs.Sparse.Meaning

namespace QuadOpt

variable {K : Type} [Field K] [LinearOrder K] [IsStrictOrderedRing K] [ExactScalar K] {n m : Nat}

/-! ### Factors -/

theorem clampScale_pos (x : K) : 0 < clampScale x := by
  unfold clampScale
  by_cases hx : x < Limits.minScaling
  · rw [if_pos hx]
    exact one_pos
  · rw [if_neg hx]
    have hmin : (0 : K) < Limits.minScaling := by
      norm_num [Limits.minScaling]
    have hmax : (0 : K) < Limits.maxScaling := by
      norm_num [Limits.maxScaling]
    exact lt_min (hmin.trans_le (not_lt.mp hx)) hmax

theorem scalingFactor_pos (x : K) : 0 < scalingFactor x :=
  one_div_pos.mpr (ExactScalar.sqrt_pos (clampScale_pos x))

namespace Equilibration

theorem costFactor_pos (S : Equilibration K n m) : 0 < S.costFactor :=
  one_div_pos.mpr (clampScale_pos _)

/-! ### Rounds -/

/-- The matrices and the linear objective are those of `D`, scaled by the
factors so far, which are positive. -/
structure Scales (D : Instance K n m) (S : Equilibration K n m) : Prop where
  d_pos : ∀ j, 0 < S.d.get j
  e_pos : ∀ i, 0 < S.e.get i
  c_pos : 0 < S.c
  P_eq : ∀ i j : Fin n, S.P.csc.entry i j = S.c * (S.d.get i * D.P.csc.entry i j * S.d.get j)
  A_eq : ∀ (i : Fin m) (j : Fin n),
    S.A.csc.entry i j = S.e.get i * D.A.csc.entry i j * S.d.get j
  q_eq : ∀ j, S.q.get j = S.c * (S.d.get j * D.q.get j)

variable {D : Instance K n m} {S : Equilibration K n m}

theorem start_scales (D : Instance K n m) : Scales D (start D) where
  d_pos j := by simp [start]
  e_pos i := by simp [start]
  c_pos := one_pos
  P_eq i j := by simp [start]
  A_eq i j := by simp [start]
  q_eq j := by simp [start]

theorem balance_scales (h : Scales D S) : Scales D S.balance where
  d_pos j := by
    simp only [balance, Vec.get_hadamard, Vec.get_map]
    exact mul_pos (h.d_pos j) (scalingFactor_pos _)
  e_pos i := by
    simp only [balance, Vec.get_hadamard, Vec.get_map]
    exact mul_pos (h.e_pos i) (scalingFactor_pos _)
  c_pos := h.c_pos
  P_eq i j := by
    simp only [balance, SparseMatrix.scaleSides, Vec.get_hadamard]
    rw [Csc.entry_scaleSides S.P.valid, h.P_eq]
    ring
  A_eq i j := by
    simp only [balance, SparseMatrix.scaleSides, Vec.get_hadamard]
    rw [Csc.entry_scaleSides S.A.valid, h.A_eq]
    ring
  q_eq j := by
    simp only [balance, Vec.get_hadamard, h.q_eq]
    ring

theorem scaleCost_scales (h : Scales D S) : Scales D S.scaleCost where
  d_pos := h.d_pos
  e_pos := h.e_pos
  c_pos := mul_pos h.c_pos S.costFactor_pos
  P_eq i j := by
    simp only [scaleCost, SparseMatrix.scale]
    rw [Csc.entry_scale, h.P_eq]
    ring
  A_eq := h.A_eq
  q_eq j := by
    simp only [scaleCost, Vec.get_scale, h.q_eq]
    ring

theorem repeat_scales (k : Nat) (h : Scales D S) : Scales D (Nat.repeat round k S) := by
  induction k with
  | zero => exact h
  | succ k ih => exact scaleCost_scales (balance_scales ih)

end Equilibration

/-! ### Problems -/

namespace Problem

/-- The working data are the scaled data of the user. -/
structure Scaled (D : Problem K n m) : Prop where
  d_pos : ∀ j, 0 < D.scaling.d.get j
  e_pos : ∀ i, 0 < D.scaling.e.get i
  c_pos : 0 < D.scaling.c
  dinv_eq : ∀ j, D.scaling.dinv.get j = 1 / D.scaling.d.get j
  einv_eq : ∀ i, D.scaling.einv.get i = 1 / D.scaling.e.get i
  cinv_eq : D.scaling.cinv = 1 / D.scaling.c
  P_eq : ∀ i j : Fin n, D.work.P.csc.entry i j
    = D.scaling.c * (D.scaling.d.get i * D.user.P.csc.entry i j * D.scaling.d.get j)
  A_eq : ∀ (i : Fin m) (j : Fin n), D.work.A.csc.entry i j
    = D.scaling.e.get i * D.user.A.csc.entry i j * D.scaling.d.get j
  q_eq : ∀ j, D.work.q.get j = D.scaling.c * (D.scaling.d.get j * D.user.q.get j)
  l_eq : ∀ i, D.work.l.get i = D.scaling.e.get i * D.user.l.get i
  u_eq : ∀ i, D.work.u.get i = D.scaling.e.get i * D.user.u.get i

/-- Whatever the working data were before, they are the scaled data of the user
after an equilibration of any number of rounds. -/
theorem equilibrate_scaled (D : Problem K n m) (rounds : Nat) : (D.equilibrate rounds).Scaled := by
  have h := Equilibration.repeat_scales rounds (Equilibration.start_scales D.user)
  exact {
    d_pos := h.d_pos
    e_pos := h.e_pos
    c_pos := h.c_pos
    dinv_eq := fun j => Vec.get_recip _ j
    einv_eq := fun i => Vec.get_recip _ i
    cinv_eq := rfl
    P_eq := h.P_eq
    A_eq := h.A_eq
    q_eq := h.q_eq
    l_eq := fun i => by simp only [equilibrate, Vec.get_hadamard, mul_comm]
    u_eq := fun i => by simp only [equilibrate, Vec.get_hadamard, mul_comm] }

omit [IsStrictOrderedRing K] in
/-- New vectors of the user are scaled as the old ones were. -/
theorem scaleVectors_scaled {D : Problem K n m} (h : D.Scaled) (q : Vec K n) (l u : Vec K m) :
    ({ D with user := { D.user with q := q, l := l, u := u } } : Problem K n m).scaleVectors.Scaled
    where
  d_pos := h.d_pos
  e_pos := h.e_pos
  c_pos := h.c_pos
  dinv_eq := h.dinv_eq
  einv_eq := h.einv_eq
  cinv_eq := h.cinv_eq
  P_eq := h.P_eq
  A_eq := h.A_eq
  q_eq j := by
    simp only [scaleVectors, Vec.get_hadamard, Vec.get_scale]
    ring
  l_eq i := by simp only [scaleVectors, Vec.get_hadamard, mul_comm]
  u_eq i := by simp only [scaleVectors, Vec.get_hadamard, mul_comm]

end Problem
end QuadOpt
