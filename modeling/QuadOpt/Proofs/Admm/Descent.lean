/-
# An iteration comes closer to every solution

With fixed step sizes `R = diag(ρ)` and valid factors, an iteration is a relaxed step
on the pair of `x` and `z + R⁻¹ y`. For a convex objective and a relaxation between
zero and two the weighted distance

    σ ‖x - x*‖² + ‖(z + R⁻¹ y) - (z* + R⁻¹ y*)‖²_R

to any solution `(x*, z*, y*)` does not grow, provided that the multipliers fit to
where `z` is, which is so again after the iteration.

Key definitions: `Instance.SolvedBy`, `Session.FactoredFor`, `Session.Intermediate`,
`Session.distance`, `Session.steps`.
Key theorems: `InNormalCone.mul_sub_nonneg`, `Session.FactoredFor.exists_intermediate`,
`Session.Intermediate.detour_nonpos`, `Session.step_descends`,
`Session.antitone_distance_steps`.
-/
import QuadOpt.Proofs.Admm.Convex

namespace QuadOpt

open Matrix

/-! ### Solutions -/

section NormalCone

variable {K : Type} [Field K] [LinearOrder K]

/-- The number `z` is in the interval from `l` to `u`, and `y` is a normal of the
interval there. -/
structure InNormalCone (l u z y : K) : Prop where
  lower : l ≤ z
  upper : z ≤ u
  at_upper : 0 < y → z = u
  at_lower : y < 0 → z = l

namespace InNormalCone

variable [IsStrictOrderedRing K] {l u z y z' y' : K}

/-- No point of the interval is in the direction of a normal. -/
theorem inner_nonneg (h : InNormalCone l u z y) (hl : l ≤ z') (hu : z' ≤ u) :
    0 ≤ y * (z - z') := by
  rcases lt_trichotomy y 0 with hneg | rfl | hpos
  · rw [h.at_lower hneg]
    exact mul_nonneg_of_nonpos_of_nonpos hneg.le (sub_nonpos.mpr hl)
  · rw [zero_mul]
  · rw [h.at_upper hpos]
    exact mul_nonneg hpos.le (sub_nonneg.mpr hu)

/-- Normals are monotone. -/
theorem mul_sub_nonneg (h : InNormalCone l u z y) (h' : InNormalCone l u z' y') :
    0 ≤ (y - y') * (z - z') := by
  have hleft := h.inner_nonneg h'.lower h'.upper
  have hright := h'.inner_nonneg h.lower h.upper
  linarith

end InNormalCone

variable {n m : Nat}

/-- The point `x` with `z = A x` and the multipliers `y` solves the problem. -/
structure Instance.SolvedBy (D : Instance K n m) (x : Fin n → K) (z y : Fin m → K) : Prop where
  stationary : ∀ j, (D.P.csc.mirror n *ᵥ x) j + D.q.get j + ((D.A.csc.toMatrix m n)ᵀ *ᵥ y) j = 0
  feasible : D.A.csc.toMatrix m n *ᵥ x = z
  normal : ∀ i, InNormalCone (D.l.get i) (D.u.get i) (z i) (y i)

theorem Session.Complementary.inNormalCone {S : Session K n m} (h : S.Complementary) (i : Fin m) :
    InNormalCone (S.data.work.l.get i) (S.data.work.u.get i) (S.vars.z.get i) (S.vars.y.get i) :=
  ⟨h.lower i, h.upper i, h.at_upper i, h.at_lower i⟩

end NormalCone

/-! ### The intermediate point -/

section Split

variable {α : Type} {n m : Nat}

theorem Vec.get_comp_finSumFinEquiv (s : Vec α (n + m)) :
    s.get ∘ finSumFinEquiv = Sum.elim (Vec.top s).get (Vec.bottom s).get := by
  funext k
  cases k with
  | inl j => simp [Vec.top]
  | inr i => simp [Vec.bottom]

theorem Vec.append_get_comp (v : Vec α n) (w : Vec α m) :
    (v ++ w).get ∘ finSumFinEquiv = Sum.elim v.get w.get := by
  funext k
  cases k with
  | inl j => simp [Vec.get_eq_getElem]
  | inr i => simp [Vec.get_eq_getElem]

end Split

variable {K : Type} [Field K] [LinearOrder K] [ExactScalar K] {n m : Nat}

/-- Factors of the matrix of optimality conditions solve its systems, block by block. -/
theorem Csc.IsKkt.exists_solve? {M : Csc K} {P : SparseMatrix K n n} {A : SparseMatrix K m n}
    {δ₁ : K} {δ₂ : Vec K m} (h : M.IsKkt P A δ₁ δ₂) {F : Ldl K (n + m)}
    (hfactors : F.Factorises (M.mirror (n + m))) (hfactored : F.isFactored = true)
    (b : Vec K (n + m)) : ∃ s, F.solve? b = some s ∧
      kktMatrix (P.csc.mirror n) (A.csc.toMatrix m n) δ₁ δ₂.get *ᵥ (s.get ∘ finSumFinEquiv)
        = b.get ∘ finSumFinEquiv := by
  obtain ⟨s, hsolve, hs⟩ := hfactors.solve_eq hfactored b
  refine ⟨s, hsolve, ?_⟩
  rw [← h.mirror_eq, submatrix_mulVec_equiv, Function.comp_assoc, Equiv.self_comp_symm,
    Function.comp_id, hs]

/-- What a solve with valid factors gives: `x̃` and `ν` solve the linear system, and
`z̃` is found from `ν`. -/
theorem LinearSystem.exists_solve? {L : LinearSystem K n m} {P : SparseMatrix K n n}
    {A : SparseMatrix K m n} {sigma : K} (hmatrix : L.K.IsKkt P A sigma L.rhoInv)
    (hfactors : L.ldl.Factorises (L.K.mirror (n + m))) (hfactored : L.ldl.isFactored = true)
    (x : Vec K n) (z y : Vec K m) (q : Vec K n) :
    ∃ (xt : Vec K n) (nu zt : Vec K m), L.solve? x z y q sigma = some (xt, zt) ∧
      (∀ j, (P.csc.mirror n *ᵥ xt.get) j + sigma * xt.get j
        + ((A.csc.toMatrix m n)ᵀ *ᵥ nu.get) j = sigma * x.get j - q.get j) ∧
      (∀ i, (A.csc.toMatrix m n *ᵥ xt.get) i - L.rhoInv.get i * nu.get i
        = z.get i - L.rhoInv.get i * y.get i) ∧
      ∀ i, zt.get i = z.get i + L.rhoInv.get i * (nu.get i - y.get i) := by
  let bx : Vec K n := .combine sigma x (-1) q
  let bz : Vec K m := Vector.ofFn fun i => z.get i - L.rhoInv.get i * y.get i
  obtain ⟨s, hsolve, hsystem⟩ := hmatrix.exists_solve? hfactors hfactored (bx ++ bz)
  rw [Vec.get_comp_finSumFinEquiv, Vec.append_get_comp] at hsystem
  refine ⟨Vec.top s, Vec.bottom s,
    Vector.ofFn fun i => z.get i + L.rhoInv.get i * ((Vec.bottom s).get i - y.get i),
    ?_, fun j => ?_, fun i => ?_, fun i => Vec.get_ofFn _ i⟩
  · unfold solve?
    simp only
    rw [hsolve]
  · have hrow := congrFun hsystem (.inl j)
    rw [kktMatrix_mulVec_inl, Sum.elim_inl, Vec.get_combine] at hrow
    linear_combination hrow
  · have hrow := congrFun hsystem (.inr i)
    rwa [kktMatrix_mulVec_inr, Sum.elim_inr, Vec.get_ofFn] at hrow

namespace Session

variable {S T : Session K n m} {alpha sigma : K}

/-- The step sizes are positive, and the valid factors are those of the system for the
working matrices, the regularisation `sigma` and the step sizes. -/
structure FactoredFor (S : Session K n m) (sigma : K) : Prop where
  weighted : S.system.Weighted
  matrix : S.system.K.IsKkt S.data.work.P S.data.work.A sigma S.system.rhoInv
  isFactored : S.system.ldl.isFactored = true
  factors : S.system.ldl.Factorises (S.system.K.mirror (n + m))

theorem FactoredFor.congr (h : S.FactoredFor sigma) (hdata : T.data = S.data)
    (hsystem : T.system = S.system) : T.FactoredFor sigma := by
  obtain ⟨hweighted, hmatrix, hfactored, hfactors⟩ := h
  constructor <;> simpa only [hdata, hsystem]

/-- The point `(x̃, z̃)` is optimal for the problem that is regularised around the
iterate, with the multipliers `ν`. -/
structure Intermediate (S : Session K n m) (sigma : K) (xt : Fin n → K) (zt nu : Fin m → K) :
    Prop where
  stationary : ∀ j, (S.data.work.P.csc.mirror n *ᵥ xt) j + S.data.work.q.get j
    + ((S.data.work.A.csc.toMatrix m n)ᵀ *ᵥ nu) j = -(sigma * (xt j - S.vars.x.get j))
  feasible : S.data.work.A.csc.toMatrix m n *ᵥ xt = zt
  multiplier : ∀ i, S.system.rho.get i * (zt i - S.vars.z.get i) = nu i - S.vars.y.get i

/-- With valid factors an iteration succeeds and relaxes towards the intermediate
point. -/
theorem FactoredFor.exists_intermediate (h : S.FactoredFor sigma) (alpha : K) :
    ∃ (xt : Vec K n) (zt nu : Vec K m), S.Intermediate sigma xt.get zt.get nu.get ∧
      S.step alpha sigma = (.ok (), { S with vars := S.advance alpha S.vars xt zt }) := by
  obtain ⟨xt, nu, zt, hsolve, hfirst, hsecond, hzt⟩ :=
    LinearSystem.exists_solve? h.matrix h.factors h.isFactored
      S.vars.x S.vars.z S.vars.y S.data.work.q
  refine ⟨xt, zt, nu, ⟨fun j => ?_, funext fun i => ?_, fun i => ?_⟩, ?_⟩
  · linear_combination hfirst j
  · linear_combination hsecond i - hzt i
  · linear_combination S.system.rho.get i * hzt i
      + (nu.get i - S.vars.y.get i) * h.weighted.rho_mul_rhoInv i
  · unfold step
    simp only [hsolve]

/-! ### Distances -/

/-- How far `zᵢ + yᵢ / ρᵢ` is from its value at `z` and `y`. -/
def gap (S : Session K n m) (z y : Fin m → K) (i : Fin m) : K :=
  S.vars.z.get i + S.vars.y.get i / S.system.rho.get i - z i - y i / S.system.rho.get i

/-- The weighted squared distance of the iterate to `(x, z, y)`. -/
def distance (S : Session K n m) (sigma : K) (x : Fin n → K) (z y : Fin m → K) : K :=
  sigma * ∑ j, (S.vars.x.get j - x j) ^ 2 + ∑ i, S.system.rho.get i * S.gap z y i ^ 2

/-- The weighted squared length of the way to the intermediate point. -/
def stride (S : Session K n m) (sigma : K) (xt : Fin n → K) (zt : Fin m → K) : K :=
  ∑ j, sigma * (xt j - S.vars.x.get j) ^ 2
    + ∑ i, S.system.rho.get i * (zt i - S.vars.z.get i) ^ 2

/-- The weighted inner product of the way to the intermediate point from the iterate
with the way there from `(x, z, y)`. -/
def detour (S : Session K n m) (sigma : K) (xt : Fin n → K) (zt : Fin m → K) (x : Fin n → K)
    (z y : Fin m → K) : K :=
  ∑ j, sigma * ((xt j - S.vars.x.get j) * (xt j - x j))
    + ∑ i, S.system.rho.get i * ((zt i - S.vars.z.get i)
        * (S.gap z y i + (zt i - S.vars.z.get i)))

omit [LinearOrder K] [ExactScalar K] in
/-- A relaxed step from `a` towards `a + b`. -/
theorem sum_relaxed {ι : Type} [Fintype ι] (w a b : ι → K) (t : K) :
    ∑ i, w i * (a i + t * b i) ^ 2 = ∑ i, w i * a i ^ 2
      + 2 * t * ∑ i, w i * (b i * (a i + b i)) - t * (2 - t) * ∑ i, w i * b i ^ 2 := by
  rw [Finset.mul_sum, Finset.mul_sum, ← Finset.sum_add_distrib, ← Finset.sum_sub_distrib]
  exact Finset.sum_congr rfl fun i _ => by ring

/-- What an iteration does to the coordinates of the distance. -/
theorem get_advance_gap (h : S.system.Weighted) (alpha : K) (xt : Vec K n) (zt : Vec K m) :
    let T : Session K n m := { S with vars := S.advance alpha S.vars xt zt }
    (∀ j, T.vars.x.get j = S.vars.x.get j + alpha * (xt.get j - S.vars.x.get j)) ∧
      ∀ z y i, T.gap z y i = S.gap z y i + alpha * (zt.get i - S.vars.z.get i) := by
  refine ⟨fun j => ?_, fun z y i => ?_⟩
  · simp only [advance, Vec.get_combine]
    ring
  · have hrho := (h.rho_pos i).ne'
    obtain ⟨-, hy⟩ := get_advance h alpha xt zt i
    -- The multipliers are what the projection cuts off, so the target is kept.
    have hsum : (S.advance alpha S.vars xt zt).z.get i
        + (S.advance alpha S.vars xt zt).y.get i / S.system.rho.get i = S.target alpha zt i := by
      rw [hy, mul_div_cancel_left₀ _ hrho, add_sub_cancel]
    unfold gap
    simp only
    rw [hsum, target, h.rhoInv_eq]
    ring

theorem distance_advance (h : S.system.Weighted) (alpha sigma : K) (xt : Vec K n) (zt : Vec K m)
    (x : Fin n → K) (z y : Fin m → K) :
    ({ S with vars := S.advance alpha S.vars xt zt } : Session K n m).distance sigma x z y
      = S.distance sigma x z y + 2 * alpha * S.detour sigma xt.get zt.get x z y
        - alpha * (2 - alpha) * S.stride sigma xt.get zt.get := by
  obtain ⟨hx, hgap⟩ := get_advance_gap h alpha xt zt
  have hvariables := sum_relaxed (fun _ => sigma) (fun j => S.vars.x.get j - x j)
    (fun j => xt.get j - S.vars.x.get j) alpha
  have hconstraints := sum_relaxed S.system.rho.get (S.gap z y)
    (fun i => zt.get i - S.vars.z.get i) alpha
  simp only [sub_add_sub_cancel'] at hvariables
  unfold distance detour stride
  rw [Finset.mul_sum, Finset.mul_sum]
  simp only [hx, hgap, add_sub_right_comm]
  rw [hvariables, hconstraints]
  ring

variable [IsStrictOrderedRing K]

omit [ExactScalar K] [IsStrictOrderedRing K] in
/-- The part of the constraints in the step, in terms of the multipliers. -/
theorem Intermediate.rho_mul_gap {xt : Fin n → K} {zt nu : Fin m → K}
    (h : S.Intermediate sigma xt zt nu) (hweighted : S.system.Weighted) (z y : Fin m → K)
    (i : Fin m) :
    S.system.rho.get i * ((zt i - S.vars.z.get i) * (S.gap z y i + (zt i - S.vars.z.get i)))
      = (nu i - S.vars.y.get i) * (zt i - z i)
        + (zt i - S.vars.z.get i) * (S.vars.y.get i - y i) := by
  have hcancel : S.system.rho.get i * ((S.vars.y.get i - y i) / S.system.rho.get i)
      = S.vars.y.get i - y i := mul_div_cancel₀ _ (hweighted.rho_pos i).ne'
  unfold gap
  linear_combination (zt i - z i) * h.multiplier i + (zt i - S.vars.z.get i) * hcancel

omit [ExactScalar K] in
/-- The intermediate point is on the way to every solution. -/
theorem Intermediate.detour_nonpos {xt : Fin n → K} {zt nu : Fin m → K}
    (h : S.Intermediate sigma xt zt nu) (hweighted : S.system.Weighted)
    (hconvex : S.data.work.Convex) (hcomplementary : S.Complementary) {x : Fin n → K}
    {z y : Fin m → K} (hsolved : S.data.work.SolvedBy x z y) :
    S.detour sigma xt zt x z y ≤ 0 := by
  let P := S.data.work.P.csc.mirror n
  let A := S.data.work.A.csc.toMatrix m n
  have hfeasible : A *ᵥ (xt - x) = zt - z := by
    rw [mulVec_sub, h.feasible, hsolved.feasible]
  have hstationary : ∀ j, sigma * (xt j - S.vars.x.get j)
      = -((P *ᵥ (xt - x)) j + (Aᵀ *ᵥ (nu - y)) j) := by
    intro j
    rw [mulVec_sub, mulVec_sub, Pi.sub_apply, Pi.sub_apply]
    linear_combination h.stationary j - hsolved.stationary j
  have hvariables : ∑ j, sigma * ((xt j - S.vars.x.get j) * (xt j - x j))
      = -((xt - x) ⬝ᵥ P *ᵥ (xt - x)) - ∑ i, (nu i - y i) * (zt i - z i) :=
    calc ∑ j, sigma * ((xt j - S.vars.x.get j) * (xt j - x j))
        = ∑ j, (-((xt - x) j * (P *ᵥ (xt - x)) j) - (xt - x) j * (Aᵀ *ᵥ (nu - y)) j) :=
          Finset.sum_congr rfl fun j _ => by
            rw [Pi.sub_apply]
            linear_combination (xt j - x j) * hstationary j
      _ = -((xt - x) ⬝ᵥ P *ᵥ (xt - x)) - (xt - x) ⬝ᵥ Aᵀ *ᵥ (nu - y) := by
          rw [Finset.sum_sub_distrib, Finset.sum_neg_distrib]
          rfl
      _ = -((xt - x) ⬝ᵥ P *ᵥ (xt - x)) - ∑ i, (nu i - y i) * (zt i - z i) := by
          rw [dotProduct_transpose_mulVec, hfeasible]
          rfl
  have hconstraints : ∑ i, S.system.rho.get i * ((zt i - S.vars.z.get i)
        * (S.gap z y i + (zt i - S.vars.z.get i)))
      = ∑ i, (nu i - y i) * (zt i - z i)
        - ∑ i, (S.vars.y.get i - y i) * (S.vars.z.get i - z i) := by
    rw [← Finset.sum_sub_distrib]
    refine Finset.sum_congr rfl fun i _ => ?_
    rw [h.rho_mul_gap hweighted]
    ring
  have hform : 0 ≤ (xt - x) ⬝ᵥ P *ᵥ (xt - x) := hconvex _
  have hmonotone : 0 ≤ ∑ i, (S.vars.y.get i - y i) * (S.vars.z.get i - z i) :=
    Finset.sum_nonneg fun i _ =>
      (hcomplementary.inNormalCone i).mul_sub_nonneg (hsolved.normal i)
  rw [detour, hvariables, hconstraints]
  linarith

/-! ### Descent -/

/-- A relaxed step to the intermediate point comes no further from any solution. -/
theorem Intermediate.distance_le {xt : Vec K n} {zt nu : Vec K m}
    (h : S.Intermediate sigma xt.get zt.get nu.get) (hweighted : S.system.Weighted)
    (hconvex : S.data.work.Convex) (hcomplementary : S.Complementary) (hsigma : 0 < sigma)
    (halpha : 0 < alpha) (halpha' : alpha < 2) {x : Fin n → K} {z y : Fin m → K}
    (hsolved : S.data.work.SolvedBy x z y) :
    ({ S with vars := S.advance alpha S.vars xt zt } : Session K n m).distance sigma x z y
      ≤ S.distance sigma x z y := by
  have hdetour := h.detour_nonpos hweighted hconvex hcomplementary hsolved
  have hstride : 0 ≤ S.stride sigma xt.get zt.get :=
    add_nonneg (Finset.sum_nonneg fun j _ => mul_nonneg hsigma.le (sq_nonneg _))
      (Finset.sum_nonneg fun i _ => mul_nonneg (hweighted.rho_pos i).le (sq_nonneg _))
  have hgain : 0 ≤ alpha * (2 - alpha) * S.stride sigma xt.get zt.get :=
    mul_nonneg (mul_nonneg halpha.le (sub_nonneg.mpr halpha'.le)) hstride
  have hloss : 2 * alpha * S.detour sigma xt.get zt.get x z y ≤ 0 :=
    mul_nonpos_of_nonneg_of_nonpos (mul_pos two_pos halpha).le hdetour
  rw [distance_advance hweighted]
  linarith

/-- Valid factors of a system that was filled with the data of the session. -/
theorem Filled.factoredFor (h : S.Filled) (hsound : S.Sound)
    (hfactored : S.system.ldl.isFactored = true) : S.FactoredFor S.settings.sigma :=
  ⟨hsound.weighted, h.isKkt, hfactored, h.factorises hfactored⟩

/-- Valid factors of a session that calls have led to are those of its system. -/
theorem Reachable.factoredFor (h : S.Reachable) (hfactored : S.system.ldl.isFactored = true) :
    S.FactoredFor S.settings.sigma :=
  (h.filled fun _ heq => eq_of_beq heq).factoredFor h.sound hfactored

/-- For a convex problem an iteration with fixed step sizes comes no further from any
solution, and its multipliers fit to where `z` is. -/
theorem step_descends (h : S.FactoredFor sigma) (hconvex : S.data.work.Convex)
    (hbounds : ∀ i, S.data.work.l.get i ≤ S.data.work.u.get i) (hsigma : 0 < sigma)
    (halpha : 0 < alpha) (halpha' : alpha < 2) (hcomplementary : S.Complementary) :
    ∃ T, S.step alpha sigma = (.ok (), T) ∧ T.Complementary ∧
      ∀ x z y, S.data.work.SolvedBy x z y → T.distance sigma x z y ≤ S.distance sigma x z y := by
  obtain ⟨xt, zt, nu, hintermediate, hstep⟩ := h.exists_intermediate alpha
  exact ⟨_, hstep, step_complementary h.weighted hbounds hstep, fun x z y =>
    hintermediate.distance_le h.weighted hconvex hcomplementary hsigma halpha halpha'⟩

/-- One half is the solution of the problem of one variable. -/
theorem step_descends_unitProblem : ∃ (S : AdmmSession ℚ) (T : Session ℚ S.n S.m),
    AdmmSession.setup (.still ℚ) unitProblem plainSettings = .ok S ∧
    S.session.FactoredFor plainSettings.sigma ∧
    S.session.step 1.5 plainSettings.sigma = (.ok (), T) ∧ T.Complementary ∧
    T.distance plainSettings.sigma (fun _ => 1 / 2) (fun _ => 1 / 2) (fun _ => 1 / 2)
      ≤ S.session.distance plainSettings.sigma (fun _ => 1 / 2) (fun _ => 1 / 2)
        fun _ => 1 / 2 := by
  have hrun : (match AdmmSession.setup (.still ℚ) unitProblem plainSettings with
      | .error _ => false
      | .ok S =>
        let D := S.session.data
        decide (S.session.settings.sigma = plainSettings.sigma) && decide (S.n = 1) &&
          decide (D.user.P.csc.entries = [(0, 0, 1)]) &&
          ((List.finRange S.n).all fun j =>
            decide ((D.work.P.csc.mirror S.n *ᵥ fun _ => 1 / 2) j + D.work.q.get j
              + ((D.work.A.csc.toMatrix S.m S.n)ᵀ *ᵥ fun _ => 1 / 2) j = 0)) &&
          (List.finRange S.m).all fun i =>
            decide (D.work.l.get i = 0 ∧ D.work.u.get i = 1 / 2 ∧
              (D.work.A.csc.toMatrix S.m S.n *ᵥ fun _ => 1 / 2) i = 1 / 2 ∧
              S.session.vars.z.get i = 0 ∧ S.session.vars.y.get i = 0)) = true := by
    decide +kernel
  split at hrun
  · cases hrun
  · rename_i S hsetup
    simp only [Bool.and_eq_true, List.all_eq_true, List.mem_finRange, decide_eq_true_eq,
      true_implies] at hrun
    obtain ⟨⟨⟨⟨hsigma, hn⟩, hentries⟩, hstationary⟩, hrows⟩ := hrun
    have hreachable : S.session.Reachable := .setup hsetup
    have hfactored : S.session.FactoredFor plainSettings.sigma :=
      hsigma ▸ hreachable.factoredFor (setup_ready hsetup).1
    have hconvex : S.session.data.work.Convex :=
      hreachable.sound.scaled.work_convex (Instance.convex_of_entries zero_le_one hn hentries)
    have hsolved : S.session.data.work.SolvedBy (fun _ => 1 / 2) (fun _ => 1 / 2)
        fun _ => 1 / 2 := by
      refine ⟨hstationary, funext fun i => (hrows i).2.2.1, fun i => ?_⟩
      obtain ⟨hl, hu, -⟩ := hrows i
      rw [hl, hu]
      exact ⟨by norm_num, le_rfl, fun _ => rfl, fun hneg => absurd hneg (by norm_num)⟩
    have hcomplementary : S.session.Complementary := by
      constructor
      all_goals
        intro i
        obtain ⟨hl, hu, -, hz, hy⟩ := hrows i
        norm_num [hl, hu, hz, hy]
    have hbounds : ∀ i, S.session.data.work.l.get i ≤ S.session.data.work.u.get i := by
      intro i
      rw [(hrows i).1, (hrows i).2.1]
      norm_num
    have halpha : (0 : ℚ) < 1.5 ∧ (1.5 : ℚ) < 2 := by norm_num
    obtain ⟨T, hstep, hafter, hdescends⟩ := step_descends hfactored hconvex hbounds
      (by decide +kernel) halpha.1 halpha.2 hcomplementary
    exact ⟨S, T, hsetup, hfactored, hstep, hafter, hdescends _ _ _ hsolved⟩

/-! ### Runs -/

/-- The session after `k` iterations with the same factors. -/
def steps (S : Session K n m) (alpha sigma : K) (k : Nat) : Session K n m :=
  Nat.repeat (fun S => (S.step alpha sigma).2) k S

/-- Iterations leave the data and the factors alone, and the multipliers fit. -/
theorem steps_keep (h : S.FactoredFor sigma)
    (hbounds : ∀ i, S.data.work.l.get i ≤ S.data.work.u.get i) (hcomplementary : S.Complementary)
    (alpha : K) (k : Nat) : (S.steps alpha sigma k).data = S.data ∧
      (S.steps alpha sigma k).system = S.system ∧ (S.steps alpha sigma k).Complementary := by
  induction k with
  | zero => exact ⟨rfl, rfl, hcomplementary⟩
  | succ k ih =>
    obtain ⟨hdata, hsystem, -⟩ := ih
    have hfactored := h.congr hdata hsystem
    obtain ⟨xt, zt, nu, -, hstep⟩ := hfactored.exists_intermediate alpha
    have hafter := step_complementary hfactored.weighted (by rwa [hdata]) hstep
    have hnext : S.steps alpha sigma (k + 1)
        = ((S.steps alpha sigma k).step alpha sigma).2 := rfl
    rw [hnext, hstep]
    exact ⟨hdata, hsystem, hafter⟩

/-- Along iterations with the same factors the distance to a solution never grows. -/
theorem antitone_distance_steps (h : S.FactoredFor sigma) (hconvex : S.data.work.Convex)
    (hbounds : ∀ i, S.data.work.l.get i ≤ S.data.work.u.get i) (hsigma : 0 < sigma)
    (halpha : 0 < alpha) (halpha' : alpha < 2) (hcomplementary : S.Complementary)
    {x : Fin n → K} {z y : Fin m → K} (hsolved : S.data.work.SolvedBy x z y) :
    Antitone fun k => (S.steps alpha sigma k).distance sigma x z y := by
  refine antitone_nat_of_succ_le fun k => ?_
  obtain ⟨hdata, hsystem, hfits⟩ := steps_keep h hbounds hcomplementary alpha k
  have hfactored := h.congr hdata hsystem
  obtain ⟨xt, zt, nu, hintermediate, hstep⟩ := hfactored.exists_intermediate alpha
  have hnext : S.steps alpha sigma (k + 1) = ((S.steps alpha sigma k).step alpha sigma).2 := rfl
  simp only [hnext, hstep]
  exact hintermediate.distance_le hfactored.weighted (by rwa [hdata]) hfits hsigma halpha halpha'
    (by rwa [hdata])

end Session
end QuadOpt
