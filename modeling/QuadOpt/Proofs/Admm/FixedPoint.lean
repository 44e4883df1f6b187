/-
# Iterations rest at solutions only

With valid factors an iteration leaves the iterate `(x, z, y)` as it is iff the iterate
solves the problem. The intermediate point is the only one of its kind, since the
system has one solution; so it is the iterate itself iff the iterate is stationary and
feasible, and then the projection moves nothing iff the multipliers are normals of the
bounds. Scaling carries solutions over to the coordinates of the user and back.

Key definitions: `Session.Visits`.
Key theorems: `Session.FactoredFor.intermediate_unique`, `Problem.Scaled.solvedBy_iff`,
`Session.FactoredFor.step_fixes_iff`, `Session.step_fixes_iff_solvedBy`.
-/
import QuadOpt.Proofs.Admm.Descent

namespace QuadOpt

open Matrix

/-! ### Scaled solutions -/

section Scaled

variable {K : Type} [Field K] [LinearOrder K] [IsStrictOrderedRing K] {n m : Nat}

/-- Positive factors keep normals of an interval. -/
theorem InNormalCone.mul_iff {l u z y a b : K} (ha : 0 < a) (hb : 0 < b) :
    InNormalCone (a * l) (a * u) (a * z) (b * y) ↔ InNormalCone l u z y := by
  have hcancel : ∀ s t : K, a * s = a * t ↔ s = t := fun s t => mul_right_inj' ha.ne'
  constructor
  · intro h
    exact ⟨le_of_mul_le_mul_left h.lower ha, le_of_mul_le_mul_left h.upper ha,
      fun hy => (hcancel _ _).mp (h.at_upper (mul_pos hb hy)),
      fun hy => (hcancel _ _).mp (h.at_lower (mul_neg_of_pos_of_neg hb hy))⟩
  · intro h
    exact ⟨mul_le_mul_of_nonneg_left h.lower ha.le, mul_le_mul_of_nonneg_left h.upper ha.le,
      fun hy => (hcancel _ _).mpr (h.at_upper (pos_of_mul_pos_right hy hb.le)),
      fun hy => (hcancel _ _).mpr (h.at_lower (neg_of_mul_neg_right hy hb.le))⟩

/-- From a point of the interval in the direction of a normal, the projection leads
back to the point. -/
theorem InNormalCone.clip_eq {l u z y t : K} (h : InNormalCone l u z y) (ht : 0 < t) :
    min (max (z + t * y) l) u = z := by
  rcases lt_trichotomy y 0 with hneg | rfl | hpos
  · have hz := h.at_lower hneg
    have hle : z + t * y ≤ l := by
      rw [hz]
      linarith [mul_neg_of_pos_of_neg ht hneg]
    rw [max_eq_right hle, hz, min_eq_left (hz ▸ h.upper)]
  · rw [mul_zero, add_zero, max_eq_left h.lower, min_eq_left h.upper]
  · have hz := h.at_upper hpos
    have hle : u ≤ z + t * y := by
      rw [hz]
      linarith [mul_pos ht hpos]
    rw [min_eq_right (hle.trans (le_max_left _ _)), hz]

/-- An iterate solves the scaled problem iff it solves that of the user in the
coordinates of the user. -/
theorem Problem.Scaled.solvedBy_iff {D : Problem K n m} (h : D.Scaled) (v : Iterate K n m) :
    D.work.SolvedBy v.x.get v.z.get v.y.get ↔
      D.user.SolvedBy (D.userX v) (D.userZ v) (D.userY v) := by
  have hz : ∀ i, v.z.get i = D.scaling.e.get i * D.userZ v i := by
    intro i
    rw [Problem.userZ, ← mul_assoc, h.einv_mul]
  have hy : ∀ i, v.y.get i = D.scaling.c * D.scaling.einv.get i * D.userY v i := by
    intro i
    rw [Problem.userY]
    linear_combination -(v.y.get i * h.cinv_mul)
      - v.y.get i * D.scaling.cinv * D.scaling.c * h.einv_mul i 1
  have hstationary : ∀ j, (D.work.P.csc.mirror n *ᵥ v.x.get) j + D.work.q.get j
        + ((D.work.A.csc.toMatrix m n)ᵀ *ᵥ v.y.get) j
      = D.scaling.c * D.scaling.d.get j * ((D.user.P.csc.mirror n *ᵥ D.userX v) j
        + D.user.q.get j + ((D.user.A.csc.toMatrix m n)ᵀ *ᵥ D.userY v) j) := by
    intro j
    rw [h.work_symMulVec, h.work_transposeMulVec, h.q_eq]
    ring
  have hnormal : ∀ i, InNormalCone (D.work.l.get i) (D.work.u.get i) (v.z.get i) (v.y.get i) ↔
      InNormalCone (D.user.l.get i) (D.user.u.get i) (D.userZ v i) (D.userY v i) := by
    intro i
    have hfactor : 0 < D.scaling.c * D.scaling.einv.get i := by
      rw [h.einv_eq]
      exact mul_pos h.c_pos (one_div_pos.mpr (h.e_pos i))
    rw [h.l_eq, h.u_eq, hz, hy, InNormalCone.mul_iff (h.e_pos i) hfactor]
  constructor
  · intro hsolved
    refine ⟨fun j => ?_, funext fun i => ?_, fun i => (hnormal i).mp (hsolved.normal i)⟩
    · have hzero := hsolved.stationary j
      rw [hstationary] at hzero
      exact (mul_eq_zero.mp hzero).resolve_left (mul_pos h.c_pos (h.d_pos j)).ne'
    · have hrow := congrFun hsolved.feasible i
      rw [h.work_mulVec, hz] at hrow
      exact mul_left_cancel₀ (h.e_pos i).ne' hrow
  · intro hsolved
    refine ⟨fun j => ?_, funext fun i => ?_, fun i => (hnormal i).mpr (hsolved.normal i)⟩
    · rw [hstationary, hsolved.stationary, mul_zero]
    · rw [h.work_mulVec, hsolved.feasible, ← hz]

end Scaled

variable {K : Type} [Field K] [LinearOrder K] [ExactScalar K] {n m : Nat}

namespace Session

variable {S T U : Session K n m} {alpha sigma : K}

/-! ### The iterate as its own intermediate point -/

/-- The linear system has one solution, so there is one intermediate point. -/
theorem FactoredFor.intermediate_unique (h : S.FactoredFor sigma) {xt xt' : Fin n → K}
    {zt zt' nu nu' : Fin m → K} (hfirst : S.Intermediate sigma xt zt nu)
    (hsecond : S.Intermediate sigma xt' zt' nu') : xt = xt' ∧ zt = zt' ∧ nu = nu' := by
  have hunit : IsUnit (kktMatrix (S.data.work.P.csc.mirror n) (S.data.work.A.csc.toMatrix m n)
      sigma S.system.rhoInv.get) := by
    rw [← h.matrix.mirror_eq, isUnit_submatrix_equiv]
    exact h.factors.isUnit h.isFactored
  have hsystem : ∀ {xt : Fin n → K} {zt nu : Fin m → K}, S.Intermediate sigma xt zt nu →
      kktMatrix (S.data.work.P.csc.mirror n) (S.data.work.A.csc.toMatrix m n) sigma
          S.system.rhoInv.get *ᵥ Sum.elim xt nu
        = Sum.elim (fun j => sigma * S.vars.x.get j - S.data.work.q.get j)
          fun i => S.vars.z.get i - S.system.rhoInv.get i * S.vars.y.get i := by
    intro xt zt nu hxt
    funext k
    cases k with
    | inl j =>
      rw [kktMatrix_mulVec_inl, Sum.elim_inl]
      linear_combination hxt.stationary j
    | inr i =>
      rw [kktMatrix_mulVec_inr, Sum.elim_inr, hxt.feasible]
      linear_combination (zt i - S.vars.z.get i) * -h.weighted.rho_mul_rhoInv i
        + S.system.rhoInv.get i * hxt.multiplier i
  have helim := mulVec_injective_of_isUnit hunit ((hsystem hfirst).trans (hsystem hsecond).symm)
  have hx : xt = xt' := funext fun j => congrFun helim (.inl j)
  have hnu : nu = nu' := funext fun i => congrFun helim (.inr i)
  refine ⟨hx, ?_, hnu⟩
  rw [← hfirst.feasible, ← hsecond.feasible, hx]

omit [LinearOrder K] [ExactScalar K] in
/-- The iterate is its own intermediate point iff it is stationary and feasible. -/
theorem intermediate_self_iff :
    S.Intermediate sigma S.vars.x.get S.vars.z.get S.vars.y.get ↔
      (∀ j, (S.data.work.P.csc.mirror n *ᵥ S.vars.x.get) j + S.data.work.q.get j
        + ((S.data.work.A.csc.toMatrix m n)ᵀ *ᵥ S.vars.y.get) j = 0) ∧
      S.data.work.A.csc.toMatrix m n *ᵥ S.vars.x.get = S.vars.z.get := by
  constructor
  · intro h
    refine ⟨fun j => ?_, h.feasible⟩
    rw [h.stationary, sub_self, mul_zero, neg_zero]
  · rintro ⟨hstationary, hfeasible⟩
    refine ⟨fun j => ?_, hfeasible, fun i => ?_⟩
    · rw [hstationary, sub_self, mul_zero, neg_zero]
    · rw [sub_self, sub_self, mul_zero]

/-! ### Iterations at rest -/

/-- Where the relaxed step leaves the iterate, the intermediate point is the iterate. -/
theorem FactoredFor.eq_of_advance_eq (h : S.FactoredFor sigma) (halpha : alpha ≠ 0)
    {xt : Vec K n} {zt nu : Vec K m} (hintermediate : S.Intermediate sigma xt.get zt.get nu.get)
    (hx : (S.advance alpha S.vars xt zt).x = S.vars.x)
    (hz : (S.advance alpha S.vars xt zt).z = S.vars.z)
    (hy : (S.advance alpha S.vars xt zt).y = S.vars.y) :
    xt.get = S.vars.x.get ∧ zt.get = S.vars.z.get ∧ nu.get = S.vars.y.get := by
  obtain ⟨hmoved, -⟩ := get_advance_gap h.weighted alpha xt zt
  have hzt : zt.get = S.vars.z.get := by
    funext i
    obtain ⟨-, hprojected⟩ := get_advance h.weighted alpha xt zt i
    rw [hz, hy, target] at hprojected
    -- The projection cuts `y` off from the target, so the target is `z + R⁻¹ y`.
    have htarget : alpha * (zt.get i - S.vars.z.get i) = 0 := by
      have hrho := (h.weighted.rho_pos i).ne'
      apply mul_left_cancel₀ hrho
      linear_combination -hprojected - S.vars.y.get i * h.weighted.rho_mul_rhoInv i
    exact sub_eq_zero.mp ((mul_eq_zero.mp htarget).resolve_left halpha)
  refine ⟨funext fun j => ?_, hzt, funext fun i => ?_⟩
  · have hstep := hmoved j
    simp only [hx] at hstep
    have hzero : alpha * (xt.get j - S.vars.x.get j) = 0 := by
      linear_combination -hstep
    exact sub_eq_zero.mp ((mul_eq_zero.mp hzero).resolve_left halpha)
  · have hmultiplier := hintermediate.multiplier i
    rw [congrFun hzt i, sub_self, mul_zero] at hmultiplier
    exact (sub_eq_zero.mp hmultiplier.symm)

variable [IsStrictOrderedRing K]

/-- A point is its own projection from wherever a normal leads. -/
theorem advance_eq_self (h : S.system.Weighted)
    (hnormal : ∀ i, InNormalCone (S.data.work.l.get i) (S.data.work.u.get i) (S.vars.z.get i)
      (S.vars.y.get i)) {xt : Vec K n} {zt : Vec K m} (hxt : xt.get = S.vars.x.get)
    (hzt : zt.get = S.vars.z.get) :
    (S.advance alpha S.vars xt zt).x = S.vars.x ∧ (S.advance alpha S.vars xt zt).z = S.vars.z ∧
      (S.advance alpha S.vars xt zt).y = S.vars.y := by
  have htarget : ∀ i, S.target alpha zt i
      = S.vars.z.get i + S.system.rhoInv.get i * S.vars.y.get i := by
    intro i
    rw [target, hzt]
    ring
  have hz : ∀ i, (S.advance alpha S.vars xt zt).z.get i = S.vars.z.get i := by
    intro i
    rw [(get_advance h alpha xt zt i).1, htarget]
    exact (hnormal i).clip_eq (h.rhoInv_pos i)
  refine ⟨Vec.ext_get fun j => ?_, Vec.ext_get hz, Vec.ext_get fun i => ?_⟩
  · obtain ⟨hmoved, -⟩ := get_advance_gap h alpha xt zt
    have hstep := hmoved j
    simp only at hstep
    rw [hstep, hxt, sub_self, mul_zero, add_zero]
  · rw [(get_advance h alpha xt zt i).2, htarget, hz]
    linear_combination S.vars.y.get i * h.rho_mul_rhoInv i

/-- With valid factors an iteration leaves the iterate as it is iff it solves the problem
that the session works on. -/
theorem FactoredFor.step_fixes_iff (h : S.FactoredFor sigma)
    (hbounds : ∀ i, S.data.work.l.get i ≤ S.data.work.u.get i) (halpha : alpha ≠ 0) :
    ∃ T, S.step alpha sigma = (.ok (), T) ∧
      ((T.vars.x = S.vars.x ∧ T.vars.z = S.vars.z ∧ T.vars.y = S.vars.y) ↔
        S.data.work.SolvedBy S.vars.x.get S.vars.z.get S.vars.y.get) := by
  obtain ⟨xt, zt, nu, hintermediate, hstep⟩ := h.exists_intermediate alpha
  refine ⟨_, hstep, ?_, fun hsolved => ?_⟩
  · rintro ⟨hx, hz, hy⟩
    obtain ⟨hxt, hzt, hnu⟩ := h.eq_of_advance_eq halpha hintermediate hx hz hy
    rw [hxt, hzt, hnu] at hintermediate
    obtain ⟨hstationary, hfeasible⟩ := intermediate_self_iff.mp hintermediate
    have hcomplementary := step_complementary h.weighted hbounds hstep
    refine ⟨hstationary, hfeasible, fun i => ?_⟩
    have hnormal := hcomplementary.inNormalCone i
    rwa [hz, hy] at hnormal
  · have hself : S.Intermediate sigma S.vars.x.get S.vars.z.get S.vars.y.get :=
      intermediate_self_iff.mpr ⟨hsolved.stationary, hsolved.feasible⟩
    obtain ⟨hxt, hzt, -⟩ := h.intermediate_unique hintermediate hself
    exact advance_eq_self h.weighted hsolved.normal hxt hzt

/-! ### The sessions that iterations start from -/

/-- `U` is the session `S`, or one that a solve of `S` takes a step from. -/
def Visits (S U : Session K n m) : Prop := U = S ∨ ∃ env, U ∈ S.steppedFrom env

/-- Along a solve the linear system stays that of the data, which stay as they are. -/
theorem Reachable.visited (h : S.Reachable) (hvisits : S.Visits U) :
    S.Continues U ∧ U.Filled := by
  have hstart : S.Continues S ∧ S.Filled := ⟨h.sound.continues, h.filled fun _ heq => eq_of_beq heq⟩
  rcases hvisits with rfl | ⟨env, hU⟩
  · exact hstart
  · refine mem_iterateTraced (p := fun U => S.Continues U ∧ U.Filled) (q := fun _ _ => True)
      (fun hsame hT => ⟨hT.1.congr hsame, hT.2.congr hsame⟩)
      (fun {T} hT => ⟨fun {V} hV => ⟨hT.1.adopt hV, ?_⟩, fun _ => trivial⟩)
      env S.settings _ _ _
      ⟨hstart.1.congr (begin_sameCore S), hstart.2.congr (begin_sameCore S)⟩ U hU
    have hfactored := (hT.2.adopt T.estimateRho).factorSystem
    rwa [hV] at hfactored

/-- Whatever calls a session has seen, and wherever in a solve it is: if its factors are
valid, an iteration leaves the scaled iterate as it is iff the iterate solves the problem
of the user in the coordinates of the user. -/
theorem step_fixes_iff_solvedBy (hreachable : S.Reachable)
    (hbounds : ∀ i, S.data.user.l.get i ≤ S.data.user.u.get i) (hvisits : S.Visits U)
    (hfactored : U.system.ldl.isFactored = true) (halpha : alpha ≠ 0) :
    ∃ T, U.step alpha U.settings.sigma = (.ok (), T) ∧
      ((T.vars.x = U.vars.x ∧ T.vars.z = U.vars.z ∧ T.vars.y = U.vars.y) ↔
        U.data.user.SolvedBy (U.data.userX U.vars) (U.data.userZ U.vars)
          (U.data.userY U.vars)) := by
  obtain ⟨hcontinues, hfilled⟩ := hreachable.visited hvisits
  have hscaled := hcontinues.sound.scaled
  have hwork := work_bounds_le hscaled (hcontinues.data ▸ hbounds)
  obtain ⟨T, hstep, hfixes⟩ :=
    (hfilled.factoredFor hcontinues.sound hfactored).step_fixes_iff hwork halpha
  exact ⟨T, hstep, hfixes.trans (hscaled.solvedBy_iff U.vars)⟩

/-- From one half with the multiplier one half, the solution of the problem of one
variable. -/
theorem step_fixes_iff_solvedBy_unitProblem :
    ∃ (S : AdmmSession ℚ) (T U : Session ℚ S.n S.m),
      AdmmSession.setup (.still ℚ) unitProblem plainSettings = .ok S ∧
      S.session.call (.still ℚ) (.warmStart (some #[0.5]) (some #[0.5])) = (.ok (), T) ∧
      T.Reachable ∧ T.Visits T ∧ (∀ i, T.data.user.l.get i ≤ T.data.user.u.get i) ∧
      T.system.ldl.isFactored = true ∧ T.step 1.6 T.settings.sigma = (.ok (), U) ∧
      (U.vars.x = T.vars.x ∧ U.vars.z = T.vars.z ∧ U.vars.y = T.vars.y) ∧
      T.data.user.SolvedBy (T.data.userX T.vars) (T.data.userZ T.vars) (T.data.userY T.vars) := by
  have hrun : (match AdmmSession.setup (.still ℚ) unitProblem plainSettings with
      | .error _ => false
      | .ok S =>
        let r := S.session.call (.still ℚ) (.warmStart (some #[0.5]) (some #[0.5]))
        let U := (r.2.step 1.6 r.2.settings.sigma).2
        decide (r.1 = .ok ()) && r.2.system.ldl.isFactored &&
          ((List.finRange S.m).all fun i =>
            decide (r.2.data.user.l.get i ≤ r.2.data.user.u.get i)) &&
          decide (U.vars.x = r.2.vars.x ∧ U.vars.z = r.2.vars.z ∧ U.vars.y = r.2.vars.y)) = true := by
    decide +kernel
  split at hrun
  · cases hrun
  · rename_i S hsetup
    simp only [Bool.and_eq_true, List.all_eq_true, List.mem_finRange, decide_eq_true_eq,
      true_implies] at hrun
    obtain ⟨⟨⟨hok, hfactored⟩, hbounds⟩, hfixed⟩ := hrun
    have hreachable := Reachable.call (.still ℚ) (.warmStart (some #[0.5]) (some #[0.5]))
      (.setup hsetup)
    have halpha : (1.6 : ℚ) ≠ 0 := by norm_num
    obtain ⟨U, hstep, hfixes⟩ :=
      step_fixes_iff_solvedBy hreachable hbounds (.inl rfl) hfactored halpha
    rw [hstep] at hfixed
    exact ⟨S, _, U, hsetup, Prod.ext hok rfl, hreachable, .inl rfl, hbounds, hfactored, hstep,
      hfixed, hfixes.mp hfixed⟩

end Session
end QuadOpt
