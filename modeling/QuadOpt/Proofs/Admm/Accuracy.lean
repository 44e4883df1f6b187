/-
# What a solved status promises

A solve that ends as solved leaves behind a point and multipliers that are, on
the unscaled data of the user, feasible and stationary up to the tolerances of
the settings, and complementary without any tolerance. This is said of every
session that calls can lead to, whatever the scaling and the start point are.

Key definitions: `Instance.NearlySolvedBy`.
Key theorems: `Session.solve_nearlySolved`.
-/
import QuadOpt.Proofs.Admm.Residuals
import QuadOpt.Proofs.Admm.Solves

namespace QuadOpt

open Matrix

variable {K : Type} [Field K] [LinearOrder K] [ExactScalar K] {n m : Nat}

/-- Some `z` within the bounds is as close to `A x` as the tolerances ask for,
the gradient `P x + q + Aᵀ y` is as small, and multipliers are positive only
where `z` is at its upper bound and negative only where it is at its lower. -/
def Instance.NearlySolvedBy (D : Instance K n m) (x : Fin n → K) (y : Fin m → K)
    (epsAbs epsRel : K) : Prop :=
  let P := D.P.csc.mirror n
  let A := D.A.csc.toMatrix m n
  ∃ z : Fin m → K,
    (∀ i, D.l.get i ≤ z i ∧ z i ≤ D.u.get i) ∧
    supNorm (A *ᵥ x - z) ≤ epsAbs + epsRel * max (supNorm (A *ᵥ x)) (supNorm z) ∧
    supNorm (P *ᵥ x + D.q.get + Aᵀ *ᵥ y)
      ≤ epsAbs + epsRel * max (supNorm (P *ᵥ x)) (max (supNorm (Aᵀ *ᵥ y)) (supNorm D.q.get)) ∧
    ∀ i, (0 < y i → z i = D.u.get i) ∧ (y i < 0 → z i = D.l.get i)

namespace Session

variable [IsStrictOrderedRing K] {S T : Session K n m} {env : Environment K}

theorem relaxation_eq (status : SolverStatus) :
    (relaxation status : K) = if status.isInaccurate then 10 else 1 := by
  unfold relaxation Limits.approximateFactor
  cases status.isInaccurate <;> norm_num

omit [ExactScalar K] in
/-- Scaled bounds are crossed only if those of the user are. -/
theorem work_bounds_le (h : S.data.Scaled)
    (hbounds : ∀ i, S.data.user.l.get i ≤ S.data.user.u.get i) (i : Fin m) :
    S.data.work.l.get i ≤ S.data.work.u.get i := by
  rw [h.l_eq, h.u_eq]
  exact mul_le_mul_of_nonneg_left (hbounds i) (h.e_pos i).le

omit [ExactScalar K] in
/-- The signs of the multipliers fit in the coordinates of the user if they fit
in scaled ones. -/
theorem Complementary.user (h : S.Complementary) (hscaled : S.data.Scaled) (i : Fin m) :
    S.data.user.l.get i ≤ S.data.userZ S.vars i ∧ S.data.userZ S.vars i ≤ S.data.user.u.get i ∧
      (0 < S.data.userY S.vars i → S.data.userZ S.vars i = S.data.user.u.get i) ∧
      (S.data.userY S.vars i < 0 → S.data.userZ S.vars i = S.data.user.l.get i) := by
  have he := hscaled.e_pos i
  have heinv : 0 < S.data.scaling.einv.get i := by
    rw [hscaled.einv_eq]
    exact one_div_pos.mpr he
  have hcinv : 0 < S.data.scaling.cinv := by
    rw [hscaled.cinv_eq]
    exact one_div_pos.mpr hscaled.c_pos
  have hl : S.data.work.l.get i * S.data.scaling.einv.get i = S.data.user.l.get i := by
    rw [hscaled.l_eq, hscaled.einv_mul]
  have hu : S.data.work.u.get i * S.data.scaling.einv.get i = S.data.user.u.get i := by
    rw [hscaled.u_eq, hscaled.einv_mul]
  have hfactor : 0 < S.data.scaling.e.get i * S.data.scaling.cinv := mul_pos he hcinv
  have hy : S.data.userY S.vars i
      = S.vars.y.get i * (S.data.scaling.e.get i * S.data.scaling.cinv) := by
    rw [Problem.userY, mul_assoc]
  refine ⟨?_, ?_, ?_, ?_⟩
  · rw [← hl]
    exact mul_le_mul_of_nonneg_right (h.lower i) heinv.le
  · rw [← hu]
    exact mul_le_mul_of_nonneg_right (h.upper i) heinv.le
  · intro hpos
    rw [hy, mul_pos_iff_of_pos_right hfactor] at hpos
    rw [Problem.userZ, h.at_upper i hpos, hu]
  · intro hneg
    have hneg : S.vars.y.get i < 0 := by
      by_contra hnot
      rw [hy] at hneg
      exact absurd (mul_nonneg (not_lt.mp hnot) hfactor.le) (not_le.mpr hneg)
    rw [Problem.userZ, h.at_lower i hneg, hl]

/-- Residuals within the tolerances, in the coordinates of the user. -/
theorem isOptimal_user (hscaled : S.data.Scaled) (hmeasured : S.Measured) {epsAbs epsRel : K}
    (hAbs : 0 ≤ epsAbs) (hRel : 0 ≤ epsRel) (h : S.isOptimal epsAbs epsRel = true) :
    let x := S.data.userX S.vars
    let y := S.data.userY S.vars
    let z := S.data.userZ S.vars
    let P := S.data.user.P.csc.mirror n
    let A := S.data.user.A.csc.toMatrix m n
    supNorm (A *ᵥ x - z) ≤ epsAbs + epsRel * max (supNorm (A *ᵥ x)) (supNorm z) ∧
    supNorm (P *ᵥ x + S.data.user.q.get + Aᵀ *ᵥ y) ≤ epsAbs
      + epsRel * max (supNorm (P *ᵥ x)) (max (supNorm (Aᵀ *ᵥ y)) (supNorm S.data.user.q.get)) := by
  intro x y z P A
  simp only [isOptimal, Bool.and_eq_true, Bool.or_eq_true, beq_iff_eq, decide_eq_true_eq] at h
  obtain ⟨hprim, hdual⟩ := h
  rw [hmeasured, hscaled.residuals_prim, hscaled.residuals_primNorm] at hprim
  rw [hmeasured, hscaled.residuals_dual, hscaled.residuals_dualNorm] at hdual
  constructor
  · rcases hprim with hm | hprim
    · subst hm
      have hzero : supNorm (A *ᵥ x - z) ≤ 0 := supNorm_le_iff.mpr ⟨le_rfl, fun i => i.elim0⟩
      have hnorm : 0 ≤ max (supNorm (A *ᵥ x)) (supNorm z) :=
        (supNorm_nonneg _).trans (le_max_left _ _)
      exact hzero.trans (add_nonneg hAbs (mul_nonneg hRel hnorm))
    · exact hprim
  · rw [← max_assoc]
    exact hdual

/-- A solve that ends as solved, be it with relaxed tolerances, reports a point
and multipliers that solve the problem of the user up to these tolerances. -/
theorem solve_nearlySolved (hreachable : S.Reachable)
    (hbounds : ∀ i, S.data.user.l.get i ≤ S.data.user.u.get i)
    (hpolishing : S.settings.polishing = false)
    (hsolve : S.call env .solve = (.ok (), T)) (hsolved : T.info.status.isSolved = true) :
    let factor : K := if T.info.status = .solvedInaccurate then 10 else 1
    ∃ (x : Vec K n) (y : Vec K m), T.solution.x = x.toArray ∧ T.solution.y = y.toArray ∧
      S.data.user.NearlySolvedBy x.get y.get
        (S.settings.epsAbs * factor) (S.settings.epsRel * factor) := by
  intro factor
  have hsound := hreachable.sound
  obtain ⟨hcomplementary, haccepted, hsolution⟩ :=
    solve_ended hsound (work_bounds_le hsound.scaled hbounds) hpolishing hsolve
  have hcontinues := solve_continues env hsound
  rw [show S.solve env = (.ok (), T) from hsolve] at hcontinues
  have hdata : T.data = S.data := hcontinues.data
  have hscaled : T.data.Scaled := hcontinues.sound.scaled
  obtain ⟨hmeasured, hoptimal⟩ := haccepted hsolved
  have hfactor : relaxation T.info.status = factor := by
    rw [relaxation_eq]
    cases hstatus : T.info.status <;> simp_all [factor, SolverStatus.isInaccurate,
      SolverStatus.isSolved]
  have hfactor_nonneg : 0 ≤ factor := by
    by_cases hstatus : T.info.status = .solvedInaccurate <;> simp [factor, hstatus]
  obtain ⟨-, -, -, hepsAbs, hepsRel, -⟩ := (Settings.validate_eq_ok_iff _).mp hsound.legal
  rw [hfactor] at hoptimal
  obtain ⟨hprim, hdual⟩ := isOptimal_user hscaled hmeasured (mul_nonneg hepsAbs hfactor_nonneg)
    (mul_nonneg hepsRel hfactor_nonneg) hoptimal
  have hfeasible : T.info.status.isInfeasible = false := by
    cases hstatus : T.info.status <;> simp_all [SolverStatus.isInfeasible, SolverStatus.isSolved]
  obtain ⟨hx, hy⟩ := hsolution hfeasible
  have huserX : T.userPoint.1.get = T.data.userX T.vars := by
    funext j
    exact Vec.get_hadamard _ _ j
  have huserY : T.userPoint.2.get = T.data.userY T.vars := by
    funext i
    rw [userPoint, Vec.get_scale, Vec.get_hadamard]
    rfl
  refine ⟨T.userPoint.1, T.userPoint.2, hx, hy, T.data.userZ T.vars, ?_, ?_, ?_, ?_⟩
  · intro i
    rw [← hdata]
    exact ⟨(hcomplementary.user hscaled i).1, (hcomplementary.user hscaled i).2.1⟩
  · rw [huserX, ← hdata]
    exact hprim
  · rw [huserX, huserY, ← hdata]
    exact hdual
  · intro i
    rw [huserY, ← hdata]
    exact (hcomplementary.user hscaled i).2.2

end Session

/-- Minimise `½ x² - x` for `x` between zero and one half. -/
def unitProblem : QpData ℚ where
  P := ⟨1, 1, #[0, 1], #[0], #[1]⟩
  q := #[-1]
  A := ⟨1, 1, #[0, 1], #[0], #[1]⟩
  l := #[0]
  u := #[0.5]

/-- Settings that a fraction can be computed with by hand. -/
def plainSettings : Settings ℚ :=
  { Settings.default with rho := 1, alpha := 1, scaling := 0, adaptiveRho := false }

/-- No row is moved, and no time passes. -/
def Environment.still (α : Type) : Environment α where
  ordering _ := none
  elapsed _ := 0

namespace Session

theorem solve_nearlySolved_unitProblem :
    ∃ (S : AdmmSession ℚ) (T : Session ℚ S.n S.m), S.session.Reachable ∧
      (∀ i, S.session.data.user.l.get i ≤ S.session.data.user.u.get i) ∧
      S.session.settings.polishing = false ∧
      S.session.call (.still ℚ) .solve = (.ok (), T) ∧ T.info.status.isSolved = true ∧
      ∃ (x : Vec ℚ S.n) (y : Vec ℚ S.m), T.solution.x = x.toArray ∧ T.solution.y = y.toArray ∧
        S.session.data.user.NearlySolvedBy x.get y.get
          (S.session.settings.epsAbs * if T.info.status = .solvedInaccurate then 10 else 1)
          (S.session.settings.epsRel * if T.info.status = .solvedInaccurate then 10 else 1) := by
  have hrun : (match AdmmSession.setup (.still ℚ) unitProblem plainSettings with
      | .error _ => false
      | .ok S => match S.session.call (.still ℚ) .solve with
        | (.error _, _) => false
        | (.ok (), T) => T.info.status.isSolved && !S.session.settings.polishing &&
            (List.finRange S.m).all fun i =>
              decide (S.session.data.user.l.get i ≤ S.session.data.user.u.get i)) = true := by
    decide +kernel
  split at hrun
  · cases hrun
  · rename_i S hsetup
    split at hrun
    · cases hrun
    · rename_i T hsolve
      simp only [Bool.and_eq_true, Bool.not_eq_true', List.all_eq_true, decide_eq_true_eq] at hrun
      obtain ⟨⟨hsolved, hpolishing⟩, hbounds⟩ := hrun
      have hreachable : S.session.Reachable := .setup hsetup
      have hbounds : ∀ i, S.session.data.user.l.get i ≤ S.session.data.user.u.get i :=
        fun i => hbounds i (List.mem_finRange i)
      exact ⟨S, T, hreachable, hbounds, hpolishing, hsolve, hsolved,
        solve_nearlySolved hreachable hbounds hpolishing hsolve hsolved⟩

end Session
end QuadOpt
