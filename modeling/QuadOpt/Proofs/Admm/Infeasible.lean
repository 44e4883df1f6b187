/-
# What the certificates of infeasibility prove

A solve that finds no solution leaves behind a certificate. For a problem without
feasible points it is a combination `v` of the constraints with `Aᵀ v` close to
zero and a value that no point within the bounds can have, so that a feasible
point would have to be large; for an unbounded problem it is a direction along
which the objective falls, is as good as linear, and leaves no bound that counts.
Both are tested in scaled coordinates and said here of the data of the user, for
every session that calls can lead to.

Key definitions: `Instance.reach`, `Instance.RefutedBy`, `Problem.UnboundedAlong`.
Key theorems: `Instance.RefutedBy.lt_sum_abs`, `Session.solve_primalInfeasible`,
`Session.solve_dualInfeasible`.
-/
import QuadOpt.Proofs.Admm.Accuracy
import QuadOpt.Proofs.Admm.Verdict

namespace QuadOpt

open Matrix

variable {K : Type} [Field K] [LinearOrder K] {n m : Nat}

/-! ### Certificates on the data of the user -/

/-- The largest value of `vᵀ z` for `z` within the bounds. -/
def Instance.reach (D : Instance K n m) (v : Fin m → K) : K :=
  ∑ i, (D.u.get i * max (v i) 0 + D.l.get i * min (v i) 0)

/-- The combination of the constraints by `v` has to be negative, and is as good as
zero for every point that is not large. -/
structure Instance.RefutedBy (D : Instance K n m) (v : Fin m → K) (eps : K) : Prop where
  norm : supNorm v = 1
  balanced : supNorm ((D.A.csc.toMatrix m n)ᵀ *ᵥ v) < eps
  negative : D.reach v < 0

/-- The objective falls along `w` without curving, and no row with a bound that
excludes something moves towards it. Which bounds do is decided by their scaled
values. -/
structure Problem.UnboundedAlong [ExactScalar K] (D : Problem K n m) (w : Fin n → K) (eps : K) :
    Prop where
  norm : supNorm w = 1
  falls : D.user.q.get ⬝ᵥ w < -eps
  flat : supNorm (D.user.P.csc.mirror n *ᵥ w) < eps
  upper : ∀ i, D.work.u.get i < Limits.infiniteBound → (D.user.A.csc.toMatrix m n *ᵥ w) i ≤ eps
  lower : ∀ i, -Limits.infiniteBound < D.work.l.get i → -eps ≤ (D.user.A.csc.toMatrix m n *ᵥ w) i

variable [IsStrictOrderedRing K]

/-- A combination of numbers within the bounds is within its reach. -/
theorem Instance.dotProduct_le_reach (D : Instance K n m) (v : Fin m → K) {z : Fin m → K}
    (hz : ∀ i, D.l.get i ≤ z i ∧ z i ≤ D.u.get i) : v ⬝ᵥ z ≤ D.reach v := by
  apply Finset.sum_le_sum
  intro i _
  have hupper : max (v i) 0 * z i ≤ max (v i) 0 * D.u.get i :=
    mul_le_mul_of_nonneg_left (hz i).2 (le_max_right _ _)
  have hlower : min (v i) 0 * z i ≤ min (v i) 0 * D.l.get i :=
    mul_le_mul_of_nonpos_left (hz i).1 (min_le_right _ _)
  calc v i * z i = (max (v i) 0 + min (v i) 0) * z i := by rw [max_add_min, add_zero]
    _ = max (v i) 0 * z i + min (v i) 0 * z i := add_mul _ _ _
    _ ≤ max (v i) 0 * D.u.get i + min (v i) 0 * D.l.get i := add_le_add hupper hlower
    _ = D.u.get i * max (v i) 0 + D.l.get i * min (v i) 0 := by ring

theorem Instance.reach_smul (D : Instance K n m) {t : K} (ht : 0 < t) (v : Fin m → K) :
    D.reach (t • v) = t * D.reach v := by
  unfold reach
  rw [Finset.mul_sum]
  apply Finset.sum_congr rfl
  intro i _
  have hmax : max (t * v i) 0 = t * max (v i) 0 := by
    rw [mul_max_of_nonneg _ _ ht.le, mul_zero]
  have hmin : min (t * v i) 0 = t * min (v i) 0 := by
    rw [mul_min_of_nonneg _ _ ht.le, mul_zero]
  rw [Pi.smul_apply, smul_eq_mul, hmax, hmin]
  ring

theorem abs_dotProduct_le (v x : Fin n → K) : |v ⬝ᵥ x| ≤ supNorm v * ∑ j, |x j| := by
  have hv : ∀ j, |v j| ≤ supNorm v := (supNorm_le_iff.mp le_rfl).2
  calc |v ⬝ᵥ x| ≤ ∑ j, |v j * x j| := Finset.abs_sum_le_sum_abs _ _
    _ ≤ ∑ j, supNorm v * |x j| := by
        apply Finset.sum_le_sum
        intro j _
        rw [abs_mul]
        exact mul_le_mul_of_nonneg_right (hv j) (abs_nonneg _)
    _ = supNorm v * ∑ j, |x j| := (Finset.mul_sum _ _ _).symm

/-- What a certificate with tolerance `eps` says of feasible points: they are large.
With `Aᵀ v = 0` there would be none. -/
theorem Instance.RefutedBy.lt_sum_abs {D : Instance K n m} {v : Fin m → K} {eps : K}
    (h : D.RefutedBy v eps) {x : Fin n → K}
    (hx : ∀ i, D.l.get i ≤ (D.A.csc.toMatrix m n *ᵥ x) i ∧
      (D.A.csc.toMatrix m n *ᵥ x) i ≤ D.u.get i) :
    -D.reach v / eps < ∑ j, |x j| := by
  have heps : 0 < eps := (supNorm_nonneg _).trans_lt h.balanced
  have hswap : v ⬝ᵥ (D.A.csc.toMatrix m n *ᵥ x) = ((D.A.csc.toMatrix m n)ᵀ *ᵥ v) ⬝ᵥ x := by
    rw [dotProduct_mulVec, mulVec_transpose]
  have hreach := D.dotProduct_le_reach v hx
  have hsmall : -D.reach v ≤ supNorm ((D.A.csc.toMatrix m n)ᵀ *ᵥ v) * ∑ j, |x j| := by
    calc -D.reach v ≤ -(((D.A.csc.toMatrix m n)ᵀ *ᵥ v) ⬝ᵥ x) := by
          rw [← hswap]
          exact neg_le_neg hreach
      _ ≤ |((D.A.csc.toMatrix m n)ᵀ *ᵥ v) ⬝ᵥ x| := neg_le_abs _
      _ ≤ supNorm ((D.A.csc.toMatrix m n)ᵀ *ᵥ v) * ∑ j, |x j| := abs_dotProduct_le _ _
  -- The sum cannot vanish, so that replacing the norm by `eps` makes the bound strict.
  have hsum : 0 < ∑ j, |x j| := by
    have hpositive : 0 < supNorm ((D.A.csc.toMatrix m n)ᵀ *ᵥ v) * ∑ j, |x j| :=
      (neg_pos.mpr h.negative).trans_le hsmall
    exact pos_of_mul_pos_right hpositive (supNorm_nonneg _)
  rw [div_lt_iff₀ heps, mul_comm]
  exact hsmall.trans_lt (mul_lt_mul_of_pos_right h.balanced hsum)

/-! ### Tests in scaled coordinates -/

theorem supNorm_smul {t : K} (ht : 0 < t) (f : Fin n → K) : supNorm (t • f) = t * supNorm f :=
  (mul_supNorm ht f).symm

omit [IsStrictOrderedRing K] in
/-- A scaled vector brought back to the coordinates of the user and to norm one. -/
theorem Vec.get_normalised [ExactScalar K] (v d : Vec K n) :
    ((v.hadamard d).scale (Scalar.recip (v.normInfWeighted d))).get
      = (1 / supNorm fun j => v.get j * d.get j) • fun j => v.get j * d.get j := by
  funext j
  rw [Vec.get_scale, Vec.get_hadamard, Vec.normInfWeighted_eq_supNorm, mul_comm]
  rfl

theorem supNorm_normalised {f : Fin n → K} (h : 0 < supNorm f) :
    supNorm ((1 / supNorm f) • f) = 1 := by
  rw [supNorm_smul (one_div_pos.mpr h), one_div_mul_cancel h.ne']

/-- What is small for a vector is small for the vector of norm one in relation to
the norm. -/
theorem one_div_mul_lt {t r eps : K} (ht : 0 < t) (h : r < eps * t) : 1 / t * r < eps := by
  rwa [one_div_mul_eq_div, div_lt_iff₀ ht]

/-- Scaling moves the factors of the bounds to the multipliers. -/
theorem Problem.Scaled.reach_work {D : Problem K n m} (h : D.Scaled)
    (v : Fin m → K) : D.work.reach v = D.user.reach fun i => v i * D.scaling.e.get i := by
  unfold Instance.reach
  apply Finset.sum_congr rfl
  intro i _
  have he := (h.e_pos i).le
  have hmax : max (v i * D.scaling.e.get i) 0 = max (v i) 0 * D.scaling.e.get i := by
    rw [max_mul_of_nonneg _ _ he, zero_mul]
  have hmin : min (v i * D.scaling.e.get i) 0 = min (v i) 0 * D.scaling.e.get i := by
    rw [min_mul_of_nonneg _ _ he, zero_mul]
  rw [hmax, hmin, h.u_eq, h.l_eq]
  ring

/-- A number that is at most `-1` and at least `1`. -/
def contradictoryProblem : QpData ℚ where
  P := ⟨1, 1, #[0, 1], #[0], #[1]⟩
  q := #[0]
  A := ⟨2, 1, #[0, 2], #[0, 1], #[1, 1]⟩
  l := #[-1e30, 1]
  u := #[-1, 1e30]

/-- The largest number that is not negative. -/
def boundlessProblem : QpData ℚ where
  P := ⟨1, 1, #[0, 0], #[], #[]⟩
  q := #[-1]
  A := ⟨1, 1, #[0, 1], #[0], #[1]⟩
  l := #[0]
  u := #[1e30]

namespace Session

variable [ExactScalar K] {S T : Session K n m} {env : Environment K}

omit [IsStrictOrderedRing K] in
theorem support_eq_reach (D : Instance K n m) (v : Vec K m) : support D v = D.reach v.get := by
  unfold support Instance.reach
  rw [Fin.sum_univ_def, List.sum_eq_foldl, List.foldl_map]
  simp only [add_assoc]
  rfl

/-- A certificate that passes the test proves, on the data of the user, that feasible
points are large. -/
theorem primalCertificate_refutes (hscaled : S.data.Scaled) {eps : K} (heps : 0 < eps)
    {cert : Vec K m} (h : S.primalCertificate? eps = some cert) :
    S.data.user.RefutedBy cert.get eps := by
  unfold primalCertificate? at h
  simp only [Option.ite_none_right_eq_some, Option.some.injEq] at h
  obtain ⟨⟨hnorm, hsupport, hbalanced⟩, rfl⟩ := h
  generalize S.projectedChange = v at hnorm hsupport hbalanced ⊢
  rw [Vec.get_normalised]
  simp only [Vec.normInfWeighted_eq_supNorm] at hnorm hbalanced
  -- the change of the multipliers in the coordinates of the user, up to `1 / c`
  generalize hw : (fun i => v.get i * S.data.scaling.e.get i) = w at hnorm hbalanced ⊢
  have hpos : 0 < supNorm w := heps.trans hnorm
  have hrecip : 0 < 1 / supNorm w := one_div_pos.mpr hpos
  refine ⟨supNorm_normalised hpos, ?_, ?_⟩
  · have hproduct : (fun j => (S.data.work.A.csc.transposeMulVec n v).get j
        * S.data.scaling.dinv.get j) = (S.data.user.A.csc.toMatrix m n)ᵀ *ᵥ w := by
      funext j
      rw [Csc.get_transposeMulVec _ S.data.work.A.cols_eq, hscaled.A_transpose_mulVec, hw,
        hscaled.dinv_mul]
    rw [hproduct] at hbalanced
    rw [mulVec_smul, supNorm_smul hrecip]
    exact one_div_mul_lt hpos hbalanced
  · rw [support_eq_reach, hscaled.reach_work, hw] at hsupport
    rw [Instance.reach_smul _ hrecip]
    exact mul_neg_of_pos_of_neg hrecip hsupport

/-- A direction that passes the test is, on the data of the user, one along which the
objective falls forever. -/
theorem dualCertificate_unbounded (hscaled : S.data.Scaled) {eps : K} (heps : 0 < eps)
    {cert : Vec K n} (h : S.dualCertificate? eps = some cert) :
    S.data.UnboundedAlong cert.get eps := by
  unfold dualCertificate? at h
  simp only [Option.ite_none_right_eq_some, Option.some.injEq] at h
  obtain ⟨⟨hnorm, hfalls, hflat, hrecession⟩, rfl⟩ := h
  generalize S.vars.deltaX = v at hnorm hfalls hflat hrecession ⊢
  rw [Vec.get_normalised]
  simp only [Vec.normInfWeighted_eq_supNorm] at hnorm hfalls hflat hrecession
  generalize hw : (fun j => v.get j * S.data.scaling.d.get j) = w
    at hnorm hfalls hflat hrecession ⊢
  have hpos : 0 < supNorm w := heps.trans hnorm
  have hrecip : 0 < 1 / supNorm w := one_div_pos.mpr hpos
  have hc := hscaled.c_pos
  have hrow : ∀ i, (S.data.work.A.csc.mulVec m v).get i * S.data.scaling.einv.get i
      = (S.data.user.A.csc.toMatrix m n *ᵥ w) i := by
    intro i
    rw [Csc.get_mulVec, hscaled.A_mulVec, hw, hscaled.einv_mul]
  have hbounds := List.all_eq_true.mp hrecession
  simp only [hrow, List.mem_finRange, true_implies, Bool.not_eq_true', Bool.or_eq_false_iff,
    Bool.and_eq_false_iff, decide_eq_false_iff_not, not_lt] at hbounds
  refine ⟨supNorm_normalised hpos, ?_, ?_, ?_, ?_⟩
  · have hdot : S.data.work.q.dot v = S.data.scaling.c * (S.data.user.q.get ⬝ᵥ w) := by
      rw [Vec.dot_eq_sum, dotProduct, Finset.mul_sum]
      apply Finset.sum_congr rfl
      intro j _
      rw [hscaled.q_eq, ← hw]
      ring
    have hfalls : S.data.user.q.get ⬝ᵥ w < -eps * supNorm w := by
      apply lt_of_mul_lt_mul_left _ hc.le
      calc S.data.scaling.c * (S.data.user.q.get ⬝ᵥ w) = S.data.work.q.dot v := hdot.symm
        _ < -S.data.scaling.c * eps * supNorm w := hfalls
        _ = S.data.scaling.c * (-eps * supNorm w) := by ring
    rw [dotProduct_smul, smul_eq_mul]
    exact one_div_mul_lt hpos hfalls
  · have hproduct : (fun j => (S.data.work.P.csc.symMulVec v).get j * S.data.scaling.dinv.get j)
        = S.data.scaling.c • (S.data.user.P.csc.mirror n *ᵥ w) := by
      funext j
      rw [Csc.get_symMulVec _ fun e => Csc.le_of_isUpper S.data.work.upper, hscaled.P_mulVec, hw,
        mul_assoc, hscaled.dinv_mul]
      rfl
    rw [hproduct, supNorm_smul hc, mul_assoc] at hflat
    rw [mulVec_smul, supNorm_smul hrecip]
    exact one_div_mul_lt hpos (lt_of_mul_lt_mul_left hflat hc.le)
  · intro i hi
    have hle : (S.data.user.A.csc.toMatrix m n *ᵥ w) i ≤ eps * supNorm w :=
      (hbounds i).1.resolve_left (not_le.mpr hi)
    rw [mulVec_smul, Pi.smul_apply, smul_eq_mul, one_div_mul_eq_div, div_le_iff₀ hpos]
    exact hle
  · intro i hi
    have hle : -(eps * supNorm w) ≤ (S.data.user.A.csc.toMatrix m n *ᵥ w) i :=
      (hbounds i).2.resolve_left (not_le.mpr hi)
    rw [mulVec_smul, Pi.smul_apply, smul_eq_mul, one_div_mul_eq_div, le_div_iff₀ hpos, neg_mul]
    exact hle

/-! ### Solves -/

theorem relaxation_pos (status : SolverStatus) : 0 < (relaxation status : K) := by
  rw [relaxation_eq]
  split <;> norm_num

/-- A solve that ends as primal infeasible reports a combination of the constraints
that refutes every feasible point but large ones. -/
theorem solve_primalInfeasible (hreachable : S.Reachable)
    (hsolve : S.call env .solve = (.ok (), T))
    (hstatus : T.info.status = .primalInfeasible ∨ T.info.status = .primalInfeasibleInaccurate) :
    let D := S.data.user
    let eps : K := S.settings.epsPrimInf *
      if T.info.status = .primalInfeasibleInaccurate then 10 else 1
    ∃ v : Vec K m, T.solution.primInfCert = v.toArray ∧ D.RefutedBy v.get eps ∧
      ∀ x : Fin n → K, (∀ i, D.l.get i ≤ (D.A.csc.toMatrix m n *ᵥ x) i ∧
        (D.A.csc.toMatrix m n *ᵥ x) i ≤ D.u.get i) → -D.reach v.get / eps < ∑ j, |x j| := by
  intro D eps
  have hsound := hreachable.sound
  have hinfeasible : T.info.status.isInfeasible = true := by
    rcases hstatus with h | h <;> rw [h] <;> rfl
  obtain ⟨hdata, hjudged⟩ := solve_judged (show S.solve env = (.ok (), T) from hsolve) hinfeasible
  obtain ⟨U, v, hU, hv, hcert⟩ := hjudged.primalCertificate hstatus
  have heps : eps = S.settings.epsPrimInf * relaxation T.info.status := by
    rw [relaxation_eq]
    rcases hstatus with h | h <;> simp [eps, h, SolverStatus.isInaccurate]
  have hpositive : 0 < eps := by
    obtain ⟨-, -, -, -, -, -, hepsPrimInf, -⟩ := (Settings.validate_eq_ok_iff _).mp hsound.legal
    rw [heps]
    exact mul_pos hepsPrimInf (relaxation_pos _)
  have hUdata : U.data = S.data := hU.trans hdata
  have hrefuted : U.data.user.RefutedBy v.get eps := by
    apply primalCertificate_refutes (hUdata ▸ hsound.scaled) hpositive
    rw [heps]
    exact hv
  rw [hUdata] at hrefuted
  exact ⟨v, hcert, hrefuted, fun x hx => hrefuted.lt_sum_abs hx⟩

theorem solve_primalInfeasible_contradictoryProblem :
    ∃ (S : AdmmSession ℚ) (T : Session ℚ S.n S.m), S.session.Reachable ∧
      S.session.call (.still ℚ) .solve = (.ok (), T) ∧
      (T.info.status = .primalInfeasible ∨ T.info.status = .primalInfeasibleInaccurate) ∧
      ∃ v : Vec ℚ S.m, T.solution.primInfCert = v.toArray ∧
        S.session.data.user.RefutedBy v.get (S.session.settings.epsPrimInf *
          if T.info.status = .primalInfeasibleInaccurate then 10 else 1) := by
  have hrun : (match AdmmSession.setup (.still ℚ) contradictoryProblem plainSettings with
      | .error _ => false
      | .ok S => match S.session.call (.still ℚ) .solve with
        | (.error _, _) => false
        | (.ok (), T) => T.info.status == .primalInfeasible) = true := by
    decide +kernel
  split at hrun
  · cases hrun
  · rename_i S hsetup
    split at hrun
    · cases hrun
    · rename_i T hsolve
      have hreachable : S.session.Reachable := .setup hsetup
      have hstatus : T.info.status = .primalInfeasible ∨
          T.info.status = .primalInfeasibleInaccurate := .inl (eq_of_beq hrun)
      obtain ⟨v, hv, hrefuted, -⟩ := solve_primalInfeasible hreachable hsolve hstatus
      exact ⟨S, T, hreachable, hsolve, hstatus, v, hv, hrefuted⟩

/-- A solve that ends as dual infeasible reports a direction along which the problem
is unbounded. -/
theorem solve_dualInfeasible (hreachable : S.Reachable)
    (hsolve : S.call env .solve = (.ok (), T))
    (hstatus : T.info.status = .dualInfeasible ∨ T.info.status = .dualInfeasibleInaccurate) :
    ∃ w : Vec K n, T.solution.dualInfCert = w.toArray ∧ S.data.UnboundedAlong w.get
      (S.settings.epsDualInf * if T.info.status = .dualInfeasibleInaccurate then 10 else 1) := by
  have hsound := hreachable.sound
  have hinfeasible : T.info.status.isInfeasible = true := by
    rcases hstatus with h | h <;> rw [h] <;> rfl
  obtain ⟨hdata, hjudged⟩ := solve_judged (show S.solve env = (.ok (), T) from hsolve) hinfeasible
  obtain ⟨U, w, hU, hw, hcert⟩ := hjudged.dualCertificate hstatus
  have hfactor : (relaxation T.info.status : K)
      = if T.info.status = .dualInfeasibleInaccurate then 10 else 1 := by
    rw [relaxation_eq]
    rcases hstatus with h | h <;> simp [h, SolverStatus.isInaccurate]
  have hpositive : 0 < S.settings.epsDualInf * (relaxation T.info.status : K) := by
    obtain ⟨-, -, -, -, -, -, -, hepsDualInf, -⟩ :=
      (Settings.validate_eq_ok_iff _).mp hsound.legal
    exact mul_pos hepsDualInf (relaxation_pos _)
  have hUdata : U.data = S.data := hU.trans hdata
  have hunbounded :
      U.data.UnboundedAlong w.get (S.settings.epsDualInf * relaxation T.info.status) :=
    dualCertificate_unbounded (hUdata ▸ hsound.scaled) hpositive hw
  rw [hUdata, hfactor] at hunbounded
  exact ⟨w, hcert, hunbounded⟩

theorem solve_dualInfeasible_boundlessProblem :
    ∃ (S : AdmmSession ℚ) (T : Session ℚ S.n S.m), S.session.Reachable ∧
      S.session.call (.still ℚ) .solve = (.ok (), T) ∧
      (T.info.status = .dualInfeasible ∨ T.info.status = .dualInfeasibleInaccurate) ∧
      ∃ w : Vec ℚ S.n, T.solution.dualInfCert = w.toArray ∧
        S.session.data.UnboundedAlong w.get (S.session.settings.epsDualInf *
          if T.info.status = .dualInfeasibleInaccurate then 10 else 1) := by
  have hrun : (match AdmmSession.setup (.still ℚ) boundlessProblem plainSettings with
      | .error _ => false
      | .ok S => match S.session.call (.still ℚ) .solve with
        | (.error _, _) => false
        | (.ok (), T) => T.info.status == .dualInfeasible) = true := by
    decide +kernel
  split at hrun
  · cases hrun
  · rename_i S hsetup
    split at hrun
    · cases hrun
    · rename_i T hsolve
      have hreachable : S.session.Reachable := .setup hsetup
      have hstatus : T.info.status = .dualInfeasible ∨
          T.info.status = .dualInfeasibleInaccurate := .inl (eq_of_beq hrun)
      exact ⟨S, T, hreachable, hsolve, hstatus,
        solve_dualInfeasible hreachable hsolve hstatus⟩

end Session
end QuadOpt
