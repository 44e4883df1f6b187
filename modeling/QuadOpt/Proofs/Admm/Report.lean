/-
# What a solve reports

The objective and the residuals that a solve reports are those of the point and
the multipliers that it reports, on the unscaled data of the user, however the
solve ended: with a verdict or at a limit, with polishing or without. The point
is the last iterate, or what an accepted refinement has made of it.

Key definitions: `Session.SettledOn`, `Session.Reports`.
Key theorems: `Problem.Scaled.residuals_objective`, `Session.solve_settledOn`,
`Session.solve_reports`.
-/
import QuadOpt.Proofs.Admm.Accuracy
import QuadOpt.Proofs.Admm.Verdict

namespace QuadOpt

open Matrix

section Objective

variable {K : Type} [Field K] [LinearOrder K] [ExactScalar K] [IsStrictOrderedRing K] {n m : Nat}

/-- The objective of an iterate is that of the point of the user. -/
theorem Problem.Scaled.residuals_objective {D : Problem K n m} (h : D.Scaled)
    (v : Iterate K n m) : (Session.residuals D v).objective
      = 1 / 2 * (D.userX v ⬝ᵥ D.user.P.csc.mirror n *ᵥ D.userX v)
        + D.user.q.get ⬝ᵥ D.userX v := by
  have hquadratic : v.x.dot (D.work.P.csc.symMulVec v.x)
      = D.scaling.c * (D.userX v ⬝ᵥ D.user.P.csc.mirror n *ᵥ D.userX v) := by
    rw [Vec.dot_eq_sum, dotProduct, Finset.mul_sum]
    apply Finset.sum_congr rfl
    intro j _
    rw [Csc.get_symMulVec _ fun e => Csc.le_of_isUpper D.work.upper, h.work_symMulVec,
      Problem.userX]
    ring
  have hlinear : D.work.q.dot v.x = D.scaling.c * (D.user.q.get ⬝ᵥ D.userX v) := by
    rw [Vec.dot_eq_sum, dotProduct, Finset.mul_sum]
    apply Finset.sum_congr rfl
    intro j _
    rw [h.q_eq, Problem.userX]
    ring
  simp only [Session.residuals]
  rw [hquadratic, hlinear]
  have hhalf : (0.5 : K) = 1 / 2 := by norm_num
  rw [hhalf]
  linear_combination (1 / 2 * (D.userX v ⬝ᵥ D.user.P.csc.mirror n *ᵥ D.userX v)
    + D.user.q.get ⬝ᵥ D.userX v) * h.cinv_mul

end Objective

namespace Session

section Settled

variable {α : Type} [Scalar α] {n m : Nat} {S T V : Session α n m} {env : Environment α}

/-! ### The iterate that a solve settles on -/

/-- What a solve whose iterations have ended with `V` can settle on: their last
iterate or, where polishing is said to have succeeded, the refined point. -/
inductive SettledOn (env : Environment α) (V : Session α n m) :
    PolishStatus → Iterate α n m → Prop where
  | iterated {p : PolishStatus} : p ≠ .succeeded → SettledOn env V p V.vars
  | refined {x : Vec α n} {z y : Vec α m} : V.refinedIterate? env = some (x, z, y) →
      SettledOn env V .succeeded { V.vars with x := x, z := z, y := y }

theorem factorSystem_polish (S : Session α n m) :
    S.factorSystem.2.info.polish = S.info.polish := by
  rcases S.factorSystem_cases with ⟨-, h⟩ | ⟨_, -, -, h⟩ | ⟨_, -, h⟩
  all_goals rw [h]

theorem retune_polish (S : Session α n m) (tolerance : α) :
    (S.retune tolerance).2.info.polish = S.info.polish := by
  have hfactor := (S.adopt S.estimateRho).factorSystem_polish
  unfold adopt at hfactor
  unfold retune
  simp only
  split
  · split
    · rename_i T hT
      rw [hT] at hfactor
      exact hfactor
    · rename_i e T hT
      rw [hT] at hfactor
      exact hfactor
  · rfl

theorem verdict_polish (S : Session α n m) (settings : Settings α) (approximate : Bool) :
    (S.verdict settings approximate).2.info.polish = S.info.polish := by
  obtain ⟨solution, hsolution⟩ := verdict_keeps S settings approximate
  rw [hsolution]

theorem inspect_polish (settings : Settings α) (iter : Nat) (S : Session α n m) :
    (S.inspect settings iter).2.info.polish = S.info.polish := by
  have htested := S.measure.verdict_polish settings false
  have hretuned := fun T : Session α n m => T.retune_polish settings.adaptiveRhoTolerance
  unfold inspect
  cases isDue iter settings.checkTermination with
  | true =>
    simp only [if_true]
    generalize S.measure.verdict settings false = p at htested
    obtain ⟨found, U⟩ := p
    replace htested : U.info.polish = S.info.polish := htested
    replace hretuned := (hretuned U).trans htested
    cases found with
    | some status => exact htested
    | none =>
      simp only [Option.isSome_none, Bool.false_eq_true, if_false]
      split
      · split
        · rename_i V hV
          rw [hV] at hretuned
          exact hretuned
        · rename_i e V hV
          rw [hV] at hretuned
          exact hretuned
      · exact htested
  | false =>
    simp only [Bool.false_eq_true, if_false, Option.isSome_none]
    replace hretuned := hretuned S.measure
    split
    · split
      · rename_i V hV
        rw [hV] at hretuned
        exact hretuned
      · rename_i e V hV
        rw [hV] at hretuned
        exact hretuned
    · rfl

theorem step_polish (S : Session α n m) (alpha sigma : α) :
    (S.step alpha sigma).2.info.polish = S.info.polish := by
  rcases S.step_cases alpha sigma with ⟨-, _, h⟩ | ⟨-, _, h⟩
  all_goals rw [h]

/-- Iterations do not polish. -/
theorem iterate_polish (env : Environment α) (settings : Settings α) (remaining iter : Nat)
    (current : Bool) (S : Session α n m) :
    (iterate env settings remaining iter current S).2.info.polish = S.info.polish := by
  induction remaining generalizing iter current S with
  | zero => rfl
  | succ remaining ih =>
    have hstep := step_polish ({ S with info := { S.info with iter := iter } } : Session α n m)
      settings.alpha settings.sigma
    rw [iterate]
    split
    · rename_i e U hU
      rwa [hU] at hstep
    · rename_i U hU
      rw [hU] at hstep
      have hinspect := inspect_polish settings iter U
      split
      · rename_i e V hV
        rw [hV] at hinspect
        exact hinspect.trans hstep
      · rename_i status current V hV
        rw [hV] at hinspect
        exact hinspect.trans hstep
      · rename_i current V hV
        rw [hV] at hinspect
        split
        · exact hinspect.trans hstep
        · exact ((ih (iter + 1) current V).trans hinspect).trans hstep

/-- The end of a solve stays with the iterate and does not polish it yet. -/
theorem conclude_keeps (env : Environment α) (settings : Settings α) (r : LoopEnd)
    (S : Session α n m) : (S.conclude env settings r).vars = S.vars ∧
      (S.conclude env settings r).info.polish = S.info.polish := by
  have hverdict : ∀ U : Session α n m, (U.verdict settings true).2.vars = U.vars := by
    intro U
    obtain ⟨solution, hsolution⟩ := verdict_keeps U settings true
    rw [hsolution]
  unfold conclude finish
  cases r.found with
  | some status => exact ⟨rfl, rfl⟩
  | none =>
    cases r.current with
    | true => exact ⟨hverdict S, S.verdict_polish settings true⟩
    | false => exact ⟨hverdict S.measure, S.measure.verdict_polish settings true⟩

/-- What is refined is the iterate, within the data and under the settings. -/
theorem refinedIterate?_congr (hdata : T.data = S.data) (hsettings : T.settings = S.settings)
    (hvars : T.vars = S.vars) : T.refinedIterate? env = S.refinedIterate? env := by
  unfold refinedIterate? activeRows
  rw [hdata, hsettings, hvars]

/-- Polishing either takes over the refined point and says so, or leaves the iterate. -/
theorem polish_settledOn (env : Environment α) (S : Session α n m) :
    S.SettledOn env (S.polish env).info.polish (S.polish env).vars := by
  unfold polish
  split
  · exact .iterated (by simp [markPolish])
  · rename_i x z y hpoint
    simp only
    split
    · exact .refined hpoint
    · exact .iterated (by simp [markPolish])

theorem SettledOn.congr {p : PolishStatus} {v : Iterate α n m} (h : S.SettledOn env p v)
    (hdata : T.data = S.data) (hsettings : T.settings = S.settings) (hvars : T.vars = S.vars) :
    T.SettledOn env p v := by
  cases h with
  | iterated hp =>
    rw [← hvars]
    exact .iterated hp
  | refined hpoint =>
    rw [← hvars]
    exact .refined ((refinedIterate?_congr hdata hsettings hvars).trans hpoint)

/-- Every solve that does not fail settles on its last iterate or on the refinement of
it, and its polish status tells which. -/
theorem solve_settledOn (hsolve : S.solve env = (.ok (), T)) :
    ∃ r V, iterate env S.settings S.settings.maxIter.toNat 1 false S.begin = (.ok r, V) ∧
      V.SettledOn env T.info.polish T.vars := by
  obtain ⟨r, V, hV, -, hT⟩ := solve_eq_ok hsolve
  have hsame := conclude_sameCore env S.settings r V
  obtain ⟨hvars, hpolish⟩ := conclude_keeps env S.settings r V
  have hunpolished : V.info.polish = .notPerformed := by
    have hiterate := iterate_polish env S.settings S.settings.maxIter.toNat 1 false S.begin
    rw [hV] at hiterate
    exact hiterate
  refine ⟨r, V, hV, ?_⟩
  rw [hT, (publish_record _).2, (publish_keeps _).1]
  split
  · exact (polish_settledOn env (V.conclude env S.settings r)).congr hsame.data.symm
      hsame.settings.symm hvars.symm
  · rw [hvars, hpolish, hunpolished]
    exact .iterated (by simp)

end Settled

section Reports

variable {K : Type} [Field K] [LinearOrder K] [ExactScalar K] [IsStrictOrderedRing K]
  {n m : Nat} {S T : Session K n m} {env : Environment K}

/-! ### The report -/

omit [IsStrictOrderedRing K] in
theorem userPoint_get (S : Session K n m) :
    S.userPoint.1.get = S.data.userX S.vars ∧ S.userPoint.2.get = S.data.userY S.vars := by
  constructor
  · funext j
    exact Vec.get_hadamard _ _ j
  · funext i
    rw [userPoint, Vec.get_scale, Vec.get_hadamard]
    rfl

/-- The session reports the point `x` and the multipliers `y`, with the objective and
the residuals that these, and `z` in the place of the constraint values, have on the data
`D`. -/
structure Reports (T : Session K n m) (D : Instance K n m) (x : Vec K n) (y : Vec K m)
    (z : Fin m → K) : Prop where
  point : T.solution.x = x.toArray
  multipliers : T.solution.y = y.toArray
  objective : T.info.objVal
    = 1 / 2 * (x.get ⬝ᵥ D.P.csc.mirror n *ᵥ x.get) + D.q.get ⬝ᵥ x.get
  dual : T.info.dualRes
    = supNorm (D.P.csc.mirror n *ᵥ x.get + D.q.get + (D.A.csc.toMatrix m n)ᵀ *ᵥ y.get)
  prim : T.info.primRes = supNorm (D.A.csc.toMatrix m n *ᵥ x.get - z)

/-- Whenever a solve does not fail and does not find the problem infeasible, the
objective and the residuals that it reports are those of the `x` and `y` that it
stores, with the `z` of the iterate that it has settled on, on the data of the user. -/
theorem solve_reports (hreachable : S.Reachable) (hsolve : S.call env .solve = (.ok (), T))
    (hfeasible : T.info.status.isInfeasible = false) :
    ∃ r V v, iterate env S.settings S.settings.maxIter.toNat 1 false S.begin = (.ok r, V) ∧
      V.SettledOn env T.info.polish v ∧
      ∃ (x : Vec K n) (y : Vec K m), x.get = S.data.userX v ∧ y.get = S.data.userY v ∧
        T.Reports S.data.user x y (S.data.userZ v) := by
  replace hsolve : S.solve env = (.ok (), T) := hsolve
  have hdata : T.data = S.data := by
    have hkept := solve_data env S
    rwa [hsolve] at hkept
  have hscaled : S.data.Scaled := hreachable.sound.scaled
  obtain ⟨r, V, hV, hsettled⟩ := solve_settledOn hsolve
  obtain ⟨hx, hy, hobjective, hprim, hdual⟩ := solve_published hsolve hfeasible
  have hmeasured := solve_measured hsolve
  obtain ⟨huserX, huserY⟩ := T.userPoint_get
  rw [hdata] at hmeasured huserX huserY
  refine ⟨r, V, T.vars, hV, hsettled, T.userPoint.1, T.userPoint.2, huserX, huserY, hx, hy,
    ?_, ?_, ?_⟩
  · rw [hobjective, hmeasured, huserX]
    exact hscaled.residuals_objective T.vars
  · rw [hdual, hmeasured, huserX, huserY]
    exact hscaled.residuals_dual T.vars
  · rw [hprim, hmeasured, huserX]
    exact hscaled.residuals_prim T.vars

/-- A report on a point that an accepted refinement has moved. -/
theorem solve_reports_unitProblem : ∃ (S : AdmmSession ℚ) (T : Session ℚ S.n S.m),
    S.session.Reachable ∧ S.session.call (.still ℚ) .solve = (.ok (), T) ∧
      T.info.status.isInfeasible = false ∧ T.info.polish = .succeeded ∧
      ∃ r V v, iterate (.still ℚ) S.session.settings S.session.settings.maxIter.toNat 1 false
          S.session.begin = (.ok r, V) ∧ V.SettledOn (.still ℚ) T.info.polish v ∧
        ∃ (x : Vec ℚ S.n) (y : Vec ℚ S.m), x.get = S.session.data.userX v ∧
          y.get = S.session.data.userY v ∧
          T.Reports S.session.data.user x y (S.session.data.userZ v) := by
  have hrun : (match AdmmSession.setup (.still ℚ) unitProblem
        { plainSettings with polishing := true } with
      | .error _ => false
      | .ok S => match S.session.call (.still ℚ) .solve with
        | (.error _, _) => false
        | (.ok (), T) => !T.info.status.isInfeasible && T.info.polish == .succeeded) = true := by
    decide +kernel
  split at hrun
  · cases hrun
  · rename_i S hsetup
    split at hrun
    · cases hrun
    · rename_i T hsolve
      simp only [Bool.and_eq_true, Bool.not_eq_true', beq_iff_eq] at hrun
      obtain ⟨hfeasible, hpolish⟩ := hrun
      have hreachable : S.session.Reachable := .setup hsetup
      exact ⟨S, T, hreachable, hsolve, hfeasible, hpolish,
        solve_reports hreachable hsolve hfeasible⟩

end Reports
end Session
end QuadOpt
