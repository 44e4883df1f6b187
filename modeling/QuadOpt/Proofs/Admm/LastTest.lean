/-
# The last test of a solve

Termination is tested at full accuracy only in iterations whose number is a multiple
of an interval. When the iterations or the time are used up, one more test is made,
and it has relaxed tolerances. So an iterate of full accuracy is reported as solved if
its own iteration was one that is tested, and else as solved with reduced accuracy.
The residuals play no part in this beyond comparisons, and the statements hold in any
number system, binary64 included.

Key definitions: `Session.Within`, `Session.Tested`, `Session.Judges`.
Key theorems: `Session.inspect_tested`, `Session.iterate_tested`,
`Session.finish_judges`, `Session.solve_accuracy`.
-/
import QuadOpt.Proofs.Admm.Bounds
import QuadOpt.Proofs.Admm.Solves
import QuadOpt.Proofs.Admm.Verdict
import QuadOpt.Proofs.Admm.Accuracy

namespace QuadOpt.Session

variable {α : Type} [Scalar α] {n m : Nat} {S T : Session α n m} {env : Environment α}
  {settings : Settings α}

/-! ### Sessions have legal settings -/

/-- New settings are legal, and nothing else changes them. -/
theorem call_legal (h : S.settings.validate = .ok ()) (env : Environment α) (c : SessionCall α) :
    (S.call env c).2.settings.validate = .ok () := by
  cases c with
  | updateSettings s =>
    show (S.updateSettings s).2.settings.validate = .ok ()
    unfold updateSettings
    split
    · exact h
    · rename_i hvalid
      have hs := Settings.validate_of_validateUpdate hvalid
      split
      · rw [(factorSystem_keeps _).2.1]
        exact hs
      · exact hs
  | solve | updateVectors | updateMatrices | warmStart =>
    rw [S.call_settings env (by simp)]
    exact h

theorem Reachable.legal (h : S.Reachable) : S.settings.validate = .ok () := by
  induction h with
  | setup hsetup =>
    rw [setup_settings hsetup]
    exact (AdmmSession.setup_eq_ok hsetup).1
  | call env c _ ih => exact call_legal ih env c

/-! ### The criterion -/

/-- The residuals are within the tolerances; without constraints there is no primal one. -/
def Within (S : Session α n m) (epsAbs epsRel : α) : Prop :=
  (m = 0 ∨ S.res.prim ≤ epsAbs + epsRel * S.res.primNorm) ∧
    S.res.dual ≤ epsAbs + epsRel * S.res.dualNorm

theorem isOptimal_iff {epsAbs epsRel : α} :
    S.isOptimal epsAbs epsRel = true ↔ S.Within epsAbs epsRel := by
  simp only [isOptimal, Within, Bool.and_eq_true, Bool.or_eq_true, beq_iff_eq, decide_eq_true_eq]

theorem Within.congr {epsAbs epsRel : α} (h : T.res = S.res) :
    T.Within epsAbs epsRel ↔ S.Within epsAbs epsRel := by
  unfold Within
  rw [h]

/-- A verdict is one that the problem is solved iff the residuals are within the
tolerances. -/
theorem verdict_solved_iff (S : Session α n m) (settings : Settings α) (approximate : Bool) :
    let factor : α := if approximate then Limits.approximateFactor else 1
    (S.verdict settings approximate).1
        = some (if approximate then .solvedInaccurate else .solved) ↔
      S.Within (settings.epsAbs * factor) (settings.epsRel * factor) := by
  intro factor
  rw [← isOptimal_iff]
  rcases verdict_cases S settings approximate with
    ⟨hopt, h⟩ | ⟨hopt, _, _, h⟩ | ⟨hopt, _, _, h⟩ | ⟨hopt, h⟩
  all_goals
    rw [h, hopt]
    cases approximate <;> simp

/-- A verdict is an accurate one iff the tolerances were not relaxed. -/
theorem verdict_isInaccurate {approximate : Bool} {status : SolverStatus}
    (h : (S.verdict settings approximate).1 = some status) :
    status.isInaccurate = approximate := by
  rcases verdict_cases S settings approximate with
    ⟨-, hcase⟩ | ⟨-, _, -, hcase⟩ | ⟨-, _, -, hcase⟩ | ⟨-, hcase⟩
  all_goals
    rw [hcase] at h
    cases h
  all_goals cases approximate <;> rfl

theorem verdict_res (S : Session α n m) (settings : Settings α) (approximate : Bool) :
    (S.verdict settings approximate).2.res = S.res ∧
      (S.verdict settings approximate).2.info = S.info := by
  obtain ⟨solution, h⟩ := verdict_keeps S settings approximate
  rw [h]
  exact ⟨rfl, rfl⟩

/-! ### Iterations -/

/-- Where an iteration is tested the residuals are current, and it is found to solve the
problem iff they are within the tolerances; where it is not, nothing is found. -/
structure Tested (settings : Settings α) (r : LoopEnd) (T : Session α n m) : Prop where
  due : isDue T.info.iter settings.checkTermination = true →
    r.current = true ∧ (r.found = some .solved ↔ T.Within settings.epsAbs settings.epsRel)
  skipped : isDue T.info.iter settings.checkTermination = false → r.found = none
  /-- nothing is found with relaxed tolerances -/
  accurate : ∀ status, r.found = some status → status.isInaccurate = false

theorem Tested.congr {r r' : LoopEnd} (h : S.Tested settings r) (hres : T.res = S.res)
    (hiter : T.info.iter = S.info.iter) (hfound : r'.found = r.found)
    (hcurrent : r'.current = r.current) : T.Tested settings r' := by
  constructor
  · rw [hiter, hfound, hcurrent, Within.congr hres]
    exact h.due
  · rw [hiter, hfound]
    exact h.skipped
  · rw [hfound]
    exact h.accurate

theorem factorSystem_iter (S : Session α n m) :
    S.factorSystem.2.info.iter = S.info.iter := by
  rcases S.factorSystem_cases with ⟨-, h⟩ | ⟨_, -, -, h⟩ | ⟨_, -, h⟩
  all_goals rw [h]

theorem retune_iter (S : Session α n m) (tolerance : α) :
    (S.retune tolerance).2.info.iter = S.info.iter := by
  have hfactor := (S.adopt S.estimateRho).factorSystem_iter
  unfold adopt at hfactor
  unfold retune
  simp only
  split
  · split
    · rename_i T hT
      rw [hT] at hfactor
      exact hfactor
    · rename_i e T hT
      rw [hT] at hfactor
      exact hfactor
  · rfl

variable [UnitalScalar α]

/-- The rest of an iteration is a test where one is due. -/
theorem inspect_tested {found : Option SolverStatus} {current : Bool}
    (h : S.inspect settings S.info.iter = (.ok (found, current), T)) :
    T.info.iter = S.info.iter ∧ T.Tested settings ⟨found, .maxIterReached, current⟩ := by
  unfold inspect at h
  cases hdue : isDue S.info.iter settings.checkTermination with
  | false =>
    -- Nothing was tested, and residuals are computed for the step size at most.
    have hskipped : found = none ∧ T.info.iter = S.info.iter := by
      simp only [hdue, Bool.false_eq_true, if_false, Option.isSome_none] at h
      split at h
      · have hiter := S.measure.retune_iter settings.adaptiveRhoTolerance
        split at h
        · rename_i U hU
          rw [hU] at hiter
          cases h
          exact ⟨rfl, hiter⟩
        · cases h
      · cases h
        exact ⟨rfl, rfl⟩
    obtain ⟨rfl, hiter⟩ := hskipped
    refine ⟨hiter, ⟨fun hT => ?_, fun _ => rfl, fun _ he => by cases he⟩⟩
    rw [hiter, hdue] at hT
    cases hT
  | true =>
    have hsolved := S.measure.verdict_solved_iff settings false
    have haccurate : ∀ status, (S.measure.verdict settings false).1 = some status →
        status.isInaccurate = false := fun _ => verdict_isInaccurate
    obtain ⟨hres, hinfo⟩ := S.measure.verdict_res settings false
    simp only [Bool.false_eq_true, if_false, UnitalScalar.mul_one] at hsolved
    rw [← Within.congr hres] at hsolved
    simp only [hdue, if_true] at h
    generalize S.measure.verdict settings false = p at h hsolved haccurate hres hinfo
    obtain ⟨answer, U⟩ := p
    -- What the test found is what the iteration answers; a new step size leaves the
    -- residuals as they are.
    have hkept : found = answer ∧ current = true ∧ T.res = U.res ∧ T.info.iter = U.info.iter := by
      cases answer with
      | some status =>
        cases h
        exact ⟨rfl, rfl, rfl, rfl⟩
      | none =>
        simp only [Option.isSome_none, Bool.false_eq_true, if_false] at h
        split at h
        · have hiter := U.retune_iter settings.adaptiveRhoTolerance
          obtain ⟨-, -, hretuned⟩ := U.retune_vars settings.adaptiveRhoTolerance
          split at h
          · rename_i V hV
            rw [hV] at hiter hretuned
            cases h
            exact ⟨rfl, rfl, hretuned, hiter⟩
          · cases h
        · cases h
          exact ⟨rfl, rfl, rfl, rfl⟩
    obtain ⟨rfl, rfl, hres, hiter⟩ := hkept
    have hiter : T.info.iter = S.info.iter := hiter.trans (congrArg Info.iter hinfo)
    refine ⟨hiter, ⟨fun _ => ⟨rfl, hsolved.trans (Within.congr hres).symm⟩, fun hT => ?_,
      haccurate⟩⟩
    rw [hiter, hdue] at hT
    cases hT

/-- The last iteration was tested like every other. -/
theorem iterate_tested {remaining iter : Nat} {current : Bool} {r : LoopEnd}
    (hremaining : remaining ≠ 0)
    (h : iterate env settings remaining iter current S = (.ok r, T)) :
    iter ≤ T.info.iter ∧ T.info.iter < iter + remaining ∧ T.Tested settings r := by
  induction remaining generalizing iter current S with
  | zero => exact absurd rfl hremaining
  | succ remaining ih =>
    rw [iterate] at h
    split at h
    · cases h
    · rename_i U hU
      have hiter : U.info.iter = iter := by
        rcases step_cases ({ S with info := { S.info with iter := iter } } : Session α n m)
          settings.alpha settings.sigma with ⟨-, vars, hstep⟩ | ⟨-, vars, hstep⟩
        · rw [hU] at hstep
          cases hstep
          rfl
        · rw [hU] at hstep
          cases hstep
      subst hiter
      split at h
      · cases h
      · rename_i status current V hV
        obtain ⟨hiter, htested⟩ := inspect_tested hV
        cases h
        exact ⟨hiter.ge, by omega, htested⟩
      · rename_i current V hV
        obtain ⟨hiter, htested⟩ := inspect_tested hV
        split at h
        · cases h
          exact ⟨hiter.ge, by omega, htested.congr rfl rfl rfl rfl⟩
        · -- The iterations are used up, or the last one is among those that follow.
          cases remaining with
          | zero =>
            cases h
            exact ⟨hiter.ge, by omega, htested⟩
          | succ remaining =>
            obtain ⟨hlower, hupper, htested⟩ := ih (Nat.succ_ne_zero remaining) h
            exact ⟨by omega, by omega, htested⟩

/-! ### Solves -/

/-- What a status says about the residuals that it was given for. -/
structure Judges (settings : Settings α) (status : SolverStatus) (T : Session α n m) : Prop where
  solved_iff : status = .solved ↔ isDue T.info.iter settings.checkTermination = true ∧
    T.Within settings.epsAbs settings.epsRel
  inaccurate : status = .solvedInaccurate → T.Within
    (settings.epsAbs * Limits.approximateFactor) (settings.epsRel * Limits.approximateFactor)
  untested : isDue T.info.iter settings.checkTermination = false → T.Within
    (settings.epsAbs * Limits.approximateFactor) (settings.epsRel * Limits.approximateFactor) →
    status = .solvedInaccurate

omit [UnitalScalar α] in
theorem Judges.congr {status : SolverStatus} (h : S.Judges settings status) (hres : T.res = S.res)
    (hiter : T.info.iter = S.info.iter) : T.Judges settings status := by
  constructor
  · rw [hiter, Within.congr hres]
    exact h.solved_iff
  · rw [Within.congr hres]
    exact h.inaccurate
  · rw [hiter, Within.congr hres]
    exact h.untested

omit [UnitalScalar α] in
/-- What an iteration finds is found at full accuracy. -/
theorem Tested.judges {r : LoopEnd} {status : SolverStatus} (h : S.Tested settings r)
    (hfound : r.found = some status) : S.Judges settings status := by
  have hdue : isDue S.info.iter settings.checkTermination = true := by
    by_contra hnot
    rw [Bool.not_eq_true] at hnot
    rw [h.skipped hnot] at hfound
    cases hfound
  have hsolved := (h.due hdue).2
  rw [hfound, Option.some.injEq] at hsolved
  have haccurate := h.accurate status hfound
  constructor
  · rw [hsolved, and_iff_right hdue]
  · rintro rfl
    cases haccurate
  · rw [hdue]
    exact nofun

omit [UnitalScalar α] in
/-- What the test with relaxed tolerances finds where the last iteration found nothing, and
the limit that it gives way to, are judgements. -/
theorem verdict_judges {limit : SolverStatus}
    (hlimit : limit = .maxIterReached ∨ limit = .timeLimitReached)
    (h : ¬(isDue S.info.iter settings.checkTermination = true ∧
      S.Within settings.epsAbs settings.epsRel)) :
    (S.verdict settings true).2.Judges settings ((S.verdict settings true).1.getD limit) := by
  have hrelaxed := S.verdict_solved_iff settings true
  have hinaccurate : ∀ status, (S.verdict settings true).1 = some status →
      status.isInaccurate = true := fun _ => verdict_isInaccurate
  obtain ⟨hres, hinfo⟩ := S.verdict_res settings true
  simp only [if_true] at hrelaxed
  constructor
  · rw [hinfo, Within.congr hres, iff_false_right h]
    cases hfound : (S.verdict settings true).1 with
    | none =>
      rcases hlimit with rfl | rfl <;> rw [Option.getD_none] <;> decide
    | some status =>
      rintro rfl
      cases hinaccurate _ hfound
  · rw [Within.congr hres, ← hrelaxed]
    cases hfound : (S.verdict settings true).1 with
    | none =>
      rcases hlimit with rfl | rfl <;> rw [Option.getD_none] <;> exact nofun
    | some status => exact congrArg some
  · rw [Within.congr hres, ← hrelaxed]
    intro _ hfound
    rw [hfound]
    rfl

omit [UnitalScalar α] in
/-- The status at the end of the iterations: what the last test found, or what the one
with relaxed tolerances does. -/
theorem finish_judges {r : LoopEnd} (h : S.Tested settings r)
    (hlimit : r.limit = .maxIterReached ∨ r.limit = .timeLimitReached) :
    (S.finish settings r).2.info.iter = S.info.iter ∧
      (S.finish settings r).2.Judges settings (S.finish settings r).1 := by
  unfold finish
  split
  · rename_i status hfound
    exact ⟨rfl, h.judges hfound⟩
  · rename_i hfound
    generalize hU : (if r.current then S else S.measure) = U
    have hiter : U.info.iter = S.info.iter := by
      rw [← hU]
      split <;> rfl
    -- The test in the last iteration, if there was one, saw the same residuals.
    have hunsolved : ¬(isDue U.info.iter settings.checkTermination = true ∧
        U.Within settings.epsAbs settings.epsRel) := by
      rintro ⟨hdue, hwithin⟩
      rw [hiter] at hdue
      obtain ⟨hcurrent, hsolved⟩ := h.due hdue
      rw [if_pos hcurrent] at hU
      subst hU
      rw [hsolved.mpr hwithin] at hfound
      cases hfound
    simp only
    rw [(U.verdict_res settings true).2]
    exact ⟨hiter, verdict_judges hlimit hunsolved⟩

/-- What the status of a solve says about the residuals that it leaves behind, those of a
solution that may have been polished apart. -/
theorem solve_judges (hmax : S.settings.maxIter ≠ 0) (hsolve : S.solve env = (.ok (), T)) :
    1 ≤ T.info.iter ∧ T.info.iter ≤ S.settings.maxIter.toNat ∧
      ((S.settings.polishing && T.info.status == .solved) = false →
        T.Judges S.settings T.info.status) ∧
      (T.info.status = .solved → isDue T.info.iter S.settings.checkTermination = true) := by
  have hcount : S.settings.maxIter.toNat ≠ 0 := fun h => hmax (UInt32.toNat_inj.mp h)
  obtain ⟨r, V, hV, hstatus, hT⟩ := solve_eq_ok hsolve
  obtain ⟨hlower, hupper, htested⟩ := iterate_tested hcount hV
  have hclosed : Closed S.settings r V := iterate_closed (fun he => by cases he) hV
  obtain ⟨hiter, hfinish⟩ := finish_judges htested hclosed.limit
  have hjudges : (V.conclude env S.settings r).Judges S.settings
      (V.conclude env S.settings r).info.status := hfinish.congr rfl rfl
  have hconclude : (V.conclude env S.settings r).info.iter = V.info.iter := hiter
  generalize V.conclude env S.settings r = U at hstatus hT hjudges hconclude
  have hpublish : T.info.iter = U.info.iter := by
    rw [hT, (publish_record _).1]
    split
    · exact (U.polish_iter env).1
    · rfl
  rw [hstatus, hpublish]
  refine ⟨by omega, by omega, fun hplain => ?_, fun hsolved => (hjudges.solved_iff.mp hsolved).1⟩
  rw [if_neg (by rw [hplain]; exact Bool.false_ne_true)] at hT
  rw [hT]
  exact hjudges.congr (publish_keeps U).2.1 (publish_record U).1

/-- An interval of iterations is over at its multiples, unless it is zero. -/
theorem isDue_iff {iter : Nat} {interval : UInt32} :
    isDue iter interval = true ↔ 0 < interval.toNat ∧ interval.toNat ∣ iter := by
  simp [isDue, Nat.dvd_iff_mod_eq_zero]

/-- A solve tests the accuracy that was asked for in those iterations whose number is a
multiple of the interval. A last iterate of that accuracy is reported as solved if its
iteration is such a one, and as solved with reduced accuracy if not; the latter is
reported of no other iterate that would pass the test. -/
theorem solve_accuracy (hreachable : S.Reachable) (hsolve : S.call env .solve = (.ok (), T)) :
    let interval := S.settings.checkTermination.toNat
    let tested := 0 < interval ∧ interval ∣ T.info.iter
    let accurate := T.Within S.settings.epsAbs S.settings.epsRel
    let nearly := T.Within (S.settings.epsAbs * Limits.approximateFactor)
      (S.settings.epsRel * Limits.approximateFactor)
    (1 ≤ T.info.iter ∧ T.info.iter ≤ S.settings.maxIter.toNat) ∧
    T.res = residuals T.data T.vars ∧
    (tested → accurate → T.info.status = .solved) ∧
    (T.info.status = .solvedInaccurate → nearly ∧ ¬(tested ∧ accurate)) ∧
    (¬tested → nearly → T.info.status = .solvedInaccurate) ∧
    (T.info.status = .solved → tested ∧ (S.settings.polishing = false → accurate)) := by
  intro interval tested accurate nearly
  have hdue : isDue T.info.iter S.settings.checkTermination = true ↔ tested := isDue_iff
  obtain ⟨-, -, -, -, -, -, -, -, hmax, -⟩ :=
    (Settings.validate_eq_ok_iff _).mp hreachable.legal
  obtain ⟨hlower, hupper, hjudges, hsolved⟩ := solve_judges hmax hsolve
  refine ⟨⟨hlower, hupper⟩, solve_measured hsolve, ?_⟩
  by_cases hstatus : T.info.status = .solved
  · -- a polished solution was judged before it was polished
    have htested := hdue.mp (hsolved hstatus)
    refine ⟨fun _ _ => hstatus, fun h => ?_, fun h => absurd htested h, fun _ => ⟨htested, fun h => ?_⟩⟩
    · rw [hstatus] at h
      cases h
    · rw [h] at hjudges
      exact ((hjudges rfl).solved_iff.mp hstatus).2
  · obtain ⟨hiff, hinaccurate, huntested⟩ := hjudges (by simp [hstatus])
    rw [hdue] at hiff
    refine ⟨fun htested haccurate => hiff.mpr ⟨htested, haccurate⟩, fun h => ⟨hinaccurate h, ?_⟩,
      fun h => huntested ?_, fun h => absurd h hstatus⟩
    · exact fun hboth => hstatus (hiff.mpr hboth)
    · rwa [← Bool.not_eq_true, hdue]

/-- Of the iterations that a problem is solved in, every third one is tested. -/
theorem solve_accuracy_unitProblem :
    ∃ (S : AdmmSession ℚ) (T : Session ℚ S.n S.m), S.session.Reachable ∧
      S.session.call (.still ℚ) .solve = (.ok (), T) ∧
      S.session.settings.checkTermination = 3 ∧ T.info.status = .solved ∧
      3 ∣ T.info.iter ∧ T.Within S.session.settings.epsAbs S.session.settings.epsRel := by
  have hrun : (match AdmmSession.setup (.still ℚ) unitProblem
        { plainSettings with checkTermination := 3 } with
      | .error _ => false
      | .ok S => match S.session.call (.still ℚ) .solve with
        | (.error _, _) => false
        | (.ok (), T) => S.session.settings.checkTermination == 3 &&
            !S.session.settings.polishing && decide (T.info.status = .solved)) = true := by
    decide +kernel
  split at hrun
  · cases hrun
  · rename_i S hsetup
    split at hrun
    · cases hrun
    · rename_i T hsolve
      simp only [Bool.and_eq_true, beq_iff_eq, Bool.not_eq_true', decide_eq_true_eq] at hrun
      obtain ⟨⟨hinterval, hpolishing⟩, hstatus⟩ := hrun
      have hreachable : S.session.Reachable := .setup hsetup
      obtain ⟨-, -, -, -, -, hsolved⟩ := solve_accuracy hreachable hsolve
      obtain ⟨⟨-, hdvd⟩, haccurate⟩ := hsolved hstatus
      rw [hinterval] at hdvd
      exact ⟨S, T, hreachable, hsolve, hinterval, hstatus, hdvd, haccurate hpolishing⟩

/-- Without an interval there is no test at full accuracy, and a last iterate that has it
is reported as solved with reduced accuracy. -/
theorem solve_untested_unitProblem :
    ∃ (S : AdmmSession ℚ) (T : Session ℚ S.n S.m),
      AdmmSession.setup (.still ℚ) unitProblem
        { plainSettings with checkTermination := 0, maxIter := 12 } = .ok S ∧
      S.session.call (.still ℚ) .solve = (.ok (), T) ∧
      T.info.status = .solvedInaccurate ∧
      T.Within S.session.settings.epsAbs S.session.settings.epsRel := by
  have hrun : (match AdmmSession.setup (.still ℚ) unitProblem
        { plainSettings with checkTermination := 0, maxIter := 12 } with
      | .error _ => false
      | .ok S => match S.session.call (.still ℚ) .solve with
        | (.error _, _) => false
        | (.ok (), T) => decide (T.info.status = .solvedInaccurate) &&
            T.isOptimal S.session.settings.epsAbs S.session.settings.epsRel) = true := by
    decide +kernel
  split at hrun
  · cases hrun
  · rename_i S hsetup
    split at hrun
    · cases hrun
    · rename_i T hsolve
      simp only [Bool.and_eq_true, decide_eq_true_eq] at hrun
      exact ⟨S, T, hsetup, hsolve, hrun.1, isOptimal_iff.mp hrun.2⟩

end QuadOpt.Session
