/-
# What a solve leaves behind

A solve keeps the data and the settings of a sound session. Each iteration ends
with `z` within the bounds and with multipliers whose signs fit to where `z` is,
and a solve that ends as solved has tested the residuals of its last iterate.

Key definitions: `Session.Reachable`, `Session.Complementary`, `Session.Measured`,
`Session.Accepted`, `Session.target`.
Key theorems: `Session.Reachable.sound`, `Session.step_complementary`,
`Session.iterate_ended`, `Session.solve_ended`.
-/
import Mathlib.Tactic.LinearCombination
import QuadOpt.Proofs.Admm.Course
import QuadOpt.Proofs.Admm.Sound

namespace QuadOpt

section Reachable

variable {α : Type} [Scalar α]

/-- The sessions that a successful setup and any calls lead to, those that were
refused or failed included. Each call meets its own environment. -/
inductive Session.Reachable : {n m : Nat} → Session α n m → Prop where
  | setup {env : Environment α} {D : QpData α} {settings : Settings α} {S : AdmmSession α} :
      AdmmSession.setup env D settings = .ok S → Reachable S.session
  | call {n m : Nat} {S : Session α n m} (env : Environment α) (c : SessionCall α) :
      Reachable S → Reachable (S.call env c).2

end Reachable

section Complementary

variable {K : Type} [Field K] [LinearOrder K] {n m : Nat}

/-- The iterate `z` is within the bounds, and a multiplier is positive only where
`z` is at its upper bound and negative only where it is at its lower bound. -/
structure Session.Complementary (S : Session K n m) : Prop where
  lower : ∀ i, S.data.work.l.get i ≤ S.vars.z.get i
  upper : ∀ i, S.vars.z.get i ≤ S.data.work.u.get i
  at_upper : ∀ i, 0 < S.vars.y.get i → S.vars.z.get i = S.data.work.u.get i
  at_lower : ∀ i, S.vars.y.get i < 0 → S.vars.z.get i = S.data.work.l.get i

theorem Session.Complementary.congr {S T : Session K n m} (h : S.Complementary) (hdata : T.data = S.data)
    (hvars : T.vars = S.vars) : T.Complementary where
  lower := by rw [hdata, hvars]; exact h.lower
  upper := by rw [hdata, hvars]; exact h.upper
  at_upper := by rw [hdata, hvars]; exact h.at_upper
  at_lower := by rw [hdata, hvars]; exact h.at_lower

end Complementary

variable {K : Type} [Field K] [LinearOrder K] [ExactScalar K] {n m : Nat}

namespace Session

variable {S T U : Session K n m} {env : Environment K}

/-! ### Verdicts -/

/-- The factor that tolerances are relaxed by for a status. -/
def relaxation (status : SolverStatus) : K :=
  if status.isInaccurate then Limits.approximateFactor else 1

/-- The residuals are those of the iterate. -/
def Measured (S : Session K n m) : Prop := S.res = residuals S.data S.vars

/-- If the status is that of a solution, the residuals are those of the iterate
and within the tolerances for the status. -/
def Accepted (S : Session K n m) (settings : Settings K) (status : SolverStatus) : Prop :=
  status.isSolved = true → S.Measured ∧
    S.isOptimal (settings.epsAbs * relaxation status) (settings.epsRel * relaxation status) = true

theorem verdict_accepted {settings : Settings K} {approximate : Bool} {status : SolverStatus}
    (hmeasured : S.Measured) (hfound : (S.verdict settings approximate).1 = some status) :
    (S.verdict settings approximate).2.Accepted settings status := by
  intro hsolved
  obtain ⟨hopt, h⟩ | ⟨_, v, _, h⟩ | ⟨_, v, _, h⟩ | ⟨_, h⟩ := verdict_cases S settings approximate
  · rw [h] at hfound ⊢
    cases hfound
    refine ⟨hmeasured, ?_⟩
    cases approximate <;> exact hopt
  · rw [h] at hfound
    cases hfound
    cases approximate <;> cases hsolved
  · rw [h] at hfound
    cases hfound
    cases approximate <;> cases hsolved
  · rw [h] at hfound
    cases hfound

/-! ### One iteration -/

theorem Measured.congr (h : S.Measured) (hdata : T.data = S.data) (hvars : T.vars = S.vars)
    (hres : T.res = S.res) : T.Measured := by
  unfold Measured
  rw [hdata, hvars, hres]
  exact h

theorem step_continues (h : S.Sound) (alpha sigma : K) : S.Continues (S.step alpha sigma).2 := by
  unfold step
  simp only
  split
  · exact ⟨h.congr rfl rfl rfl rfl, rfl, rfl⟩
  · exact ⟨h.congr rfl rfl rfl rfl, rfl, rfl⟩

/-! ### Ends -/

/-- What holds when iterations have come to an end. -/
structure Ended (settings : Settings K) (r : LoopEnd) (T : Session K n m) : Prop where
  complementary : T.Complementary
  current : r.current = true → T.Measured
  found : ∀ status, r.found = some status → T.Accepted settings status
  limit : r.limit.isSolved = false

theorem finish_keeps (settings : Settings K) (r : LoopEnd) (h : S.Sound) :
    S.Continues (S.finish settings r).2 ∧ (S.finish settings r).2.vars = S.vars := by
  have hverdict : ∀ T : Session K n m, S.Continues T → T.vars = S.vars →
      S.Continues (T.verdict settings true).2 ∧ (T.verdict settings true).2.vars = S.vars := by
    intro T hT hvars
    obtain ⟨solution, hsolution⟩ := verdict_keeps T settings true
    rw [hsolution]
    exact ⟨⟨hT.sound.congr rfl rfl rfl rfl, hT.data, hT.settings⟩, hvars⟩
  unfold finish
  split
  · exact ⟨h.continues, rfl⟩
  · cases r.current with
    | true => exact hverdict S h.continues rfl
    | false => exact hverdict S.measure ⟨h.congr rfl rfl rfl rfl, rfl, rfl⟩ rfl

/-- Whatever status a solve ends with, its residuals were tested for it. -/
theorem finish_accepted {settings : Settings K} {r : LoopEnd} (h : Ended settings r S) :
    (S.finish settings r).2.Accepted settings (S.finish settings r).1 := by
  unfold finish
  split
  · rename_i status hfound
    exact h.found status hfound
  · have hmeasured : (if r.current then S else S.measure).Measured := by
      by_cases hcurrent : r.current = true
      · rw [if_pos hcurrent]
        exact h.current hcurrent
      · rw [if_neg hcurrent]
        rfl
    simp only
    generalize (if r.current then S else S.measure) = T at hmeasured
    cases hfound : (T.verdict settings true).1 with
    | some status => exact verdict_accepted hmeasured hfound
    | none =>
      intro hsolved
      rw [Option.getD_none, h.limit] at hsolved
      cases hsolved

theorem begin_continues (h : S.Sound) : S.Continues S.begin :=
  ⟨h.congr rfl rfl rfl rfl, rfl, rfl⟩

/-! ### Projections -/

omit [Field K] [ExactScalar K] in
theorem clip_eq_upper {w l u : K} (h : min (max w l) u < w) : min (max w l) u = u := by
  rcases le_total (max w l) u with hle | hle
  · rw [min_eq_left hle] at h
    exact absurd (le_max_left w l) (not_le.mpr h)
  · exact min_eq_right hle

omit [Field K] [ExactScalar K] in
theorem clip_eq_lower {w l u : K} (hlu : l ≤ u) (h : w < min (max w l) u) :
    min (max w l) u = l := by
  have hmax : w < max w l := h.trans_le (min_le_left _ _)
  have hl : max w l = l := max_eq_right (lt_max_iff.mp hmax |>.resolve_left (lt_irrefl w)).le
  rw [hl, min_eq_left hlu]

/-- The numbers that an iteration projects onto the bounds. -/
def target (S : Session K n m) (alpha : K) (zt : Vec K m) (i : Fin m) : K :=
  alpha * zt.get i + (1 - alpha) * S.vars.z.get i + S.system.rhoInv.get i * S.vars.y.get i

variable [IsStrictOrderedRing K]

omit [IsStrictOrderedRing K] in
/-- What an iteration makes of `z` and the multipliers: the target is projected onto
the bounds, and what the projection cuts off are the multipliers. -/
theorem get_advance (h : S.system.Weighted) (alpha : K) (xt : Vec K n) (zt : Vec K m) (i : Fin m) :
    (S.advance alpha S.vars xt zt).z.get i
        = min (max (S.target alpha zt i) (S.data.work.l.get i)) (S.data.work.u.get i) ∧
      (S.advance alpha S.vars xt zt).y.get i
        = S.system.rho.get i * (S.target alpha zt i - (S.advance alpha S.vars xt zt).z.get i) := by
  refine ⟨?_, ?_⟩
  · simp only [advance, Vec.get_ofFn]
    rfl
  · simp only [advance, target, Vec.get_ofFn]
    linear_combination -(S.vars.y.get i) * h.rho_mul_rhoInv i

theorem step_complementary (h : S.system.Weighted)
    (hbounds : ∀ i, S.data.work.l.get i ≤ S.data.work.u.get i)
    {alpha sigma : K} (hstep : S.step alpha sigma = (.ok (), T)) : T.Complementary := by
  unfold step at hstep
  simp only at hstep
  split at hstep
  · rename_i xt zt _
    cases hstep
    have hadvance := get_advance h alpha xt zt
    exact {
      lower := fun i => (hadvance i).1 ▸ le_min (le_max_right _ _) (hbounds i)
      upper := fun i => (hadvance i).1 ▸ min_le_right _ _
      at_upper := fun i hpos => by
        obtain ⟨hz, hy⟩ := hadvance i
        simp only at hpos ⊢
        rw [hy, mul_pos_iff_of_pos_left (h.rho_pos i), sub_pos, hz] at hpos
        rw [hz, clip_eq_upper hpos]
      at_lower := fun i hneg => by
        obtain ⟨hz, hy⟩ := hadvance i
        simp only at hneg ⊢
        rw [hy, ← neg_pos, ← mul_neg, mul_pos_iff_of_pos_left (h.rho_pos i), neg_sub, sub_pos, hz]
          at hneg
        rw [hz, clip_eq_lower (hbounds i) hneg] }
  · cases hstep

/-! ### Adaptation -/

theorem estimateRho_pos (S : Session K n m) : 0 < S.estimateRho := by
  have hmin : (0 : K) < Limits.minRho := by
    norm_num [Limits.minRho]
  have hmax : (0 : K) < Limits.maxRho := by
    norm_num [Limits.maxRho]
  exact lt_min (hmin.trans_le (le_max_right _ _)) hmax

/-- A session whose step size was adapted has its iterate and its residuals as
they were. -/
theorem retune_keeps (h : S.Sound) (tolerance : K) :
    S.Continues (S.retune tolerance).2 ∧ (S.retune tolerance).2.vars = S.vars ∧
      (S.retune tolerance).2.res = S.res := by
  have hretuned : ({ S with
      info := { S.info with rhoEstimate := S.estimateRho }
      rho := S.estimateRho
      system := S.system.withRho S.estimateRho } : Session K n m).Sound :=
    ⟨h.scaled, h.legal, S.estimateRho_pos, h.tuned.withRho _⟩
  have hfactor := factorSystem_continues hretuned
  have hvars := factorSystem_vars ({ S with
      info := { S.info with rhoEstimate := S.estimateRho }
      rho := S.estimateRho
      system := S.system.withRho S.estimateRho } : Session K n m)
  unfold retune
  simp only
  split
  · split
    · rename_i T hT
      rw [hT] at hfactor hvars
      exact ⟨⟨hfactor.sound.congr rfl rfl rfl rfl, hfactor.data, hfactor.settings⟩, hvars⟩
    · rename_i e T hT
      rw [hT] at hfactor hvars
      exact ⟨⟨hfactor.sound, hfactor.data, hfactor.settings⟩, hvars⟩
  · exact ⟨⟨h.congr rfl rfl rfl rfl, rfl, rfl⟩, rfl, rfl⟩

/-- What the rest of an iteration does to a session: the iterate stays, and the
flag and the status that come out of it are right. -/
structure Inspected (settings : Settings K) (S T : Session K n m)
    (r : Except EngineError (Option SolverStatus × Bool)) : Prop where
  continues : S.Continues T
  vars : T.vars = S.vars
  current : ∀ p, r = .ok p → p.2 = true → T.Measured
  found : ∀ p status, r = .ok p → p.1 = some status → T.Accepted settings status

omit [IsStrictOrderedRing K] in
theorem Inspected.of_none {settings : Settings K} (h : S.Continues T) (hvars : T.vars = S.vars)
    {current : Bool} (hcurrent : current = true → T.Measured) :
    Inspected settings S T (.ok (none, current)) where
  continues := h
  vars := hvars
  current _ he hp := by
    cases he
    exact hcurrent hp
  found _ _ he hp := by
    cases he
    cases hp

omit [IsStrictOrderedRing K] in
theorem Inspected.of_error {settings : Settings K} (h : S.Continues T) (hvars : T.vars = S.vars)
    (e : EngineError) : Inspected settings S T (.error e) where
  continues := h
  vars := hvars
  current _ he := by cases he
  found _ _ he := by cases he

/-- The adaptation at the end of an iteration whose residuals were computed. -/
theorem retune_inspected {settings : Settings K} (h : S.Continues T) (hvars : T.vars = S.vars)
    (hmeasured : T.Measured) (tolerance : K) :
    let r : Except EngineError (Option SolverStatus × Bool) × Session K n m :=
      match T.retune tolerance with
      | (.ok (), T) => (.ok (none, true), T)
      | (.error e, T) => (.error e, T)
    Inspected settings S r.2 r.1 := by
  obtain ⟨hcontinues, hkept, hres⟩ := retune_keeps h.sound tolerance
  simp only
  split
  · rename_i U hU
    rw [hU] at hcontinues hkept hres
    exact .of_none (h.trans hcontinues) (hkept.trans hvars)
      fun _ => hmeasured.congr hcontinues.data hkept hres
  · rename_i e U hU
    rw [hU] at hcontinues hkept hres
    exact .of_error (h.trans hcontinues) (hkept.trans hvars) e

theorem inspect_inspected (h : S.Sound) (settings : Settings K) (iter : Nat) :
    Inspected settings S (S.inspect settings iter).2 (S.inspect settings iter).1 := by
  have hmeasure : S.Continues S.measure := ⟨h.congr rfl rfl rfl rfl, rfl, rfl⟩
  have hmeasured : S.measure.Measured := rfl
  unfold inspect
  cases htests : isDue iter settings.checkTermination with
  | false =>
    simp only [Bool.false_eq_true, if_false, Option.isSome_none]
    split
    · exact retune_inspected hmeasure rfl hmeasured _
    · exact .of_none h.continues rfl fun he => by cases he
  | true =>
    have haccepted : ∀ status, (S.measure.verdict settings false).1 = some status →
        (S.measure.verdict settings false).2.Accepted settings status :=
      fun _ => verdict_accepted hmeasured
    obtain ⟨solution, hsolution⟩ := verdict_keeps S.measure settings false
    simp only [if_true]
    cases hverdict : S.measure.verdict settings false with
    | mk found T =>
      rw [hverdict] at haccepted hsolution
      obtain rfl : T = { S.measure with solution := solution } := hsolution
      have hkept : S.Continues { S.measure with solution := solution } :=
        ⟨hmeasure.sound.congr rfl rfl rfl rfl, rfl, rfl⟩
      cases found with
      | some status =>
        exact {
          continues := hkept
          vars := rfl
          current := fun _ _ _ => rfl
          found := fun _ status' he hp => by
            cases he
            exact haccepted status' hp }
      | none =>
        simp only [Option.isSome_none, Bool.false_eq_true, if_false]
        split
        · exact retune_inspected hkept rfl rfl _
        · exact .of_none hkept rfl fun _ => rfl

/-! ### Iterations -/

omit [IsStrictOrderedRing K] in
theorem Continues.congr (h : S.Continues T) (hsame : T.SameCore U) : S.Continues U :=
  ⟨h.sound.congr hsame.data hsame.settings hsame.system hsame.rho,
    hsame.data.trans h.data, hsame.settings.trans h.settings⟩

theorem Sound.adopt (h : S.Sound) : (S.adopt S.estimateRho).Sound :=
  ⟨h.scaled, h.legal, S.estimateRho_pos, h.tuned.withRho _⟩

theorem Continues.adopt (h : S.Continues T) {r : Except EngineError Unit}
    (hfactor : (T.adopt T.estimateRho).factorSystem = (r, U)) : S.Continues U := by
  have hfactored := factorSystem_continues h.sound.adopt
  rw [hfactor] at hfactored
  exact .trans ⟨h.sound.adopt, h.data, h.settings⟩ hfactored

theorem iterate_continues (env : Environment K) (settings : Settings K) (remaining iter : Nat)
    (current : Bool) (h : S.Sound) : S.Continues (iterate env settings remaining iter current S).2 := by
  obtain ⟨hok, herror⟩ := iterate_induction (p := S.Continues) (q := fun _ T => S.Continues T)
    (fun hsame hT => hT.congr hsame) (fun hT _ hsame => hT.congr hsame)
    (fun hT => ⟨hT.adopt, hT.adopt⟩)
    env settings remaining iter current h.continues
  cases hiterate : iterate env settings remaining iter current S with
  | mk r T =>
    cases r with
    | ok r => exact hok r T hiterate
    | error e => exact herror e T hiterate

/-- Once one iteration was taken, the last one taken decides what holds at the
end. -/
theorem iterate_ended {settings : Settings K} {remaining iter : Nat} {current : Bool} {r : LoopEnd}
    (h : S.Sound) (hbounds : ∀ i, S.data.work.l.get i ≤ S.data.work.u.get i)
    (hstart : remaining = 0 → S.Complementary ∧ (current = true → S.Measured))
    (hiterate : iterate env settings remaining iter current S = (.ok r, T)) :
    Ended settings r T := by
  induction remaining generalizing iter current S with
  | zero =>
    obtain ⟨hcomplementary, hcurrent⟩ := hstart rfl
    cases hiterate
    exact ⟨hcomplementary, hcurrent, fun _ he => (by cases he), rfl⟩
  | succ remaining ih =>
    have hnumbered : ({ S with info := { S.info with iter := iter } } : Session K n m).Sound :=
      h.congr rfl rfl rfl rfl
    have hstep := step_continues hnumbered settings.alpha settings.sigma
    rw [iterate] at hiterate
    split at hiterate
    · cases hiterate
    · rename_i U hU
      have hcomplementary := step_complementary hnumbered.weighted hbounds hU
      rw [hU] at hstep
      have hinspected := inspect_inspected hstep.sound settings iter
      have hkept := hcomplementary.congr hinspected.continues.data hinspected.vars
      split at hiterate
      · cases hiterate
      · rename_i status current V hV
        rw [hV] at hinspected hkept
        cases hiterate
        exact {
          complementary := hkept
          current := hinspected.current _ rfl
          found := fun status => hinspected.found _ status rfl
          limit := rfl }
      · rename_i current V hV
        rw [hV] at hinspected hkept
        have hmeasured : current = true → V.Measured := hinspected.current _ rfl
        split at hiterate
        · cases hiterate
          exact ⟨hkept, hmeasured, fun _ he => (by cases he), rfl⟩
        · have hdata : V.data = S.data := hinspected.continues.data.trans hstep.data
          refine ih hinspected.continues.sound ?_ (fun _ => ⟨hkept, hmeasured⟩) hiterate
          intro i
          rw [hdata]
          exact hbounds i

/-! ### Solves -/

/-- A solve takes at least one iteration. -/
theorem begin_ended {r : LoopEnd} (h : S.Sound)
    (hbounds : ∀ i, S.data.work.l.get i ≤ S.data.work.u.get i)
    (hiterate : iterate env S.settings S.settings.maxIter.toNat 1 false S.begin = (.ok r, T)) :
    Ended S.settings r T := by
  obtain ⟨-, -, -, -, -, -, -, -, hmaxIter, -⟩ := (Settings.validate_eq_ok_iff _).mp h.legal
  exact iterate_ended (begin_continues h).sound hbounds
    (fun hzero => absurd (UInt32.toNat_inj.mp hzero) hmaxIter) hiterate

omit [IsStrictOrderedRing K] in
/-- The iterate of a session whose iterations have ended fits to its bounds. -/
theorem Ended.conclude {settings : Settings K} {r : LoopEnd} (h : Ended settings r T)
    (hsound : T.Sound) (env : Environment K) : (T.conclude env settings r).Complementary := by
  obtain ⟨hfinish, hvars⟩ := finish_keeps settings r hsound
  exact h.complementary.congr hfinish.data hvars

theorem solve_continues (env : Environment K) (h : S.Sound) : S.Continues (S.solve env).2 := by
  have hiterate := (begin_continues h).trans (iterate_continues env S.settings
    S.settings.maxIter.toNat 1 false (begin_continues h).sound)
  rcases solve_cases env S with ⟨e, T, hT, hsolve⟩ | ⟨r, T, U, hT, hsolve, hsame⟩
  · rw [hT] at hiterate
    rwa [hsolve]
  · rw [hT] at hiterate
    rw [hsolve]
    exact hiterate.congr hsame

/-- What a solve without polishing ends with. -/
theorem solve_ended (h : S.Sound) (hbounds : ∀ i, S.data.work.l.get i ≤ S.data.work.u.get i)
    (hpolishing : S.settings.polishing = false) (hsolve : S.solve env = (.ok (), T)) :
    T.Complementary ∧ T.Accepted S.settings T.info.status ∧
      (T.info.status.isInfeasible = false →
        T.solution.x = T.userPoint.1.toArray ∧ T.solution.y = T.userPoint.2.toArray) := by
  have hbegin := begin_continues h
  obtain ⟨r, U, hU, -, hT⟩ := solve_eq_ok hsolve
  replace hT : T = (U.conclude env S.settings r).publish := by
    rw [hT, hpolishing]
    rfl
  subst hT
  have hended := begin_ended h hbounds hU
  have hiterate := iterate_continues env S.settings S.settings.maxIter.toNat 1 false hbegin.sound
  rw [hU] at hiterate
  have haccepted := finish_accepted hended
  have hcomplementary := hended.conclude hiterate.sound env
  obtain ⟨hvars', hres', hdata', hstatus'⟩ := publish_keeps (U.conclude env S.settings r)
  refine ⟨hcomplementary.congr hdata' hvars', ?_, ?_⟩
  · rw [hstatus']
    intro hsolved
    obtain ⟨hmeasured, hoptimal⟩ := haccepted hsolved
    refine ⟨hmeasured.congr hdata' hvars' hres', ?_⟩
    unfold isOptimal at hoptimal ⊢
    rw [hres']
    exact hoptimal
  · intro hinfeasible
    rw [hstatus'] at hinfeasible
    have huser : (U.conclude env S.settings r).publish.userPoint
        = (U.conclude env S.settings r).userPoint := by
      unfold userPoint
      rw [hvars', hdata']
    rw [huser]
    exact publish_solution hinfeasible

/-! ### Calls -/

theorem call_sound (env : Environment K) (h : S.Sound) (c : SessionCall K) :
    (S.call env c).2.Sound := by
  cases c with
  | solve => exact (solve_continues env h).sound
  | updateVectors q l u => exact updateVectors_sound h q l u
  | updateMatrices Px PxIdx Ax AxIdx => exact updateMatrices_sound h Px PxIdx Ax AxIdx
  | warmStart x y => exact warmStart_sound h x y
  | updateSettings settings => exact updateSettings_sound h settings

/-- Whatever calls a session has seen, accepted or not, it is sound. -/
theorem Reachable.sound (h : S.Reachable) : S.Sound := by
  induction h with
  | setup hsetup => exact setup_sound hsetup
  | call env c _ ih => exact call_sound env ih c

end Session
end QuadOpt
