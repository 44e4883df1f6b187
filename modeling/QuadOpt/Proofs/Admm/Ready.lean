/-
# Sessions that are ready to solve

A session is ready if its system was factored with as many positive pivots as there
are variables. From a session that is ready a solve never runs out of valid factors,
and takes every step from one that is ready. A call leaves the session ready iff it
does not end with a factorisation that failed.

A factorisation that fails leaves its values in place, and nothing asks for another
one: a solve that comes after it is given up, or iterates with factors that have too
few positive pivots.

Key definitions: `Session.Ready`, `Session.iterateTraced`, `Session.steppedFrom`,
`Session.Intact`.
Key theorems: `Session.Prepared.ready_iff`, `Session.solve_of_ready`,
`Session.call_of_ready`, `Session.Intact.steps_ready`,
`Session.exists_unready_solve`.
-/
import QuadOpt.Proofs.Admm.Accuracy
import QuadOpt.Proofs.Admm.Filled

namespace QuadOpt

variable {α : Type} [Scalar α] {n m : Nat}

namespace Session

variable {S T U : Session α n m}

/-- The factors are valid and have a positive pivot for each variable. -/
def Ready (S : Session α n m) : Prop :=
  S.system.ldl.isFactored = true ∧ S.system.ldl.positive = n

omit [Scalar α] in
theorem Ready.congr (h : S.Ready) (hsame : S.SameCore T) : T.Ready := by
  unfold Ready
  rw [hsame.system]
  exact h

omit [Scalar α] in
theorem SameCore.symm (h : S.SameCore T) : T.SameCore S :=
  ⟨h.data.symm, h.settings.symm, h.system.symm, h.rho.symm⟩

/-- The errors of a factorisation. -/
theorem factorSystem_error {e : EngineError} (h : S.factorSystem.1 = .error e) :
    e.isRefusal = false ∧ e ≠ .unfactored := by
  rcases S.factorSystem_cases with ⟨_, hresult⟩ | ⟨_, _, _, hresult⟩ | ⟨_, _, hresult⟩
  · rw [hresult] at h
    cases h
  · rw [hresult] at h
    cases h
    exact ⟨rfl, nofun⟩
  · rw [hresult] at h
    cases h
    exact ⟨rfl, nofun⟩

/-- A factorisation succeeds iff it makes the session ready. -/
theorem Prepared.ready_iff (h : S.Prepared) :
    S.factorSystem.2.Ready ↔ S.factorSystem.1 = .ok () := by
  obtain ⟨-, hfactor⟩ := h.system.factor_eq S.settings.sigma
  rcases S.factorSystem_cases with ⟨hok, hresult⟩ | ⟨k, hok, hk, hresult⟩ | ⟨e, herror, hresult⟩
  · rw [hfactor] at hok
    rw [hresult]
    simp only [iff_true]
    rw [hfactor]
    exact Ldl.factor_of_eq_ok hok
  · rw [hfactor] at hok
    rw [hresult, hfactor]
    refine ⟨fun hready => absurd ?_ hk, fun he => by cases he⟩
    exact (Ldl.factor_of_eq_ok hok).2.symm.trans hready.2
  · rw [hfactor] at herror
    rw [hresult, hfactor]
    refine ⟨fun hready => ?_, fun he => by cases he⟩
    have hfactored : _ = true := hready.1
    rw [Ldl.factor_of_eq_error herror] at hfactored
    cases hfactored

theorem setup_ready {env : Environment α} {D : QpData α} {settings : Settings α}
    {S : AdmmSession α}
    (h : AdmmSession.setup env D settings = .ok S) : S.session.Ready := by
  obtain ⟨U, hprepared, hfactor⟩ := setup_factored h
  have hready := hprepared.ready_iff
  rw [hfactor] at hready
  exact hready.mpr rfl

/-! ### Along a solve -/

/-- The iterations of a solve, with the sessions that they take their steps from. -/
def iterateTraced (env : Environment α) (settings : Settings α) :
    (remaining iter : Nat) → (current : Bool) → Session α n m →
      (Except EngineError LoopEnd × Session α n m) × List (Session α n m)
  | 0, _, current, S => ((.ok ⟨none, .maxIterReached, current⟩, S), [])
  | remaining + 1, iter, _, S =>
    let S : Session α n m := { S with info := { S.info with iter := iter } }
    match S.step settings.alpha settings.sigma with
    | (.error e, T) => ((.error e, T), [S])
    | (.ok (), T) =>
      match T.inspect settings iter with
      | (.error e, T) => ((.error e, T), [S])
      | (.ok (some status, current), T) => ((.ok ⟨some status, .maxIterReached, current⟩, T), [S])
      | (.ok (none, current), T) =>
        if settings.timeLimit < env.elapsed iter then
          ((.ok ⟨none, .timeLimitReached, current⟩, T), [S])
        else
          let r := iterateTraced env settings remaining (iter + 1) current T
          (r.1, S :: r.2)

theorem iterateTraced_fst (env : Environment α) (settings : Settings α) (remaining iter : Nat)
    (current : Bool) (S : Session α n m) :
    (iterateTraced env settings remaining iter current S).1
      = iterate env settings remaining iter current S := by
  induction remaining generalizing iter current S with
  | zero => rfl
  | succ remaining ih =>
    rw [iterateTraced, iterate]
    simp only
    cases ({ S with info := { S.info with iter := iter } } : Session α n m).step settings.alpha
      settings.sigma with
    | mk result T =>
      cases result with
      | error e => rfl
      | ok _ =>
        simp only
        cases T.inspect settings iter with
        | mk verdict U =>
          cases verdict with
          | error e => rfl
          | ok found =>
            obtain ⟨status, current⟩ := found
            cases status with
            | some status => rfl
            | none =>
              by_cases hlate : settings.timeLimit < env.elapsed iter
              · simp only [hlate, if_true]
              · simp only [hlate, if_false]
                exact ih _ _ _

/-- The sessions that the iterations of a solve take their steps from. -/
def steppedFrom (env : Environment α) (S : Session α n m) : List (Session α n m) :=
  (iterateTraced env S.settings S.settings.maxIter.toNat 1 false S.begin).2

/-- A property that is kept along a solve holds wherever it takes a step. -/
theorem mem_iterateTraced {p : Session α n m → Prop} {q : EngineError → Session α n m → Prop}
    (hcore : ∀ {S T}, S.SameCore T → p S → p T)
    (hadopt : ∀ {S}, p S →
      (∀ {T}, (S.adopt S.estimateRho).factorSystem = (.ok (), T) → p T) ∧
        ∀ {e T}, (S.adopt S.estimateRho).factorSystem = (.error e, T) → q e T)
    (env : Environment α) (settings : Settings α) (remaining iter : Nat) (current : Bool)
    (h : p S) : ∀ U ∈ (iterateTraced env settings remaining iter current S).2, p U := by
  induction remaining generalizing iter current S with
  | zero => exact fun U hU => by cases hU
  | succ remaining ih =>
    have hnumbered : S.SameCore { S with info := { S.info with iter := iter } } :=
      ⟨rfl, rfl, rfl, rfl⟩
    have hhere := hcore hnumbered h
    rw [iterateTraced]
    intro U hU
    rcases step_cases ({ S with info := { S.info with iter := iter } } : Session α n m)
      settings.alpha settings.sigma with ⟨-, vars, hstep⟩ | ⟨-, vars, hstep⟩
    · simp only [hstep] at hU
      have hstepped : S.SameCore
          { S with info := { S.info with iter := iter }, vars := vars } := ⟨rfl, rfl, rfl, rfl⟩
      have hinspect := (inspect_induction hcore hadopt settings iter (hcore hstepped h)).1
      split at hU
      · rw [List.mem_singleton.mp hU]
        exact hhere
      · rw [List.mem_singleton.mp hU]
        exact hhere
      · rename_i current T hT
        split at hU
        · rw [List.mem_singleton.mp hU]
          exact hhere
        · rcases List.mem_cons.mp hU with rfl | hU
          · exact hhere
          · exact ih _ _ (hinspect _ T hT) U hU
    · simp only [hstep] at hU
      rw [List.mem_singleton.mp hU]
      exact hhere

/-- The session is ready and its linear system is that of its data, which are those of
`S`. -/
structure ReadyLike (S T : Session α n m) : Prop where
  ready : T.Ready
  filled : T.Filled
  data : T.data = S.data
  settings : T.settings = S.settings

theorem ReadyLike.congr (h : S.ReadyLike T) (hsame : T.SameCore U) : S.ReadyLike U :=
  ⟨h.ready.congr hsame, h.filled.congr hsame, hsame.data.trans h.data,
    hsame.settings.trans h.settings⟩

/-- An adopted step size leaves the session ready if it can be factored with. -/
theorem ReadyLike.adopt (h : S.ReadyLike T) :
    (∀ {U}, (T.adopt T.estimateRho).factorSystem = (.ok (), U) → S.ReadyLike U) ∧
      ∀ {e U}, (T.adopt T.estimateRho).factorSystem = (.error e, U) →
        ¬U.Ready ∧ e.isRefusal = false ∧ e ≠ .unfactored := by
  have hprepared := h.filled.adopt T.estimateRho
  have hready := hprepared.ready_iff
  have hfilled := hprepared.factorSystem
  have hdata := (factorSystem_sameCore (T.adopt T.estimateRho)).data
  have hsettings := (factorSystem_sameCore (T.adopt T.estimateRho)).settings
  refine ⟨fun {U} hU => ?_, fun {e U} hU => ?_⟩
  · rw [hU] at hready hfilled hdata hsettings
    exact ⟨hready.mpr rfl, hfilled, hdata.trans h.data, hsettings.trans h.settings⟩
  · have hresult := congrArg Prod.fst hU
    rw [hU] at hready
    exact ⟨fun hU' => (by cases hready.mp hU'), factorSystem_error hresult⟩

/-! ### Solves and calls -/

/-- From a session that is ready, a solve has valid factors with the right number of
positive pivots wherever it takes a step, and ends ready unless it fails to factor the
system for a new step size. -/
theorem solve_of_ready (env : Environment α) (hfilled : S.Filled) (hready : S.Ready) :
    (∀ U ∈ S.steppedFrom env, S.ReadyLike U) ∧
      ((S.solve env).1 = .ok () → (S.solve env).2.Ready) ∧
      ∀ e, (S.solve env).1 = .error e →
        ¬(S.solve env).2.Ready ∧ e.isRefusal = false ∧ e ≠ .unfactored := by
  have hstart : S.ReadyLike S := ⟨hready, hfilled, rfl, rfl⟩
  obtain ⟨hok, herror⟩ := solve_induction (p := S.ReadyLike)
    (q := fun e U => ¬U.Ready ∧ e.isRefusal = false ∧ e ≠ .unfactored)
    (fun hsame hU => hU.congr hsame)
    (fun hU hldl _ => by
      have hfactored := hU.ready.1
      rw [hldl] at hfactored
      cases hfactored)
    (fun hU => hU.adopt) env hstart
  refine ⟨?_, fun hsolve => (hok _ (Prod.ext hsolve rfl)).ready,
    fun e hsolve => herror e _ (Prod.ext hsolve rfl)⟩
  exact mem_iterateTraced (q := fun e U => ¬U.Ready ∧ e.isRefusal = false ∧ e ≠ .unfactored)
    (fun hsame hU => hU.congr hsame) (fun hU => hU.adopt) env S.settings _ _ _
    (hstart.congr (begin_sameCore S))

/-- A call that is accepted keeps a session ready; one that fails has refused its
input, or has failed to factor the system and leaves the session not ready. -/
theorem Outcome.ready {r : Except EngineError Unit × Session α n m} (hr : Outcome S r) :
    (S.Ready → r.1 = .ok () → r.2.Ready) ∧ ∀ e, r.1 = .error e →
      if e.isRefusal then r.2 = S else ¬r.2.Ready := by
  cases hr with
  | refused he =>
    refine ⟨fun _ hok => (by cases hok), fun e' he' => ?_⟩
    cases he'
    rw [if_pos he]
  | kept hkeeps =>
    refine ⟨fun hready _ => ?_, fun e he => by cases he⟩
    unfold Ready
    rw [hkeeps.system]
    exact hready
  | @factored U T hprepared hsame =>
    have hiff := hprepared.ready_iff
    refine ⟨fun _ hok => (hiff.mpr hok).congr hsame, fun e he => ?_⟩
    have hnot : ¬T.Ready := fun hT => by
      have hok := hiff.mp (hT.congr hsame.symm)
      simp only at he
      rw [hok] at he
      cases he
    rw [(factorSystem_error he).1]
    exact hnot

/-- As long as no factorisation fails, sessions stay ready: solves always find valid
factors with the right number of positive pivots, and the calls between them are
accepted or refuse their input. -/
theorem call_of_ready (hbeq : ∀ {a b : α}, 0 < a → (a == b) = true → a = b)
    (env : Environment α) (hreachable : S.Reachable) (hready : S.Ready) (c : SessionCall α) :
    (c = .solve → (∀ U ∈ S.steppedFrom env, S.ReadyLike U) ∧
      (S.call env c).1 ≠ .error .unfactored) ∧
    ((S.call env c).2.Ready ↔ ∀ e, (S.call env c).1 = .error e → e.isRefusal = true) := by
  have hfilled := hreachable.filled hbeq
  have hcall : ((S.call env c).1 = .ok () → (S.call env c).2.Ready) ∧
      ∀ e, (S.call env c).1 = .error e →
        if e.isRefusal then (S.call env c).2 = S else ¬(S.call env c).2.Ready := by
    by_cases hc : c = .solve
    · subst hc
      obtain ⟨-, hok, herror⟩ := solve_of_ready env hfilled hready
      refine ⟨hok, fun e he => ?_⟩
      rw [(herror e he).2.1]
      exact (herror e he).1
    · obtain ⟨hok, herror⟩ := (call_outcome hbeq env hfilled hc).ready
      exact ⟨hok hready, herror⟩
  refine ⟨fun hc => ?_, fun hT e he => ?_, fun hrefused => ?_⟩
  · subst hc
    obtain ⟨hsteps, -, herror⟩ := solve_of_ready env hfilled hready
    exact ⟨hsteps, fun he => (herror _ he).2.2 rfl⟩
  · have hfailed := hcall.2 e he
    cases hrefusal : e.isRefusal with
    | true => rfl
    | false =>
      rw [hrefusal] at hfailed
      exact absurd hT hfailed
  · cases hresult : (S.call env c).1 with
    | ok u => exact hcall.1 hresult
    | error e =>
      have hfailed := hcall.2 e hresult
      rw [hrefused e hresult] at hfailed
      rw [if_pos rfl] at hfailed
      rwa [hfailed]

/-- The sessions that calls lead to of which none has failed but by refusing its input. -/
inductive Intact : {n m : Nat} → Session α n m → Prop where
  | setup {env : Environment α} {D : QpData α} {settings : Settings α} {S : AdmmSession α} :
      AdmmSession.setup env D settings = .ok S → Intact S.session
  | call {n m : Nat} {S : Session α n m} (env : Environment α) (c : SessionCall α) :
      Intact S → (∀ e, (S.call env c).1 = .error e → e.isRefusal = true) →
      Intact (S.call env c).2

theorem Intact.reachable (h : S.Intact) : S.Reachable := by
  induction h with
  | setup hsetup => exact .setup hsetup
  | call env c _ _ ih => exact .call env c ih

theorem Intact.ready (hbeq : ∀ {a b : α}, 0 < a → (a == b) = true → a = b) (h : S.Intact) :
    S.Ready := by
  induction h with
  | setup hsetup => exact setup_ready hsetup
  | call env c hS hrefused ih =>
    exact (call_of_ready hbeq env hS.reachable ih c).2.mpr hrefused

/-- As long as no factorisation has failed, a solve finds valid factors with a positive
pivot for each variable wherever it takes a step, and these are the factors of the
system for the current data, regularisation and step sizes. -/
theorem Intact.steps_ready (hbeq : ∀ {a b : α}, 0 < a → (a == b) = true → a = b)
    (env : Environment α) (h : S.Intact) :
    (∀ U ∈ S.steppedFrom env, S.ReadyLike U) ∧ (S.call env .solve).1 ≠ .error .unfactored :=
  (call_of_ready hbeq env h.reachable (h.ready hbeq) .solve).1 rfl

/-- After an update that refuses its input. -/
theorem Intact.steps_ready_unitProblem : ∃ (S : AdmmSession ℚ) (T : Session ℚ S.n S.m),
    AdmmSession.setup (.still ℚ) unitProblem plainSettings = .ok S ∧
    S.session.call (.still ℚ) (.updateMatrices (some #[1, 2]) none none none)
      = (.error (.dataUpdate (.valueCount 2 1)), T) ∧
    T.steppedFrom (.still ℚ) ≠ [] ∧ (∀ U ∈ T.steppedFrom (.still ℚ), T.ReadyLike U) ∧
      (T.call (.still ℚ) .solve).1 ≠ .error .unfactored := by
  have hrun : (match AdmmSession.setup (.still ℚ) unitProblem plainSettings with
      | .error _ => false
      | .ok S =>
        let r := S.session.call (.still ℚ) (.updateMatrices (some #[1, 2]) none none none)
        decide (r.1 = .error (.dataUpdate (.valueCount 2 1))) &&
          !(r.2.steppedFrom (.still ℚ)).isEmpty) = true := by
    decide +kernel
  split at hrun
  · cases hrun
  · rename_i S hsetup
    simp only [Bool.and_eq_true, decide_eq_true_eq, Bool.not_eq_true', List.isEmpty_eq_false_iff]
      at hrun
    obtain ⟨hrefused, hsteps⟩ := hrun
    have hintact : (S.session.call (.still ℚ)
        (.updateMatrices (some #[1, 2]) none none none)).2.Intact := by
      refine .call _ _ (.setup hsetup) fun e he => ?_
      rw [hrefused] at he
      cases he
      rfl
    exact ⟨S, _, hsetup, Prod.ext hrefused rfl, hsteps,
      Intact.steps_ready (fun _ heq => eq_of_beq heq) (.still ℚ) hintact⟩

/-! ### A failed update -/

/-- An update of the matrices that fails is kept all the same. If it makes a pivot zero,
the next solve finds no valid factors; if it leaves too few positive pivots, the next
solve iterates with its factors. -/
theorem exists_unready_solve : ∃ (S : AdmmSession ℚ) (T U : Session ℚ S.n S.m),
    AdmmSession.setup (.still ℚ) unitProblem plainSettings = .ok S ∧
    S.session.call (.still ℚ) (.updateMatrices (some #[-1e-6]) none none none)
      = (.error (.linearSystem (.zeroPivot 0)), T) ∧
    (T.call (.still ℚ) .solve).1 = .error .unfactored ∧
    S.session.call (.still ℚ) (.updateMatrices (some #[-2]) none none none)
      = (.error .nonConvex, U) ∧
    ∃ V ∈ U.steppedFrom (.still ℚ), V.system.ldl.isFactored = true ∧
      V.system.ldl.positive ≠ S.n := by
  have hrun : (match AdmmSession.setup (.still ℚ) unitProblem plainSettings with
      | .error _ => false
      | .ok S =>
        let singular := S.session.call (.still ℚ) (.updateMatrices (some #[-1e-6]) none none none)
        let indefinite := S.session.call (.still ℚ) (.updateMatrices (some #[-2]) none none none)
        decide (singular.1 = .error (.linearSystem (.zeroPivot 0))) &&
          decide ((singular.2.call (.still ℚ) .solve).1 = .error .unfactored) &&
          decide (indefinite.1 = .error .nonConvex) &&
          (indefinite.2.steppedFrom (.still ℚ)).any fun V =>
            V.system.ldl.isFactored && decide (V.system.ldl.positive ≠ S.n)) = true := by
    decide +kernel
  split at hrun
  · cases hrun
  · rename_i S hsetup
    simp only [Bool.and_eq_true, decide_eq_true_eq, List.any_eq_true] at hrun
    obtain ⟨⟨⟨hsingular, hunfactored⟩, hindefinite⟩, hsteps⟩ := hrun
    exact ⟨S, _, _, hsetup, Prod.ext hsingular rfl, hunfactored, Prod.ext hindefinite rfl,
      hsteps⟩

end Session
end QuadOpt
