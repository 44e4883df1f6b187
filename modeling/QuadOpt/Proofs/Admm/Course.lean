/-
# The course of a solve

What each part of a solve does to the data, the settings, the step size and the
linear system, whatever the arithmetic. Only the adoption of an estimated step
size touches them, and it factors the system; everything else moves the iterate
and writes down results.

Key definitions: `Session.SameCore`, `Session.adopt`, `Session.conclude`.
Key theorems: `Session.factorSystem_cases`, `Session.retune_cases`,
`Session.step_cases`, `Session.inspect_cases`, `Session.iterate_induction`,
`Session.solve_induction`, `Session.solve_preserves`.
-/
import QuadOpt.Admm.Engine

namespace QuadOpt.Session

variable {α : Type} [Scalar α] {n m : Nat}

/-- `T` differs from `S` in the iterate and in what is recorded of solves only. -/
structure SameCore (S T : Session α n m) : Prop where
  data : T.data = S.data
  settings : T.settings = S.settings
  system : T.system = S.system
  rho : T.rho = S.rho

variable {S T U : Session α n m}

omit [Scalar α] in
theorem SameCore.refl (S : Session α n m) : S.SameCore S := ⟨rfl, rfl, rfl, rfl⟩

omit [Scalar α] in
theorem SameCore.trans (h : S.SameCore T) (h' : T.SameCore U) : S.SameCore U :=
  ⟨h'.data.trans h.data, h'.settings.trans h.settings, h'.system.trans h.system,
    h'.rho.trans h.rho⟩

/-! ### Factorisations -/

/-- The three outcomes of a factorisation, which stays in place with its values. -/
theorem factorSystem_cases (S : Session α n m) :
    let F := S.system.factor S.data.work.P S.data.work.A S.settings.sigma
    (F.2 = .ok n ∧ S.factorSystem = (.ok (), { S with system := F.1 })) ∨
    (∃ k, F.2 = .ok k ∧ k ≠ n ∧ S.factorSystem = (.error .nonConvex,
      { S with system := F.1, info := { S.info with status := .nonConvex } })) ∨
    (∃ e, F.2 = .error e ∧
      S.factorSystem = (.error (.linearSystem e), { S with system := F.1 })) := by
  intro F
  unfold factorSystem
  cases hF : F.2 with
  | error e => exact .inr (.inr ⟨e, rfl, by simp [F, hF]⟩)
  | ok k =>
    by_cases hk : k = n
    · subst hk
      exact .inl ⟨rfl, by simp [F, hF]⟩
    · exact .inr (.inl ⟨k, rfl, hk, by simp [F, hF, hk]⟩)

/-- A factorisation changes the linear system and the status only. -/
theorem factorSystem_sameCore (S : Session α n m) :
    ({ S with system := (S.system.factor S.data.work.P S.data.work.A S.settings.sigma).1 } :
      Session α n m).SameCore S.factorSystem.2 := by
  rcases S.factorSystem_cases with ⟨-, h⟩ | ⟨_, -, -, h⟩ | ⟨_, -, h⟩
  all_goals
    rw [h]
    exact ⟨rfl, rfl, rfl, rfl⟩

theorem factorSystem_vars (S : Session α n m) :
    S.factorSystem.2.vars = S.vars ∧ S.factorSystem.2.res = S.res := by
  unfold factorSystem
  simp only
  split
  · exact ⟨rfl, rfl⟩
  · split <;> exact ⟨rfl, rfl⟩

/-- The session with the step size `t`, before its system is factored for it. -/
def adopt (S : Session α n m) (t : α) : Session α n m :=
  { S with rho := t, system := S.system.withRho t, info := { S.info with rhoEstimate := t } }

theorem retune_cases (S : Session α n m) (tolerance : α) :
    (∃ U, S.retune tolerance = (.ok (), U) ∧ S.SameCore U) ∨
    (∃ U V, (S.adopt S.estimateRho).factorSystem = (.ok (), U) ∧
      S.retune tolerance = (.ok (), V) ∧ U.SameCore V) ∨
    (∃ e U, (S.adopt S.estimateRho).factorSystem = (.error e, U) ∧
      S.retune tolerance = (.error e, U)) := by
  unfold retune
  simp only
  split
  · split
    · rename_i U hU
      exact .inr (.inl ⟨U, _, hU, rfl, rfl, rfl, rfl, rfl⟩)
    · rename_i e U hU
      exact .inr (.inr ⟨e, U, hU, rfl⟩)
  · exact .inl ⟨_, rfl, rfl, rfl, rfl, rfl⟩

/-! ### Iterations -/

/-- An iteration fails iff there are no valid factors. -/
theorem step_cases (S : Session α n m) (alpha sigma : α) :
    (S.system.ldl.isFactored = true ∧ ∃ vars, S.step alpha sigma = (.ok (), { S with vars := vars })) ∨
    (S.system.ldl.isFactored = false ∧
      ∃ vars, S.step alpha sigma = (.error .unfactored, { S with vars := vars })) := by
  unfold step LinearSystem.solve? Ldl.solve?
  cases S.system.ldl.isFactored with
  | true => exact .inl ⟨rfl, _, rfl⟩
  | false => exact .inr ⟨rfl, _, rfl⟩

theorem measure_sameCore (S : Session α n m) : S.SameCore S.measure := ⟨rfl, rfl, rfl, rfl⟩

/-- The four outcomes of a test, with what was tested before. -/
theorem verdict_cases (S : Session α n m) (settings : Settings α) (approximate : Bool) :
    let factor : α := if approximate then Limits.approximateFactor else 1
    let optimal := S.isOptimal (settings.epsAbs * factor) (settings.epsRel * factor)
    (optimal = true ∧ S.verdict settings approximate
      = (some (if approximate then .solvedInaccurate else .solved), S)) ∨
    (optimal = false ∧ ∃ v, S.primalCertificate? (settings.epsPrimInf * factor) = some v ∧
      S.verdict settings approximate
        = (some (if approximate then .primalInfeasibleInaccurate else .primalInfeasible),
          { S with solution := { S.solution with primInfCert := v.toArray } })) ∨
    (optimal = false ∧ ∃ v, S.dualCertificate? (settings.epsDualInf * factor) = some v ∧
      S.verdict settings approximate
        = (some (if approximate then .dualInfeasibleInaccurate else .dualInfeasible),
          { S with solution := { S.solution with dualInfCert := v.toArray } })) ∨
    (optimal = false ∧ S.verdict settings approximate = (none, S)) := by
  intro factor optimal
  unfold verdict
  by_cases hopt : optimal = true
  · exact .inl ⟨hopt, if_pos hopt⟩
  · rw [if_neg hopt]
    have hopt : optimal = false := by simpa using hopt
    refine .inr ?_
    cases hprim : S.primalCertificate? (settings.epsPrimInf * factor) with
    | some v => exact .inl ⟨hopt, v, rfl, rfl⟩
    | none =>
      refine .inr ?_
      cases hdual : S.dualCertificate? (settings.epsDualInf * factor) with
      | some v => exact .inl ⟨hopt, v, rfl, rfl⟩
      | none => exact .inr ⟨hopt, rfl⟩

/-- A verdict records a certificate at most. -/
theorem verdict_keeps (S : Session α n m) (settings : Settings α) (approximate : Bool) :
    ∃ solution, (S.verdict settings approximate).2 = { S with solution := solution } := by
  obtain ⟨_, h⟩ | ⟨_, v, _, h⟩ | ⟨_, v, _, h⟩ | ⟨_, h⟩ := verdict_cases S settings approximate
  · exact ⟨S.solution, by rw [h]⟩
  · exact ⟨_, by rw [h]⟩
  · exact ⟨_, by rw [h]⟩
  · exact ⟨S.solution, by rw [h]⟩

theorem verdict_sameCore (S : Session α n m) (settings : Settings α) (approximate : Bool) :
    S.SameCore (S.verdict settings approximate).2 := by
  obtain ⟨solution, hsolution⟩ := verdict_keeps S settings approximate
  rw [hsolution]
  exact ⟨rfl, rfl, rfl, rfl⟩

/-- The rest of an iteration changes the core in an adoption only. -/
theorem inspect_cases (settings : Settings α) (iter : Nat) (S : Session α n m) :
    (∃ p U, S.inspect settings iter = (.ok p, U) ∧ S.SameCore U) ∨
    (∃ U, S.SameCore U ∧ ((∃ p V, U.retune settings.adaptiveRhoTolerance = (.ok (), V) ∧
        S.inspect settings iter = (.ok p, V)) ∨
      ∃ e V, U.retune settings.adaptiveRhoTolerance = (.error e, V) ∧
        S.inspect settings iter = (.error e, V))) := by
  have htested : S.SameCore (S.measure.verdict settings false).2 :=
    (measure_sameCore S).trans (verdict_sameCore _ settings false)
  unfold inspect
  cases isDue iter settings.checkTermination with
  | true =>
    simp only [if_true]
    split
    · exact .inl ⟨_, _, rfl, htested⟩
    · split
      · refine .inr ⟨_, htested, ?_⟩
        split
        · rename_i V hV
          exact .inl ⟨_, V, hV, rfl⟩
        · rename_i e V hV
          exact .inr ⟨e, V, hV, rfl⟩
      · exact .inl ⟨_, _, rfl, htested⟩
  | false =>
    simp only [Bool.false_eq_true, if_false, Option.isSome_none]
    split
    · refine .inr ⟨_, measure_sameCore S, ?_⟩
      split
      · rename_i V hV
        exact .inl ⟨_, V, hV, rfl⟩
      · rename_i e V hV
        exact .inr ⟨e, V, hV, rfl⟩
    · exact .inl ⟨_, _, rfl, .refl S⟩

theorem begin_sameCore (S : Session α n m) : S.SameCore S.begin := ⟨rfl, rfl, rfl, rfl⟩

theorem finish_sameCore (settings : Settings α) (r : LoopEnd) (S : Session α n m) :
    S.SameCore (S.finish settings r).2 := by
  unfold finish
  split
  · exact .refl S
  · cases r.current with
    | true => exact verdict_sameCore S settings true
    | false => exact (measure_sameCore S).trans (verdict_sameCore _ settings true)

theorem polish_sameCore (env : Environment α) (S : Session α n m) : S.SameCore (S.polish env) := by
  unfold polish
  split
  · exact ⟨rfl, rfl, rfl, rfl⟩
  · simp only
    split <;> exact ⟨rfl, rfl, rfl, rfl⟩

/-- Polishing stays with the status and the number of iterations. -/
theorem polish_iter (env : Environment α) (S : Session α n m) :
    (S.polish env).info.iter = S.info.iter ∧ (S.polish env).info.status = S.info.status := by
  unfold polish
  split
  · exact ⟨rfl, rfl⟩
  · simp only
    split <;> exact ⟨rfl, rfl⟩

theorem publish_sameCore (S : Session α n m) : S.SameCore S.publish := by
  unfold publish
  simp only
  split <;> exact ⟨rfl, rfl, rfl, rfl⟩

theorem publish_keeps (S : Session α n m) :
    S.publish.vars = S.vars ∧ S.publish.res = S.res ∧ S.publish.data = S.data ∧
      S.publish.info.status = S.info.status := by
  unfold publish
  simp only
  split
  · simp
  · simp

theorem publish_record (S : Session α n m) :
    S.publish.info.iter = S.info.iter ∧ S.publish.info.polish = S.info.polish := by
  unfold publish
  simp only
  split <;> exact ⟨rfl, rfl⟩

/-- The solution of a session is its iterate, unless there is none. -/
theorem publish_solution (h : S.info.status.isInfeasible = false) :
    S.publish.solution.x = S.userPoint.1.toArray ∧
      S.publish.solution.y = S.userPoint.2.toArray := by
  unfold publish
  simp [h]

/-- The session of a solve whose iterations ended with `r`, before the solution
is polished and published. -/
def conclude (env : Environment α) (settings : Settings α) (r : LoopEnd) (S : Session α n m) :
    Session α n m :=
  { (S.finish settings r).2 with info :=
    { (S.finish settings r).2.info with
      status := (S.finish settings r).1
      solveTime := env.elapsed (S.finish settings r).2.info.iter } }

theorem solve_eq (env : Environment α) (S : Session α n m) :
    S.solve env = match iterate env S.settings S.settings.maxIter.toNat 1 false S.begin with
      | (.error e, T) => (.error e, T)
      | (.ok r, T) =>
        let U := T.conclude env S.settings r
        (.ok (), (if S.settings.polishing && U.info.status == .solved then U.polish env
          else U).publish) := rfl

/-- What a solve publishes is the end of its iterations, polished if that is wanted of a
solution; the status is not touched any more. -/
theorem solve_eq_ok {env : Environment α} (hsolve : S.solve env = (.ok (), T)) :
    ∃ r V, iterate env S.settings S.settings.maxIter.toNat 1 false S.begin = (.ok r, V) ∧
      let U := V.conclude env S.settings r
      T.info.status = U.info.status ∧
        T = (if S.settings.polishing && U.info.status == .solved then U.polish env
          else U).publish := by
  rw [solve_eq] at hsolve
  split at hsolve
  · cases hsolve
  · rename_i r V hV
    refine ⟨r, V, hV, ?_⟩
    intro U
    have hT : T = (if S.settings.polishing && U.info.status == .solved then U.polish env
        else U).publish := (Prod.mk.inj hsolve).2.symm
    refine ⟨?_, hT⟩
    rw [hT, (publish_keeps _).2.2.2]
    split
    · exact (U.polish_iter env).2
    · rfl

theorem conclude_sameCore (env : Environment α) (settings : Settings α) (r : LoopEnd)
    (S : Session α n m) : S.SameCore (S.conclude env settings r) := by
  have hfinish := finish_sameCore settings r S
  exact ⟨hfinish.data, hfinish.settings, hfinish.system, hfinish.rho⟩

/-- A solve ends as its iterations do, and changes no more than they have. -/
theorem solve_cases (env : Environment α) (S : Session α n m) :
    (∃ e T, iterate env S.settings S.settings.maxIter.toNat 1 false S.begin = (.error e, T) ∧
      S.solve env = (.error e, T)) ∨
    (∃ r T U, iterate env S.settings S.settings.maxIter.toNat 1 false S.begin = (.ok r, T) ∧
      S.solve env = (.ok (), U) ∧ T.SameCore U) := by
  rw [solve_eq]
  split
  · rename_i e T hT
    exact .inl ⟨e, T, hT, rfl⟩
  · rename_i r T hT
    refine .inr ⟨r, T, _, hT, rfl, SameCore.trans ?_ (publish_sameCore _)⟩
    have hconclude := conclude_sameCore env S.settings r T
    split
    · exact hconclude.trans (polish_sameCore env _)
    · exact hconclude

/-! ### Induction along a solve -/

section Induction

/- A property `p` of the core that an adoption preserves where it succeeds, and what
`q` says of the failures. -/
variable {p : Session α n m → Prop} {q : EngineError → Session α n m → Prop}
  (hcore : ∀ {S T}, S.SameCore T → p S → p T)
  (hunfactored : ∀ {S T}, p S → S.system.ldl.isFactored = false → S.SameCore T → q .unfactored T)
  (hadopt : ∀ {S}, p S →
    (∀ {T}, (S.adopt S.estimateRho).factorSystem = (.ok (), T) → p T) ∧
      ∀ {e T}, (S.adopt S.estimateRho).factorSystem = (.error e, T) → q e T)

include hcore hadopt

theorem inspect_induction (settings : Settings α) (iter : Nat) (h : p S) :
    (∀ r T, S.inspect settings iter = (.ok r, T) → p T) ∧
      ∀ e T, S.inspect settings iter = (.error e, T) → q e T := by
  rcases inspect_cases settings iter S with ⟨r, U, hU, hsame⟩ | ⟨U, hsame, hretuned⟩
  · rw [hU]
    refine ⟨fun r T hT => ?_, fun e T hT => (by cases hT)⟩
    cases hT
    exact hcore hsame h
  · have hretune := retune_cases U settings.adaptiveRhoTolerance
    obtain ⟨hok, herror⟩ := hadopt (hcore hsame h)
    rcases hretuned with ⟨r, V, hV, hinspect⟩ | ⟨e, V, hV, hinspect⟩
    · rw [hinspect]
      refine ⟨fun r T hT => ?_, fun e T hT => (by cases hT)⟩
      cases hT
      rw [hV] at hretune
      rcases hretune with ⟨W, hW, hkept⟩ | ⟨W, W', hfactor, hW, hkept⟩ | ⟨e, W, _, hW⟩
      · cases hW
        exact hcore hkept (hcore hsame h)
      · cases hW
        exact hcore hkept (hok hfactor)
      · cases hW
    · rw [hinspect]
      refine ⟨fun r T hT => (by cases hT), fun e T hT => ?_⟩
      cases hT
      rw [hV] at hretune
      rcases hretune with ⟨W, hW, _⟩ | ⟨W, W', _, hW, _⟩ | ⟨e, W, hfactor, hW⟩
      · cases hW
      · cases hW
      · cases hW
        exact herror hfactor

include hunfactored

theorem iterate_induction (env : Environment α) (settings : Settings α) (remaining iter : Nat)
    (current : Bool) (h : p S) :
    (∀ r T, iterate env settings remaining iter current S = (.ok r, T) → p T) ∧
      ∀ e T, iterate env settings remaining iter current S = (.error e, T) → q e T := by
  induction remaining generalizing iter current S with
  | zero =>
    rw [iterate]
    refine ⟨fun r T hT => ?_, fun e T hT => (by cases hT)⟩
    cases hT
    exact h
  | succ remaining ih =>
    rw [iterate]
    rcases step_cases ({ S with info := { S.info with iter := iter } } : Session α n m)
      settings.alpha settings.sigma with ⟨_, vars, hstep⟩ | ⟨hldl, vars, hstep⟩
    · rw [hstep]
      have hstepped : S.SameCore
          { S with info := { S.info with iter := iter }, vars := vars } := ⟨rfl, rfl, rfl, rfl⟩
      obtain ⟨hok, herror⟩ := inspect_induction hcore hadopt settings iter (hcore hstepped h)
      simp only
      split
      · rename_i e U hU
        refine ⟨fun r T hT => (by cases hT), fun e T hT => ?_⟩
        cases hT
        exact herror e U hU
      · rename_i status current U hU
        refine ⟨fun r T hT => ?_, fun e T hT => (by cases hT)⟩
        cases hT
        exact hok _ U hU
      · rename_i current U hU
        split
        · refine ⟨fun r T hT => ?_, fun e T hT => (by cases hT)⟩
          cases hT
          exact hok _ U hU
        · exact ih _ _ (hok _ U hU)
    · rw [hstep]
      refine ⟨fun r T hT => (by cases hT), fun e T hT => ?_⟩
      cases hT
      exact hunfactored h hldl ⟨rfl, rfl, rfl, rfl⟩

/-- What holds at the end of a solve, and what when it fails. -/
theorem solve_induction (env : Environment α) (h : p S) :
    (∀ T, S.solve env = (.ok (), T) → p T) ∧
      ∀ e T, S.solve env = (.error e, T) → q e T := by
  obtain ⟨hok, herror⟩ := iterate_induction hcore hunfactored hadopt env S.settings
    S.settings.maxIter.toNat 1 false (hcore (begin_sameCore S) h)
  rcases solve_cases env S with ⟨e, T, hiterate, hsolve⟩ | ⟨r, T, U, hiterate, hsolve, hsame⟩
  · rw [hsolve]
    refine ⟨fun T hT => (by cases hT), fun e T hT => ?_⟩
    cases hT
    exact herror e _ hiterate
  · rw [hsolve]
    refine ⟨fun T hT => ?_, fun e T hT => (by cases hT)⟩
    cases hT
    exact hcore hsame (hok r _ hiterate)

end Induction

/-- What every factorisation for an adopted step size keeps, whether it succeeds or not, a
solve keeps. -/
theorem solve_preserves {p : Session α n m → Prop} (hcore : ∀ {S T}, S.SameCore T → p S → p T)
    (hadopt : ∀ {S}, p S → p (S.adopt S.estimateRho).factorSystem.2) (env : Environment α)
    (h : p S) : p (S.solve env).2 := by
  obtain ⟨hok, herror⟩ := solve_induction (p := p) (q := fun _ T => p T) hcore
    (fun hS _ hsame => hcore hsame hS)
    (fun {S} hS => ⟨fun {T} hT => by simpa only [hT] using hadopt hS,
      fun {e T} hT => by simpa only [hT] using hadopt hS⟩) env h
  cases hsolve : S.solve env with
  | mk r T =>
    cases r with
    | ok u => exact hok T hsolve
    | error e => exact herror e T hsolve

end QuadOpt.Session
