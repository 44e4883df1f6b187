/-
# Sessions that are solved alike

What a solve reads of a session is the data, the settings, the linear system, the step
size and the point that its first iteration starts from. Two sessions that agree on these
are solved alike, whatever else earlier solves have left in them: the iterate before the
first, certificates, residuals and the record of the last solve are overwritten before they
are read. This holds in any arithmetic, whether the step size adapts or not, and for solves
that fail as well.

Key definitions: `Session.point`, `Session.Abreast`, `Session.Alike`, `Session.Ends`,
`Session.SolvedAlike`.
Key theorems: `Session.Alike.inspect`, `Session.Alike.iterateTraced`,
`Session.solvedAlike_of_point`.
-/
import QuadOpt.Proofs.Admm.Ready

namespace QuadOpt.Session

variable {α : Type} [Scalar α] {n m : Nat}

/-- The part of the iterate that the next iteration starts from. -/
def point (S : Session α n m) : Vec α n × Vec α m × Vec α m := (S.vars.x, S.vars.z, S.vars.y)

/-- `T` has the data, the linear system and the step sizes of `S`, and has come as far with
its solve. -/
structure Abreast (S T : Session α n m) : Prop extends S.SameCore T where
  iter : T.info.iter = S.info.iter
  status : T.info.status = S.info.status
  rhoUpdates : T.info.rhoUpdates = S.info.rhoUpdates
  polished : T.info.polish = S.info.polish

/-- `T` is abreast of `S` with the same iterate. The residuals are the same if they are
`current`; certificates and the rest of the record may differ. -/
structure Alike (current : Bool) (S T : Session α n m) : Prop extends S.Abreast T where
  vars : T.vars = S.vars
  res : current = true → T.res = S.res

/-- Two computations end in the same way: with the same result and in sessions that are
alike, or with the same error. -/
def Ends {β : Type} (current : β → Bool) (p q : Except EngineError β × Session α n m) : Prop :=
  (∃ b S T, p = (.ok b, S) ∧ q = (.ok b, T) ∧ Alike (current b) S T) ∨
    ∃ e S T, p = (.error e, S) ∧ q = (.error e, T) ∧ S.Abreast T

variable {S T : Session α n m} {settings : Settings α} {current : Bool}

omit [Scalar α] in
theorem Alike.point_eq (h : Alike current S T) : T.point = S.point := by
  unfold point
  rw [h.vars]

/-- A step reads the point of the iterate, and leaves nothing else of it. -/
theorem Abreast.step (h : S.Abreast T) (hpoint : T.point = S.point) (alpha sigma : α) :
    Ends (fun _ => false) (S.step alpha sigma) (T.step alpha sigma) := by
  simp only [point, Prod.mk.injEq] at hpoint
  obtain ⟨hx, hz, hy⟩ := hpoint
  have hsolve : T.system.solve? T.vars.x T.vars.z T.vars.y T.data.work.q sigma
      = S.system.solve? S.vars.x S.vars.z S.vars.y S.data.work.q sigma := by
    rw [h.system, h.data, hx, hz, hy]
  have hadvance : ∀ xt zt, T.advance alpha T.vars xt zt = S.advance alpha S.vars xt zt := by
    intro xt zt
    unfold advance
    simp only [h.system, h.data, hx, hz, hy]
  unfold Session.step
  simp only [hsolve, hadvance]
  cases S.system.solve? S.vars.x S.vars.z S.vars.y S.data.work.q sigma with
  | some p => exact .inl ⟨(), _, _, rfl, rfl, { h with vars := rfl, res := by simp }⟩
  | none => exact .inr ⟨_, _, _, rfl, rfl, { h with }⟩

theorem Abreast.factorSystem (h : S.Abreast T) : T.factorSystem.1 = S.factorSystem.1 ∧
    S.factorSystem.2.Abreast T.factorSystem.2 := by
  have hfactor : T.system.factor T.data.work.P T.data.work.A T.settings.sigma
      = S.system.factor S.data.work.P S.data.work.A S.settings.sigma := by
    rw [h.system, h.data, h.settings]
  unfold Session.factorSystem
  rw [hfactor]
  obtain ⟨system, result⟩ := S.system.factor S.data.work.P S.data.work.A S.settings.sigma
  cases result with
  | error e => exact ⟨rfl, { h with system := rfl }⟩
  | ok positive =>
    simp only
    split
    · exact ⟨rfl, { h with system := rfl }⟩
    · exact ⟨rfl, { h with system := rfl, status := rfl }⟩

namespace Alike

theorem measure (h : Alike current S T) : Alike true S.measure T.measure := by
  have hres : residuals T.data T.vars = residuals S.data S.vars := by rw [h.data, h.vars]
  exact { h with res := fun _ => hres }

omit [Scalar α] in
theorem withSolution (h : Alike current S T) (s t : Solution α) :
    Alike current { S with solution := s } { T with solution := t } :=
  { h with }

theorem factorSystem (h : Alike current S T) :
    Ends (fun _ => current) S.factorSystem T.factorSystem := by
  obtain ⟨hresult, habreast⟩ := h.toAbreast.factorSystem
  have hvars : T.factorSystem.2.vars = S.factorSystem.2.vars := by
    rw [(factorSystem_vars T).1, (factorSystem_vars S).1, h.vars]
  have hres : current = true → T.factorSystem.2.res = S.factorSystem.2.res := by
    rw [(factorSystem_vars T).2, (factorSystem_vars S).2]
    exact h.res
  cases hS : S.factorSystem.1 with
  | ok u => exact .inl ⟨u, _, _, Prod.ext hS rfl, Prod.ext (hresult.trans hS) rfl,
      { habreast with vars := hvars, res := hres }⟩
  | error e => exact .inr ⟨e, _, _, Prod.ext hS rfl, Prod.ext (hresult.trans hS) rfl, habreast⟩

/-- The same step size is estimated, and adopted or not. -/
theorem retune (h : Alike true S T) (tolerance : α) :
    Ends (fun _ => true) (S.retune tolerance) (T.retune tolerance) := by
  have hestimate : T.estimateRho = S.estimateRho := by
    unfold estimateRho
    rw [h.res rfl, h.rho]
  unfold Session.retune
  simp only [hestimate, h.rho]
  split
  · have hadopted : Alike true (S.adopt S.estimateRho) (T.adopt S.estimateRho) :=
      { h with rho := rfl, system := congrArg (·.withRho S.estimateRho) h.system }
    unfold adopt at hadopted
    rcases hadopted.factorSystem with ⟨u, U, V, hU, hV, halike⟩ | ⟨e, U, V, hU, hV, habreast⟩
    · rw [hU, hV]
      exact .inl ⟨(), _, _, rfl, rfl,
        { halike with rhoUpdates := congrArg (· + 1) halike.rhoUpdates }⟩
    · rw [hU, hV]
      exact .inr ⟨e, U, V, rfl, rfl, habreast⟩
  · exact .inl ⟨(), _, _, rfl, rfl, { h with rho := rfl }⟩

/-- A verdict reads nothing that is left over. -/
theorem verdict (h : Alike true S T) (settings : Settings α) (approximate : Bool) :
    (T.verdict settings approximate).1 = (S.verdict settings approximate).1 ∧
      Alike true (S.verdict settings approximate).2 (T.verdict settings approximate).2 := by
  have hoptimal : ∀ epsAbs epsRel, T.isOptimal epsAbs epsRel = S.isOptimal epsAbs epsRel := by
    intro epsAbs epsRel
    unfold isOptimal
    rw [h.res rfl]
  have hprimal : ∀ eps, T.primalCertificate? eps = S.primalCertificate? eps := by
    intro eps
    unfold primalCertificate? projectedChange
    rw [h.data, h.vars]
  have hdual : ∀ eps, T.dualCertificate? eps = S.dualCertificate? eps := by
    intro eps
    unfold dualCertificate? inRecession
    rw [h.data, h.vars]
  unfold Session.verdict
  simp only [hoptimal, hprimal, hdual]
  generalize S.isOptimal _ _ = optimal
  generalize S.primalCertificate? _ = primal
  generalize S.dualCertificate? _ = dual
  cases optimal with
  | true => exact ⟨rfl, h⟩
  | false =>
    cases primal with
    | some v => exact ⟨rfl, h.withSolution _ _⟩
    | none =>
      cases dual with
      | some v => exact ⟨rfl, h.withSolution _ _⟩
      | none => exact ⟨rfl, h⟩

/-- The rest of an iteration after the test. -/
theorem retuned (h : Alike true S T) (tolerance : α) :
    Ends (fun r => r.1.isSome || r.2)
      (match S.retune tolerance with
        | (.ok (), U) => (.ok ((none : Option SolverStatus), true), U)
        | (.error e, U) => (.error e, U))
      (match T.retune tolerance with
        | (.ok (), V) => (.ok (none, true), V)
        | (.error e, V) => (.error e, V)) := by
  rcases h.retune tolerance with ⟨u, U, V, hU, hV, halike⟩ | ⟨e, U, V, hU, hV, habreast⟩
  · rw [hU, hV]
    exact .inl ⟨_, U, V, rfl, rfl, halike⟩
  · rw [hU, hV]
    exact .inr ⟨e, U, V, rfl, rfl, habreast⟩

/-- The rest of an iteration reads nothing that is left over. -/
theorem inspect (h : Alike current S T) (settings : Settings α) (iter : Nat) :
    Ends (fun r => r.1.isSome || r.2) (S.inspect settings iter) (T.inspect settings iter) := by
  unfold Session.inspect
  cases isDue iter settings.checkTermination with
  | true =>
    simp only [if_true]
    obtain ⟨hfound, halike⟩ := h.measure.verdict settings false
    rw [hfound]
    split
    · exact .inl ⟨_, _, _, rfl, rfl, by simpa using halike⟩
    · split
      · exact halike.retuned _
      · exact .inl ⟨_, _, _, rfl, rfl, halike⟩
  | false =>
    simp only [Bool.false_eq_true, if_false, Option.isSome_none]
    split
    · exact h.measure.retuned _
    · exact .inl ⟨_, _, _, rfl, rfl, { h with res := by simp }⟩

end Alike

/-! ### Iterations -/

/-- What an iteration starts from: its number, the point, the step size and the system. -/
def standing (S : Session α n m) :
    Nat × (Vec α n × Vec α m × Vec α m) × α × LinearSystem α n m :=
  (S.info.iter, S.point, S.rho, S.system)

/-- Iterations that end in the same way, after the same steps. A status is found with current
residuals only. -/
def EndsTraced (p q : (Except EngineError LoopEnd × Session α n m) × List (Session α n m)) : Prop :=
  Ends (fun r => r.found.isSome || r.current) p.1 q.1 ∧ q.2.map standing = p.2.map standing

/-- An iteration reads the point of the iterate, and goes on alike if what comes after it
does. -/
theorem Abreast.iterateTraced_succ (h : S.Abreast T) (hpoint : T.point = S.point)
    {env : Environment α} {remaining iter : Nat} {c : Bool}
    (hnext : ∀ {current : Bool} {U V : Session α n m}, Alike current U V → EndsTraced
      (iterateTraced env settings remaining (iter + 1) current U)
      (iterateTraced env settings remaining (iter + 1) current V)) :
    EndsTraced (iterateTraced env settings (remaining + 1) iter c S)
      (iterateTraced env settings (remaining + 1) iter c T) := by
  have hnumbered : Abreast ({ S with info := { S.info with iter := iter } } : Session α n m)
      ({ T with info := { T.info with iter := iter } } : Session α n m) := { h with iter := rfl }
  have hstanding : standing ({ T with info := { T.info with iter := iter } } : Session α n m)
      = standing ({ S with info := { S.info with iter := iter } } : Session α n m) := by
    show (iter, T.point, T.rho, T.system) = (iter, S.point, S.rho, S.system)
    rw [hpoint, h.rho, h.system]
  have halone : ∀ {p q : Except EngineError LoopEnd × Session α n m},
      Ends (fun r => r.found.isSome || r.current) p q →
        EndsTraced (p, [({ S with info := { S.info with iter := iter } } : Session α n m)])
          (q, [({ T with info := { T.info with iter := iter } } : Session α n m)]) :=
    fun hends => ⟨hends, by rw [List.map_singleton, List.map_singleton, hstanding]⟩
  rw [iterateTraced, iterateTraced]
  rcases hnumbered.step hpoint settings.alpha settings.sigma with
    ⟨u, S₁, T₁, hS₁, hT₁, hstepped⟩ | ⟨e, S₁, T₁, hS₁, hT₁, hstepped⟩
  · simp only [hS₁, hT₁]
    rcases hstepped.inspect settings iter with
      ⟨r, S₂, T₂, hS₂, hT₂, hinspected⟩ | ⟨e, S₂, T₂, hS₂, hT₂, hinspected⟩
    · obtain ⟨found, current⟩ := r
      simp only [hS₂, hT₂]
      cases found with
      | some status => exact halone (.inl ⟨_, S₂, T₂, rfl, rfl, hinspected⟩)
      | none =>
        simp only
        split
        · exact halone (.inl ⟨_, S₂, T₂, rfl, rfl, hinspected⟩)
        · have hgoing : Alike current S₂ T₂ := hinspected
          obtain ⟨hends, hsteps⟩ := hnext hgoing
          exact ⟨hends, by rw [List.map_cons, List.map_cons, hsteps, hstanding]⟩
    · simp only [hS₂, hT₂]
      exact halone (.inr ⟨e, S₂, T₂, rfl, rfl, hinspected⟩)
  · simp only [hS₁, hT₁]
    exact halone (.inr ⟨e, S₁, T₁, rfl, rfl, hstepped⟩)

/-- Iterations read nothing that is left over. -/
theorem Alike.iterateTraced (h : Alike current S T) (env : Environment α)
    (remaining iter : Nat) :
    EndsTraced (Session.iterateTraced env settings remaining iter current S)
      (Session.iterateTraced env settings remaining iter current T) := by
  induction remaining generalizing iter current S T with
  | zero => exact ⟨.inl ⟨_, S, T, rfl, rfl, h⟩, rfl⟩
  | succ remaining ih =>
    exact h.toAbreast.iterateTraced_succ h.point_eq fun hnext => ih hnext (iter + 1)

/-! ### Solves -/

namespace Alike

/-- Solves read nothing that is left over when their iterations have ended. -/
theorem finish {r : LoopEnd} (h : Alike (r.found.isSome || r.current) S T)
    (settings : Settings α) :
    (T.finish settings r).1 = (S.finish settings r).1 ∧
      Alike true (S.finish settings r).2 (T.finish settings r).2 := by
  unfold Session.finish
  cases hfound : r.found with
  | some status =>
    rw [hfound] at h
    exact ⟨rfl, h⟩
  | none =>
    rw [hfound] at h
    have hmeasured : Alike true (if r.current then S else S.measure)
        (if r.current then T else T.measure) := by
      cases hcurrent : r.current with
      | true =>
        rw [hcurrent] at h
        exact h
      | false => exact h.measure
    obtain ⟨hverdict, halike⟩ := hmeasured.verdict settings true
    exact ⟨congrArg (·.getD r.limit) hverdict, halike⟩

theorem conclude {r : LoopEnd} (h : Alike (r.found.isSome || r.current) S T)
    (env : Environment α) (settings : Settings α) :
    Alike true (S.conclude env settings r) (T.conclude env settings r) ∧
      (T.conclude env settings r).info.solveTime = (S.conclude env settings r).info.solveTime := by
  obtain ⟨hstatus, halike⟩ := h.finish settings
  exact ⟨{ halike with status := hstatus }, congrArg env.elapsed halike.iter⟩

theorem polish (h : Alike true S T) (env : Environment α) :
    Alike true (S.polish env) (T.polish env) := by
  have hrefined : T.refinedIterate? env = S.refinedIterate? env := by
    unfold refinedIterate? activeRows
    rw [h.data, h.vars, h.settings]
  unfold Session.polish
  rw [hrefined]
  cases S.refinedIterate? env with
  | none => exact { h with polished := rfl }
  | some p =>
    obtain ⟨x, z, y⟩ := p
    have hmoved : Alike true
        ({ S with vars := { S.vars with x := x, z := z, y := y } } : Session α n m)
        ({ T with vars := { T.vars with x := x, z := z, y := y } } : Session α n m) :=
      { h with vars := by rw [h.vars] }
    have htaken : ∀ {R R' : Session α n m}, Alike true R R' → Alike true
        (if R.res.prim ≤ Scalar.maxNum S.res.prim Limits.tiny ∧
            R.res.dual ≤ Scalar.maxNum S.res.dual Limits.tiny then R.markPolish .succeeded
          else S.markPolish .failed)
        (if R'.res.prim ≤ Scalar.maxNum T.res.prim Limits.tiny ∧
            R'.res.dual ≤ Scalar.maxNum T.res.dual Limits.tiny then R'.markPolish .succeeded
          else T.markPolish .failed) := by
      intro R R' hR
      rw [hR.res rfl, h.res rfl]
      split
      · exact { hR with polished := rfl }
      · exact { h with polished := rfl }
    exact htaken hmoved.measure

/-- What is published of a solve is the same, but for the estimate of a better step size,
which may be one of an earlier solve. -/
theorem publish (h : Alike true S T) (htime : T.info.solveTime = S.info.solveTime) :
    T.publish.info = { S.publish.info with rhoEstimate := T.publish.info.rhoEstimate } ∧
      T.publish.solution.x = S.publish.solution.x ∧
      T.publish.solution.y = S.publish.solution.y := by
  have huser : T.userPoint = S.userPoint := by
    unfold userPoint
    rw [h.data, h.vars]
  unfold Session.publish
  simp only [h.status, h.res rfl, huser]
  split
  · exact ⟨by simp only [h.iter, h.rhoUpdates, h.polished, htime], rfl, rfl⟩
  · exact ⟨by simp only [h.iter, h.rhoUpdates, h.polished, htime], rfl, rfl⟩

end Alike

theorem polish_solveTime (env : Environment α) (S : Session α n m) :
    (S.polish env).info.solveTime = S.info.solveTime := by
  unfold polish
  split
  · rfl
  · simp only
    split <;> rfl

/-- A solve starts from the point of the iterate, or from the origin. -/
theorem begin_point (S : Session α n m) :
    S.begin.point = if !S.settings.warmStarting && !S.startPending then
      (.fill n 0, .fill m 0, .fill m 0) else S.point := by
  unfold begin point
  simp only
  split <;> rfl

/-- The solves of `S` and `T` take the same steps and end with the same result and status.
If they succeed they publish the same record, but for the estimate of a better step size,
and the same solution. -/
structure SolvedAlike (env : Environment α) (S T : Session α n m) : Prop where
  steps : (T.steppedFrom env).map standing = (S.steppedFrom env).map standing
  result : (T.solve env).1 = (S.solve env).1
  status : (T.solve env).2.info.status = (S.solve env).2.info.status
  info : (S.solve env).1 = .ok () → (T.solve env).2.info
    = { (S.solve env).2.info with rhoEstimate := (T.solve env).2.info.rhoEstimate }
  x : (S.solve env).1 = .ok () → (T.solve env).2.solution.x = (S.solve env).2.solution.x
  y : (S.solve env).1 = .ok () → (T.solve env).2.solution.y = (S.solve env).2.solution.y

/-- Sessions with the same data, settings, factors and step sizes are solved alike from the
same point. -/
theorem solvedAlike_of_point (h : S.SameCore T) (hpoint : T.begin.point = S.begin.point)
    (hiterations : S.settings.maxIter ≠ 0) (env : Environment α) : SolvedAlike env S T := by
  have hbegun : S.begin.Abreast T.begin :=
    ⟨⟨h.data, h.settings, h.system, h.rho⟩, rfl, rfl, rfl, rfl⟩
  obtain ⟨k, hk⟩ : ∃ k, S.settings.maxIter.toNat = k + 1 :=
    Nat.exists_eq_succ_of_ne_zero fun hzero => hiterations (UInt32.toNat_inj.mp hzero)
  have hiterated : EndsTraced (iterateTraced env S.settings (k + 1) 1 false S.begin)
      (iterateTraced env S.settings (k + 1) 1 false T.begin) :=
    hbegun.iterateTraced_succ hpoint fun hnext => hnext.iterateTraced env k (1 + 1)
  obtain ⟨hends, hsteps⟩ := hiterated
  rw [iterateTraced_fst, iterateTraced_fst] at hends
  have hsteps : (T.steppedFrom env).map standing = (S.steppedFrom env).map standing := by
    unfold steppedFrom
    rw [h.settings, hk]
    exact hsteps
  rcases hends with ⟨r, S', T', hS, hT, halike⟩ | ⟨e, S', T', hS, hT, habreast⟩
  · obtain ⟨hconclude, htime⟩ := halike.conclude env S.settings
    obtain ⟨U, V, hU, hV, hended, htimes⟩ : ∃ U V : Session α n m,
        S.solve env = (.ok (), U.publish) ∧ T.solve env = (.ok (), V.publish) ∧ Alike true U V ∧
          V.info.solveTime = U.info.solveTime := by
      rw [solve_eq, solve_eq, h.settings, hk, hS, hT]
      simp only [hconclude.status]
      refine ⟨_, _, rfl, rfl, ?_⟩
      split
      · exact ⟨hconclude.polish env, by rw [polish_solveTime, polish_solveTime, htime]⟩
      · exact ⟨hconclude, htime⟩
    obtain ⟨hinfo, hx, hy⟩ := hended.publish htimes
    have hstatus : V.publish.info.status = U.publish.info.status := by
      rw [(publish_keeps V).2.2.2, (publish_keeps U).2.2.2, hended.status]
    refine ⟨hsteps, ?_, ?_, ?_, ?_, ?_⟩
    all_goals rw [hU, hV]
    · exact hstatus
    · exact fun _ => hinfo
    · exact fun _ => hx
    · exact fun _ => hy
  · have hS : S.solve env = (.error e, S') := by rw [solve_eq, hk, hS]
    have hT : T.solve env = (.error e, T') := by rw [solve_eq, h.settings, hk, hT]
    refine ⟨hsteps, ?_, ?_, ?_, ?_, ?_⟩
    all_goals rw [hS, hT]
    · exact habreast.status
    all_goals exact nofun

end QuadOpt.Session
