/-
# Solves with a steady step size

If the step size does not adapt, a solve leaves the data, the linear system and the step
sizes as they are, and does not fail if the system is factored. If moreover it starts at the
origin, it computes the same from any two sessions that agree on these.

Key definitions: `Session.Steady`.
Key theorems: `Session.inspect_steady_eq`, `Session.iterate_steady`, `Session.solve_steady`,
`Session.solve_ok`, `Session.solve_alike`.
-/
import QuadOpt.Proofs.Admm.Alike

namespace QuadOpt.Session

variable {α : Type} [Scalar α] {n m : Nat}

/-! ### What stays -/

/-- `T` has the data, the linear system and the step sizes of `S`, the estimate of a better
one included. -/
structure Steady (S T : Session α n m) : Prop extends S.SameCore T where
  rhoEstimate : T.info.rhoEstimate = S.info.rhoEstimate

variable {S T U : Session α n m} {settings : Settings α}

omit [Scalar α] in
theorem Steady.trans (h : S.Steady T) (h' : T.Steady U) : S.Steady U :=
  ⟨h.toSameCore.trans h'.toSameCore, h'.rhoEstimate.trans h.rhoEstimate⟩

/-- The rest of an iteration is a test, if one is due. -/
theorem inspect_steady_eq (hsteady : settings.adaptiveRho = false) (iter : Nat)
    (S : Session α n m) :
    S.inspect settings iter = if isDue iter settings.checkTermination then
        (.ok ((S.measure.verdict settings false).1, true), (S.measure.verdict settings false).2)
      else (.ok (none, false), S) := by
  unfold inspect
  rw [hsteady]
  cases isDue iter settings.checkTermination with
  | false => rfl
  | true =>
    simp only [if_true, Bool.false_and, Bool.false_eq_true, if_false]
    cases hfound : (S.measure.verdict settings false).1 <;> rfl

theorem verdict_steady (S : Session α n m) (settings : Settings α) (approximate : Bool) :
    S.Steady (S.verdict settings approximate).2 := by
  obtain ⟨solution, hsolution⟩ := verdict_keeps S settings approximate
  rw [hsolution]
  exact ⟨⟨rfl, rfl, rfl, rfl⟩, rfl⟩

theorem measure_steady (S : Session α n m) : S.Steady S.measure := ⟨S.measure_sameCore, rfl⟩

theorem inspect_steady (hsteady : settings.adaptiveRho = false) (iter : Nat)
    (S : Session α n m) : S.Steady (S.inspect settings iter).2 := by
  rw [inspect_steady_eq hsteady]
  split
  · exact S.measure_steady.trans (verdict_steady _ settings false)
  · exact ⟨.refl S, rfl⟩

theorem iterate_steady (hsteady : settings.adaptiveRho = false) (env : Environment α)
    (remaining iter : Nat) (current : Bool) (S : Session α n m) :
    S.Steady (iterate env settings remaining iter current S).2 := by
  induction remaining generalizing iter current S with
  | zero => exact ⟨.refl S, rfl⟩
  | succ remaining ih =>
    rw [iterate]
    rcases step_cases ({ S with info := { S.info with iter := iter } } : Session α n m)
      settings.alpha settings.sigma with ⟨-, vars, hstep⟩ | ⟨-, vars, hstep⟩
    · rw [hstep]
      have hstepped : S.Steady { S with info := { S.info with iter := iter }, vars := vars } :=
        ⟨⟨rfl, rfl, rfl, rfl⟩, rfl⟩
      have hinspect := hstepped.trans (inspect_steady hsteady iter _)
      simp only
      split
      · rename_i e V hV
        rwa [hV] at hinspect
      · rename_i status current V hV
        rwa [hV] at hinspect
      · rename_i current V hV
        rw [hV] at hinspect
        split
        · exact hinspect
        · exact hinspect.trans (ih _ _ _)
    · rw [hstep]
      exact ⟨⟨rfl, rfl, rfl, rfl⟩, rfl⟩

theorem polish_steady (env : Environment α) (S : Session α n m) : S.Steady (S.polish env) := by
  refine ⟨polish_sameCore env S, ?_⟩
  unfold polish
  split
  · rfl
  · simp only
    split <;> rfl

theorem publish_steady (S : Session α n m) : S.Steady S.publish := by
  refine ⟨publish_sameCore S, ?_⟩
  unfold publish
  simp only
  split <;> rfl

theorem conclude_steady (env : Environment α) (settings : Settings α) (r : LoopEnd)
    (S : Session α n m) : S.Steady (S.conclude env settings r) := by
  refine ⟨conclude_sameCore env settings r S, ?_⟩
  show (S.finish settings r).2.info.rhoEstimate = S.info.rhoEstimate
  unfold finish
  split
  · rfl
  · cases r.current <;> exact (verdict_steady _ settings true).rhoEstimate

/-- A solve without adaptation leaves the step sizes alone. -/
theorem solve_steady (hsteady : S.settings.adaptiveRho = false) (env : Environment α) :
    S.Steady (S.solve env).2 := by
  have hbegun : S.Steady S.begin := ⟨S.begin_sameCore, rfl⟩
  have hiterate := hbegun.trans
    (iterate_steady hsteady env S.settings.maxIter.toNat 1 false S.begin)
  rw [solve_eq]
  split
  · rename_i e T hT
    rwa [hT] at hiterate
  · rename_i r T hT
    rw [hT] at hiterate
    have hconclude := hiterate.trans (conclude_steady env S.settings r T)
    refine Steady.trans ?_ (publish_steady _)
    split
    · exact hconclude.trans (polish_steady env _)
    · exact hconclude

/-! ### Solves that do not fail -/

theorem iterate_ok (hsteady : settings.adaptiveRho = false)
    (hfactored : S.system.ldl.isFactored = true) (env : Environment α) (remaining iter : Nat)
    (current : Bool) : ∃ r, (iterate env settings remaining iter current S).1 = .ok r := by
  induction remaining generalizing iter current S with
  | zero => exact ⟨_, rfl⟩
  | succ remaining ih =>
    rw [iterate]
    rcases step_cases ({ S with info := { S.info with iter := iter } } : Session α n m)
      settings.alpha settings.sigma with ⟨-, vars, hstep⟩ | ⟨hldl, -⟩
    · rw [hstep]
      have hinspect := inspect_steady hsteady iter
        ({ S with info := { S.info with iter := iter }, vars := vars } : Session α n m)
      have hfound := congrArg Prod.fst (inspect_steady_eq hsteady iter
        ({ S with info := { S.info with iter := iter }, vars := vars } : Session α n m))
      simp only
      split
      · rename_i e V hV
        rw [hV] at hfound
        split at hfound <;> cases hfound
      · exact ⟨_, rfl⟩
      · rename_i current V hV
        rw [hV] at hinspect
        split
        · exact ⟨_, rfl⟩
        · exact ih ((congrArg (·.ldl.isFactored) hinspect.system).trans hfactored) _ _
    · exact absurd hfactored (by simp [show S.system.ldl.isFactored = false from hldl])

/-- A solve with valid factors and without adaptation does not fail. -/
theorem solve_ok (hsteady : S.settings.adaptiveRho = false)
    (hfactored : S.system.ldl.isFactored = true) (env : Environment α) :
    (S.solve env).1 = .ok () := by
  obtain ⟨r, hr⟩ := iterate_ok (S := S.begin) hsteady hfactored env S.settings.maxIter.toNat 1 false
  rcases solve_cases env S with ⟨e, T, hiterate, -⟩ | ⟨_, _, U, -, hsolve, -⟩
  · rw [hiterate] at hr
    cases hr
  · rw [hsolve]

/-- Two sessions with the same data, settings, factors and step sizes are solved alike from
the origin. -/
theorem solve_alike (h : S.Steady T) (hsteady : S.settings.adaptiveRho = false)
    (hcold : S.settings.warmStarting = false) (hS : S.startPending = false)
    (hT : T.startPending = false) (hiterations : S.settings.maxIter ≠ 0)
    (hfactored : S.system.ldl.isFactored = true) (env : Environment α) :
    (S.solve env).1 = .ok () ∧ (T.solve env).1 = .ok () ∧
      (T.solve env).2.info = (S.solve env).2.info ∧
      (T.solve env).2.solution.x = (S.solve env).2.solution.x ∧
      (T.solve env).2.solution.y = (S.solve env).2.solution.y := by
  have hpoint : T.begin.point = S.begin.point := by
    rw [begin_point, begin_point, h.settings, hcold, hS, hT]
    rfl
  have hsolved := solvedAlike_of_point h.toSameCore hpoint hiterations env
  have hok := solve_ok hsteady hfactored env
  have hestimate : (T.solve env).2.info.rhoEstimate = (S.solve env).2.info.rhoEstimate := by
    rw [(solve_steady (h.settings ▸ hsteady) env).rhoEstimate, (solve_steady hsteady env).rhoEstimate,
      h.rhoEstimate]
  refine ⟨hok, hsolved.result.trans hok, ?_, hsolved.x hok, hsolved.y hok⟩
  rw [hsolved.info hok, hestimate]

end QuadOpt.Session
