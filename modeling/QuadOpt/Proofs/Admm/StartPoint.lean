/-
# What a cold solve starts from

If solves do not start from the previous iterate, the next one starts at the origin, or
from the start point that was given for it. A part of the start point that was not given is
that of the iterate which the latest solve has left. So what earlier solves have computed
does not show in the next one, unless a start point was given in part.

Key definitions: `Session.startPoint`.
Key theorems: `Session.warmStart_accepted`, `Session.Filled.sameCore`,
`Session.warmStart_solvedAlike`, `Session.exists_partialStart`.
-/
import QuadOpt.Proofs.Admm.Accuracy
import QuadOpt.Proofs.Admm.LastTest
import QuadOpt.Proofs.Admm.Steady

namespace QuadOpt.Session

variable {α : Type} [Scalar α] {n m : Nat} {S T : Session α n m}

/-! ### Start points -/

/-- A start point in the coordinates of the iterate. For a part that is not given it is the
iterate. -/
def startPoint (S : Session α n m) (x : Option (Vec α n)) (y : Option (Vec α m)) :
    Vec α n × Vec α m × Vec α m :=
  let placed := x.map (·.hadamard S.data.scaling.dinv)
  (placed.getD S.vars.x, (placed.map (S.data.work.A.csc.mulVec m)).getD S.vars.z,
    (y.map fun y => (y.hadamard S.data.scaling.einv).scale S.data.scaling.c).getD S.vars.y)

theorem startPoint_congr {x : Option (Vec α n)} {y : Option (Vec α m)} (hdata : T.data = S.data)
    (hx : x = none → T.vars.x = S.vars.x ∧ T.vars.z = S.vars.z)
    (hy : y = none → T.vars.y = S.vars.y) : T.startPoint x y = S.startPoint x y := by
  unfold startPoint
  rw [hdata]
  cases x with
  | none =>
    cases y with
    | none => rw [(hx rfl).1, (hx rfl).2, hy rfl]
    | some y => rw [(hx rfl).1, (hx rfl).2]; rfl
  | some x =>
    cases y with
    | none => rw [hy rfl]; rfl
    | some y => rfl

/-- A start point that is well-formed is what the next solve starts from. -/
theorem warmStart_of_checkStart {x y : Option (Array α)} {x' : Option (Vec α n)}
    {y' : Option (Vec α m)} (hcheck : checkStart x y = .ok (x', y')) (S : Session α n m) :
    ∃ U, S.warmStart x y = (.ok (), U) ∧ S.SameCore U ∧ U.begin.point = S.startPoint x' y' := by
  unfold warmStart
  rw [hcheck]
  refine ⟨_, rfl, ?_, ?_⟩
  · cases x' <;> cases y' <;> exact ⟨rfl, rfl, rfl, rfl⟩
  · rw [begin_point, Bool.not_true, Bool.and_false]
    cases x' <;> cases y' <;> rfl

omit [Scalar α] in
theorem checkStart_eq_ok {x y : Option (Array α)} {x' : Option (Vec α n)} {y' : Option (Vec α m)}
    (hcheck : checkStart x y = .ok (x', y')) :
    x = x'.map Vector.toArray ∧ y = y'.map Vector.toArray := by
  rcases vecOfLength_cases "warm start x" n x with ⟨v, hv, hx⟩ | ⟨-, e, he⟩
  · rcases vecOfLength_cases "warm start y" m y with ⟨w, hw, hy⟩ | ⟨-, e, he⟩
    · simp only [checkStart, hv, hw] at hcheck
      cases hcheck
      exact ⟨hx, hy⟩
    · simp only [checkStart, hv, he] at hcheck
      cases hcheck
  · simp only [checkStart, he] at hcheck
    cases hcheck

/-- A start point that one session accepts is accepted by every one. -/
theorem warmStart_accepted {x y : Option (Array α)} {U : Session α n m}
    (h : S.warmStart x y = (.ok (), U)) :
    ∃ (x' : Option (Vec α n)) (y' : Option (Vec α m)), x = x'.map Vector.toArray ∧
      y = y'.map Vector.toArray ∧ ∀ T : Session α n m, ∃ V, T.warmStart x y = (.ok (), V) ∧
        T.SameCore V ∧ V.begin.point = T.startPoint x' y' := by
  rcases hcheck : (checkStart x y : Except DataFault (Option (Vec α n) × Option (Vec α m)))
    with e | ⟨x', y'⟩
  · unfold warmStart at h
    rw [hcheck] at h
    cases h
  · obtain ⟨hx, hy⟩ := checkStart_eq_ok hcheck
    exact ⟨x', y', hx, hy, warmStart_of_checkStart hcheck⟩

/-! ### The linear system -/

/-- The data, the settings, the step size and the factors make up the linear system. -/
theorem Filled.sameCore (hS : S.Filled) (hT : T.Filled) (hdata : T.data = S.data)
    (hsettings : T.settings = S.settings) (hrho : T.rho = S.rho)
    (hfactors : T.system.ldl = S.system.ldl) : S.SameCore T := by
  have hpattern : T.system.pattern = S.system.pattern := by
    rw [hT.system.pattern, hS.system.pattern, hdata]
  have hkinds : T.system.kinds = S.system.kinds := by
    rw [hT.tuned.kinds, hS.tuned.kinds, hdata]
  have hrow : T.system.rho = S.system.rho := by
    rw [hT.tuned.rho, hS.tuned.rho, hkinds, hrho]
  have hinv : T.system.rhoInv = S.system.rhoInv := by
    rw [hT.tuned.rhoInv, hS.tuned.rhoInv, hrow]
  have hK : T.system.K = S.system.K := by
    rw [hT.filled, hS.filled, hpattern, hdata, hsettings, hinv]
  refine ⟨hdata, hsettings, ?_, hrho⟩
  cases hsystem : S.system
  cases hsystem' : T.system
  simp_all

/-! ### Solves after different histories -/

/-- Two sessions may have been solved before in different ways. If they have the same data,
settings, step size and factors, and solves do not start from the previous iterate, then
the next solves start at the origin and are alike. After the same start point was given to
both, they start from it and are alike, if the sessions agree in the parts of the iterate
that it leaves out. -/
theorem warmStart_solvedAlike [LawfulComparison α] (hS : S.Reachable) (hT : T.Reachable)
    (hdata : T.data = S.data) (hsettings : T.settings = S.settings) (hrho : T.rho = S.rho)
    (hfactors : T.system.ldl = S.system.ldl) (hcold : S.settings.warmStarting = false)
    (env : Environment α) :
    (S.startPending = false → T.startPending = false →
      S.begin.point = (.fill n 0, .fill m 0, .fill m 0) ∧ SolvedAlike env S T) ∧
    ∀ (x y : Option (Array α)) (U : Session α n m),
      (x = none → T.vars.x = S.vars.x ∧ T.vars.z = S.vars.z) →
      (y = none → T.vars.y = S.vars.y) → S.call env (.warmStart x y) = (.ok (), U) →
      ∃ (V : Session α n m) (x' : Option (Vec α n)) (y' : Option (Vec α m)),
        T.call env (.warmStart x y) = (.ok (), V) ∧
        x = x'.map Vector.toArray ∧ y = y'.map Vector.toArray ∧
        U.begin.point = S.startPoint x' y' ∧ SolvedAlike env U V := by
  have hsame : S.SameCore T := (hS.filled LawfulComparison.eq_of_beq).sameCore
    (hT.filled LawfulComparison.eq_of_beq) hdata hsettings hrho hfactors
  obtain ⟨-, -, -, -, -, -, -, -, hiterations, -⟩ := (Settings.validate_eq_ok_iff _).mp hS.legal
  constructor
  · intro hpending hpending'
    have horigin : S.begin.point = (.fill n 0, .fill m 0, .fill m 0) := by
      rw [begin_point, hcold, hpending]
      rfl
    refine ⟨horigin, solvedAlike_of_point hsame ?_ hiterations env⟩
    rw [horigin, begin_point, hsettings, hcold, hpending']
    rfl
  · intro x y U hx hy hcall
    obtain ⟨x', y', rfl, rfl, haccepted⟩ := warmStart_accepted (S := S) hcall
    obtain ⟨U', hU, hcore, hpoint⟩ := haccepted S
    obtain ⟨V, hV, hcore', hpoint'⟩ := haccepted T
    obtain rfl : U' = U := congrArg Prod.snd (hU.symm.trans hcall)
    have hstart : T.startPoint x' y' = S.startPoint x' y' :=
      startPoint_congr hdata (fun h => hx (by rw [h]; rfl)) fun h => hy (by rw [h]; rfl)
    have hstarted : U'.SameCore V :=
      ⟨hcore'.data.trans (hdata.trans hcore.data.symm),
        hcore'.settings.trans (hsettings.trans hcore.settings.symm),
        hcore'.system.trans (hsame.system.trans hcore.system.symm),
        hcore'.rho.trans (hrho.trans hcore.rho.symm)⟩
    refine ⟨V, x', y', hV, rfl, rfl, hpoint, ?_⟩
    exact solvedAlike_of_point hstarted (by rw [hpoint', hpoint, hstart])
      (by rw [hcore.settings]; exact hiterations) env

/-- Before and after a solve of the unit problem. -/
theorem warmStart_solvedAlike_unitProblem :
    ∃ (S : AdmmSession ℚ) (T U : Session ℚ S.n S.m),
      AdmmSession.setup (.still ℚ) unitProblem { plainSettings with warmStarting := false } = .ok S ∧
      S.session.call (.still ℚ) .solve = (.ok (), T) ∧ T.vars.x ≠ S.session.vars.x ∧
      S.session.call (.still ℚ) (.warmStart (some #[0.5]) (some #[0.5])) = (.ok (), U) ∧
      SolvedAlike (.still ℚ) S.session T ∧
      ∃ V, T.call (.still ℚ) (.warmStart (some #[0.5]) (some #[0.5])) = (.ok (), V) ∧
        SolvedAlike (.still ℚ) U V := by
  have hrun : (match AdmmSession.setup (.still ℚ) unitProblem
        { plainSettings with warmStarting := false } with
      | .error _ => false
      | .ok S => match S.session.call (.still ℚ) .solve with
        | (.error _, _) => false
        | (.ok (), T) =>
          match S.session.call (.still ℚ) (.warmStart (some #[0.5]) (some #[0.5])) with
          | (.error _, _) => false
          | (.ok (), _) => !S.session.settings.warmStarting &&
              !S.session.settings.adaptiveRho && !S.session.startPending && !T.startPending &&
              decide (T.vars.x ≠ S.session.vars.x)) = true := by
    decide +kernel
  split at hrun
  · cases hrun
  · rename_i S hsetup
    split at hrun
    · cases hrun
    · rename_i T hsolve
      split at hrun
      · cases hrun
      · rename_i U hstart
        simp only [Bool.and_eq_true, Bool.not_eq_true', decide_eq_true_eq] at hrun
        obtain ⟨⟨⟨⟨hcold, hsteady⟩, hpending⟩, hpending'⟩, hmoved⟩ := hrun
        have hreachable : S.session.Reachable := .setup hsetup
        have hsolved : T.Reachable := by
          have hcall := Reachable.call (.still ℚ) .solve hreachable
          rwa [hsolve] at hcall
        have hsame : S.session.Steady T := by
          have hkept := solve_steady hsteady (.still ℚ)
          rwa [show S.session.solve (.still ℚ) = (.ok (), T) from hsolve] at hkept
        obtain ⟨hnone, hgiven⟩ := warmStart_solvedAlike hreachable hsolved hsame.data
          hsame.settings hsame.rho (congrArg (·.ldl) hsame.system) hcold (.still ℚ)
        obtain ⟨V, x', y', hV, -, -, -, halike⟩ :=
          hgiven (some #[0.5]) (some #[0.5]) U nofun nofun hstart
        exact ⟨S, T, U, hsetup, hsolve, hmoved, hstart, (hnone hpending hpending').2, V, hV,
          halike⟩

/-- After a start point without multipliers, the next solve starts from the multipliers of
the solve before, and takes one iteration where it would take nine. -/
theorem exists_partialStart : ∃ (S : AdmmSession ℚ) (T U V : Session ℚ S.n S.m),
    S.session.Reachable ∧ T.Reachable ∧ S.session.SameCore T ∧
    S.session.settings.warmStarting = false ∧
    S.session.call (.still ℚ) (.warmStart (some #[0.5]) none) = (.ok (), U) ∧
    T.call (.still ℚ) (.warmStart (some #[0.5]) none) = (.ok (), V) ∧
    U.begin.vars.y = .fill S.m 0 ∧ V.begin.vars.y = T.vars.y ∧ T.vars.y ≠ .fill S.m 0 ∧
    (U.call (.still ℚ) .solve).2.info.iter = 9 ∧ (V.call (.still ℚ) .solve).2.info.iter = 1 ∧
    (V.call (.still ℚ) .solve).2.solution.x ≠ (U.call (.still ℚ) .solve).2.solution.x ∧
    (V.call (.still ℚ) .solve).2.solution.y ≠ (U.call (.still ℚ) .solve).2.solution.y := by
  have hrun : (match AdmmSession.setup (.still ℚ) unitProblem
        { plainSettings with warmStarting := false } with
      | .error _ => false
      | .ok S => match S.session.call (.still ℚ) .solve with
        | (.error _, _) => false
        | (.ok (), T) =>
          match S.session.call (.still ℚ) (.warmStart (some #[0.5]) none) with
          | (.error _, _) => false
          | (.ok (), U) => match T.call (.still ℚ) (.warmStart (some #[0.5]) none) with
            | (.error _, _) => false
            | (.ok (), V) =>
              let u := (U.call (.still ℚ) .solve).2
              let v := (V.call (.still ℚ) .solve).2
              !S.session.settings.warmStarting && !S.session.settings.adaptiveRho &&
                decide (U.begin.vars.y = .fill S.m 0 ∧ V.begin.vars.y = T.vars.y ∧
                  T.vars.y ≠ .fill S.m 0 ∧ u.info.iter = 9 ∧ v.info.iter = 1 ∧
                  v.solution.x ≠ u.solution.x ∧ v.solution.y ≠ u.solution.y)) = true := by
    decide +kernel
  split at hrun
  · cases hrun
  · rename_i S hsetup
    split at hrun
    · cases hrun
    · rename_i T hsolve
      split at hrun
      · cases hrun
      · rename_i U hU
        split at hrun
        · cases hrun
        · rename_i V hV
          simp only [Bool.and_eq_true, Bool.not_eq_true', decide_eq_true_eq] at hrun
          obtain ⟨⟨hcold, hsteady⟩, hdiffer⟩ := hrun
          have hreachable : S.session.Reachable := .setup hsetup
          have hsolved := Reachable.call (.still ℚ) .solve hreachable
          have hsame := solve_steady hsteady (.still ℚ)
          rw [hsolve] at hsolved
          rw [show S.session.solve (.still ℚ) = (.ok (), T) from hsolve] at hsame
          exact ⟨S, T, U, V, hreachable, hsolved, hsame.toSameCore, hcold, hU, hV, hdiffer⟩

end QuadOpt.Session
