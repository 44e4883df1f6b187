/-
# What a session keeps beside its data is current

After any calls, those that failed included, the kinds of the constraints are those of
the current bounds, the step sizes those of the kinds, the matrix of the linear system
is made of the current matrices and step sizes, and valid factors are what a fresh
analysis of this matrix finds. In exact arithmetic the step sizes are positive as well,
and the factors multiply to the matrix.

Key definitions: `Session.Current`.
Key theorems: `Session.Filled.current`, `Session.isCurrent_of_reachable`.
-/
import QuadOpt.Proofs.Admm.Accuracy
import QuadOpt.Proofs.Admm.Filled
import QuadOpt.Proofs.Ldl.Pivots

namespace QuadOpt.Session

/-! ### Any arithmetic -/

section Current

variable {α : Type} [Scalar α] {n m : Nat}

/-- The kinds, step sizes, matrix and factors that the session keeps are those of its
data, its settings and its common step size. -/
structure Current (S : Session α n m) : Prop where
  kinds : ∀ i, S.system.kinds.get i
    = .classify (S.data.work.l.get i) (S.data.work.u.get i)
  rho : ∀ i, S.system.rho.get i = match S.system.kinds.get i with
    | .free => Limits.minRho
    | .equality => 1e3 * S.rho
    | .inequality => S.rho
  rhoInv : ∀ i, S.system.rhoInv.get i = 1 / S.system.rho.get i
  matrix : S.system.K.IsKkt S.data.work.P S.data.work.A S.settings.sigma S.system.rhoInv
  /-- The same object comes out of a fresh analysis of the matrix in the same order. -/
  fresh : S.system.ldl.isFactored = true → ∃ F, Ldl.analyse S.system.K (n + m)
    (some S.system.ldl.givenOrder) = .ok F ∧ F.factor = (S.system.ldl, .ok S.system.ldl.positive)

variable {S : Session α n m}

theorem Filled.isKkt (h : S.Filled) :
    S.system.K.IsKkt S.data.work.P S.data.work.A S.settings.sigma S.system.rhoInv := by
  rw [h.filled, h.system.pattern]
  exact fillKkt_isKkt _ _ _ S.data.work.upper

theorem Filled.current (h : S.Filled) : S.Current where
  kinds i := by rw [h.tuned.kinds, Vec.get_ofFn]
  rho i := by
    rw [h.tuned.rho, Vec.get_map]
    cases S.system.kinds.get i <;> rfl
  rhoInv i := by rw [h.tuned.rhoInv, Vec.get_recip]
  matrix := h.isKkt
  fresh := h.system.holds.fresh

end Current

/-! ### Exact arithmetic -/

theorem Filled.factorises {K : Type} [Field K] [LinearOrder K] [ExactScalar K] {n m : Nat}
    {S : Session K n m} (h : S.Filled) (hfactored : S.system.ldl.isFactored = true) :
    S.system.ldl.Factorises (S.system.K.mirror (n + m)) := by
  have hfactors := h.system.holds.analysed.factorises hfactored
  rwa [h.system.holds.values] at hfactors

/-- Whatever calls a session has seen, accepted or not, what it keeps is current; and in
exact arithmetic the step sizes are positive and the factors are those of the matrix. -/
theorem isCurrent_of_reachable :
    (∀ {α : Type} [Scalar α] {n m : Nat} {S : Session α n m},
      (∀ {a b : α}, 0 < a → (a == b) = true → a = b) → S.Reachable → S.Current) ∧
    ∀ {K : Type} [Field K] [LinearOrder K] [ExactScalar K] [IsStrictOrderedRing K] {n m : Nat}
      {S : Session K n m}, S.Reachable →
      (∀ i, 0 < S.system.rho.get i ∧ 0 < S.system.rhoInv.get i) ∧
      (S.system.ldl.isFactored = true →
        S.system.ldl.Factorises (S.system.K.mirror (n + m))) := by
  refine ⟨fun hbeq h => (h.filled hbeq).current, fun h => ⟨fun i => ?_, ?_⟩⟩
  · exact ⟨h.sound.weighted.rho_pos i, h.sound.weighted.rhoInv_pos i⟩
  · exact (h.filled fun _ heq => eq_of_beq heq).factorises

/-- After an update that makes the objective non-convex, which fails and leaves the new
values in place. -/
theorem isCurrent_unitProblem : ∃ (S : AdmmSession ℚ) (T : Session ℚ S.n S.m),
    AdmmSession.setup (.still ℚ) unitProblem plainSettings = .ok S ∧
    S.session.call (.still ℚ) (.updateMatrices (some #[-2]) none none none)
      = (.error .nonConvex, T) ∧ T.Reachable ∧ T.Current ∧
      (∀ i, 0 < T.system.rho.get i ∧ 0 < T.system.rhoInv.get i) ∧
      T.system.ldl.Factorises (T.system.K.mirror (S.n + S.m)) := by
  have hrun : (match AdmmSession.setup (.still ℚ) unitProblem plainSettings with
      | .error _ => false
      | .ok S =>
        let r := S.session.call (.still ℚ) (.updateMatrices (some #[-2]) none none none)
        decide (r.1 = .error .nonConvex) && r.2.system.ldl.isFactored) = true := by
    decide +kernel
  split at hrun
  · cases hrun
  · rename_i S hsetup
    simp only [Bool.and_eq_true, decide_eq_true_eq] at hrun
    obtain ⟨hrefused, hfactored⟩ := hrun
    have hreachable := Reachable.call (.still ℚ)
      (.updateMatrices (some #[-2]) none none none) (.setup hsetup)
    obtain ⟨hcurrent, hexact⟩ := isCurrent_of_reachable
    exact ⟨S, _, hsetup, Prod.ext hrefused rfl, hreachable,
      hcurrent (fun _ heq => eq_of_beq heq) hreachable, (hexact hreachable).1,
      (hexact hreachable).2 hfactored⟩

end QuadOpt.Session
