/-
# Sound sessions

In exact arithmetic a session is sound: its settings are legal, its working
data are the scaled data of the user, and its step sizes are positive and fit
the kinds of the constraints. Setup makes it so, and every change of the
session, accepted or refused, leaves it so.

Key definitions: `LinearSystem.Tuned`, `LinearSystem.Weighted`, `Session.Sound`,
`Session.Continues`.
Key theorems: `Settings.validate_eq_ok_iff`, `Session.setup_sound`,
`Session.updateVectors_sound`, `Session.updateMatrices_sound`,
`Session.warmStart_sound`, `Session.updateSettings_sound`.
-/
import QuadOpt.Proofs.Admm.Scaled
import QuadOpt.Proofs.Admm.Validation

namespace QuadOpt

/-! ### Legal settings -/

namespace Settings

variable {α : Type} [Scalar α]

theorem require_eq_ok_iff {field : SettingName} {legal : Bool} :
    require field legal = .ok () ↔ legal = true := by
  cases legal <;> simp [require]

theorem checkUnchanged_eq_ok_iff {β : Type} [BEq β] {field : SettingName} {new old : β} :
    checkUnchanged field new old = .ok () ↔ (new == old) = true := by
  unfold checkUnchanged
  split <;> simp [*]

theorem bind_eq_ok_iff {β : Type} {x : Except SettingsError Unit}
    {k : Unit → Except SettingsError β} {b : β} :
    (x >>= k) = .ok b ↔ x = .ok () ∧ k () = .ok b := by
  cases x <;> simp [bind, Except.bind]

/-- What the check of a complete collection tests. -/
theorem validate_eq_ok_iff (s : Settings α) :
    s.validate = .ok () ↔ 0 < s.rho ∧ 0 < s.sigma ∧ (0 < s.alpha ∧ s.alpha < 2.0) ∧
      0 ≤ s.epsAbs ∧ 0 ≤ s.epsRel ∧ ¬((s.epsAbs == 0) = true ∧ (s.epsRel == 0) = true) ∧
      0 < s.epsPrimInf ∧ 0 < s.epsDualInf ∧ s.maxIter ≠ 0 ∧ 0 < s.timeLimit ∧
      1 ≤ s.adaptiveRhoTolerance ∧ 0 < s.delta := by
  simp only [validate, checkPositive, checkNonnegative, checkAlpha, checkTolerances, checkMaxIter,
    checkTimeLimit, checkRhoTolerance, bind_eq_ok_iff, require_eq_ok_iff,
    decide_eq_true_eq, Bool.and_eq_true, Bool.not_eq_true', bne_iff_ne]
  rw [← Bool.not_eq_true, Bool.and_eq_true]

/-- Settings may replace others iff they are legal and those that only a setup uses are as
they were. -/
theorem validateUpdate_eq_ok_iff (s old : Settings α) :
    s.validateUpdate old = .ok () ↔ s.validate = .ok () ∧ (s.sigma == old.sigma) = true ∧
      s.scaling = old.scaling ∧ s.adaptiveRho = old.adaptiveRho ∧
      s.adaptiveRhoInterval = old.adaptiveRhoInterval := by
  simp only [validateUpdate, bind_eq_ok_iff, checkUnchanged_eq_ok_iff, beq_iff_eq]

theorem validate_of_validateUpdate {s old : Settings α} (h : s.validateUpdate old = .ok ()) :
    s.validate = .ok () := ((validateUpdate_eq_ok_iff s old).mp h).1

end Settings

/-- What a session is made of before its system is factored. -/
theorem Session.unfactored_eq_ok {α : Type} [Scalar α] {n m : Nat} {env : Environment α}
    {D : Instance α n m} {settings : Settings α} {S : Session α n m}
    (h : unfactored env D settings = .ok S) :
    S.data = (Problem.ofInstance D).equilibrate settings.scaling.toNat ∧
      S.settings = settings ∧ S.rho = settings.rho ∧
      ∃ L, LinearSystem.new env.ordering S.data.work.P S.data.work.A = .ok L ∧
        S.system = (L.classify S.data.work.l S.data.work.u).withRho settings.rho := by
  simp only [unfactored, bind, Except.bind] at h
  split at h
  · cases h
  · rename_i L hL
    cases h
    exact ⟨rfl, rfl, rfl, L, hL, rfl⟩

/-! ### Step sizes -/

section Tuned

variable {α : Type} [Scalar α] {n m : Nat}

/-- The kinds are those of constraints with the given bounds, and the step sizes
those that belong to the kinds. -/
structure LinearSystem.Tuned (L : LinearSystem α n m) (l u : Vec α m) (t : α) : Prop where
  kinds : L.kinds = Vector.ofFn fun i => .classify (l.get i) (u.get i)
  rho : L.rho = L.kinds.map (ConstraintKind.rho t)
  rhoInv : L.rhoInv = L.rho.recip

namespace LinearSystem.Tuned

variable {L : LinearSystem α n m} {l u : Vec α m} {t : α}

theorem withRho (h : L.Tuned l u t) (t' : α) : (L.withRho t').Tuned l u t' := ⟨h.kinds, rfl, rfl⟩

theorem classify (L : LinearSystem α n m) (l u : Vec α m) (t : α) :
    ((L.classify l u).withRho t).Tuned l u t := ⟨rfl, rfl, rfl⟩

/-- Bounds that leave all kinds as they are leave the step sizes right. -/
theorem reclassify (h : L.Tuned l u t) {l' u' : Vec α m}
    (hkinds : (L.classify l' u').kinds = L.kinds) : (L.classify l' u').Tuned l' u' t where
  kinds := rfl
  rho := by
    rw [hkinds]
    exact h.rho
  rhoInv := h.rhoInv

end LinearSystem.Tuned

end Tuned

variable {K : Type} [Field K] [LinearOrder K] [ExactScalar K] {n m : Nat}

theorem ConstraintKind.rho_pos [IsStrictOrderedRing K] {t : K} (ht : 0 < t) (k : ConstraintKind) :
    0 < k.rho t := by
  cases k with
  | free => norm_num [ConstraintKind.rho, Limits.minRho]
  | inequality => exact ht
  | equality =>
    have hfactor : (0 : K) < Limits.equalityFactor := by
      norm_num [Limits.equalityFactor]
    exact mul_pos hfactor ht

/-- The step sizes are positive and their exact inverses are at hand. -/
structure LinearSystem.Weighted (L : LinearSystem K n m) : Prop where
  rho_pos : ∀ i, 0 < L.rho.get i
  rhoInv_eq : ∀ i, L.rhoInv.get i = 1 / L.rho.get i

namespace LinearSystem.Weighted

variable {L : LinearSystem K n m}

omit [ExactScalar K] in
theorem rhoInv_pos [IsStrictOrderedRing K] (h : L.Weighted) (i : Fin m) : 0 < L.rhoInv.get i := by
  rw [h.rhoInv_eq]
  exact one_div_pos.mpr (h.rho_pos i)

omit [ExactScalar K] in
theorem rho_mul_rhoInv (h : L.Weighted) (i : Fin m) : L.rho.get i * L.rhoInv.get i = 1 := by
  rw [h.rhoInv_eq, mul_one_div_cancel (h.rho_pos i).ne']

end LinearSystem.Weighted

theorem LinearSystem.Tuned.weighted [IsStrictOrderedRing K] {L : LinearSystem K n m} {l u : Vec K m}
    {t : K} (h : L.Tuned l u t) (ht : 0 < t) : L.Weighted where
  rho_pos i := by
    rw [h.rho, Vec.get_map]
    exact ConstraintKind.rho_pos ht _
  rhoInv_eq i := by rw [h.rhoInv, Vec.get_recip]

/-! ### Sound sessions -/

namespace Session

/-- What holds of every session. -/
structure Sound (S : Session K n m) : Prop where
  scaled : S.data.Scaled
  legal : S.settings.validate = .ok ()
  rho_pos : 0 < S.rho
  tuned : S.system.Tuned S.data.work.l S.data.work.u S.rho

theorem Sound.weighted [IsStrictOrderedRing K] {S : Session K n m} (h : S.Sound) :
    S.system.Weighted := h.tuned.weighted h.rho_pos

/-- `T` is a sound session with the data and the settings of `S`. -/
structure Continues (S T : Session K n m) : Prop where
  sound : T.Sound
  data : T.data = S.data
  settings : T.settings = S.settings

variable {S T U : Session K n m}

theorem Sound.continues (h : S.Sound) : S.Continues S := ⟨h, rfl, rfl⟩

theorem Continues.trans (h : S.Continues T) (h' : T.Continues U) : S.Continues U :=
  ⟨h'.sound, h'.data.trans h.data, h'.settings.trans h.settings⟩

/-- Soundness does not depend on the iterate nor on what is recorded of a
solve. -/
theorem Sound.congr (h : S.Sound) (hdata : T.data = S.data) (hsettings : T.settings = S.settings)
    (hsystem : T.system = S.system) (hrho : T.rho = S.rho) : T.Sound where
  scaled := by rw [hdata]; exact h.scaled
  legal := by rw [hsettings]; exact h.legal
  rho_pos := by rw [hrho]; exact h.rho_pos
  tuned := by rw [hdata, hsystem, hrho]; exact h.tuned

theorem factorSystem_continues (h : S.Sound) : S.Continues S.factorSystem.2 := by
  have hfactored : ({ S with system :=
      (S.system.factor S.data.work.P S.data.work.A S.settings.sigma).1 } : Session K n m).Sound :=
    ⟨h.scaled, h.legal, h.rho_pos, ⟨h.tuned.kinds, h.tuned.rho, h.tuned.rhoInv⟩⟩
  unfold factorSystem
  simp only
  split
  · exact ⟨hfactored, rfl, rfl⟩
  · split
    · exact ⟨hfactored, rfl, rfl⟩
    · exact ⟨hfactored.congr rfl rfl rfl rfl, rfl, rfl⟩

theorem factorUnsolved_sound (h : S.Sound) : S.factorUnsolved.2.Sound := by
  have hfactored := (factorSystem_continues h).sound
  unfold factorUnsolved
  split
  · rename_i T hT
    rw [hT] at hfactored
    exact hfactored.congr rfl rfl rfl rfl
  · rename_i e T hT
    rw [hT] at hfactored
    exact hfactored

/-! ### Start points and settings -/

theorem warmStart_sound (h : S.Sound) (x y : Option (Array K)) : (S.warmStart x y).2.Sound := by
  unfold warmStart
  split
  · exact h
  · rename_i x y _
    cases x <;> cases y <;> exact h.congr rfl rfl rfl rfl

theorem updateSettings_sound (h : S.Sound) (settings : Settings K) :
    (S.updateSettings settings).2.Sound := by
  unfold updateSettings
  split
  · exact h
  · rename_i hvalid
    have hlegal := Settings.validate_of_validateUpdate hvalid
    split
    · refine (factorSystem_continues ?_).sound
      exact ⟨h.scaled, hlegal, ((Settings.validate_eq_ok_iff _).mp hlegal).1,
        h.tuned.withRho settings.rho⟩
    · exact ⟨h.scaled, hlegal, h.rho_pos, h.tuned⟩

variable [IsStrictOrderedRing K]

/-! ### Setup -/

theorem unfactored_sound {env : Environment K} {D : Instance K n m} {settings : Settings K}
    (hlegal : settings.validate = .ok ()) (h : unfactored env D settings = .ok S) : S.Sound := by
  obtain ⟨hdata, hsettings, hrho, L, -, hsystem⟩ := unfactored_eq_ok h
  exact {
    scaled := hdata ▸ Problem.equilibrate_scaled _ _
    legal := hsettings ▸ hlegal
    rho_pos := hrho ▸ ((Settings.validate_eq_ok_iff _).mp hlegal).1
    tuned := by
      rw [hsystem, hrho]
      exact LinearSystem.Tuned.classify _ _ _ _ }

theorem setup_sound {env : Environment K} {D : QpData K} {settings : Settings K}
    {S : AdmmSession K} (h : AdmmSession.setup env D settings = .ok S) : S.session.Sound := by
  obtain ⟨hlegal, I, -, -, hI⟩ := AdmmSession.setup_eq_ok h
  obtain ⟨U, hU, hfactor⟩ := setup_eq_ok_iff.mp hI
  have hsound := (factorSystem_continues (unfactored_sound hlegal hU)).sound
  rwa [hfactor] at hsound

/-! ### New data -/

omit [IsStrictOrderedRing K] in
theorem updateVectors_sound (h : S.Sound) (q l u : Option (Array K)) :
    (S.updateVectors q l u).2.Sound := by
  unfold updateVectors
  split
  · exact h
  · rename_i new _
    have hscaled := Problem.scaleVectors_scaled h.scaled (new.q.getD S.data.user.q) new.l new.u
    simp only
    split
    · rename_i hkinds
      exact ⟨hscaled, h.legal, h.rho_pos, h.tuned.reclassify hkinds⟩
    · exact factorUnsolved_sound
        ⟨hscaled, h.legal, h.rho_pos, LinearSystem.Tuned.classify _ _ _ _⟩

theorem updateMatrices_sound (h : S.Sound) (Px : Option (Array K)) (PxIdx : Option (Array Nat))
    (Ax : Option (Array K)) (AxIdx : Option (Array Nat)) :
    (S.updateMatrices Px PxIdx Ax AxIdx).2.Sound := by
  unfold updateMatrices
  split
  · exact h
  · split
    · exact h
    · exact factorUnsolved_sound ⟨Problem.equilibrate_scaled _ _, h.legal, h.rho_pos,
        LinearSystem.Tuned.classify _ _ _ _⟩

end Session
end QuadOpt
