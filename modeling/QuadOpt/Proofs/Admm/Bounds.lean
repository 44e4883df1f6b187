/-
# Bounds beyond the limit

A setup compares the bounds that it is given, and then limits their magnitude: that of a
lower bound from below only, that of an upper bound from above only. An update compares
what is left of them. The two agree on bounds unless a lower one is above the limit, or an
upper one below its negative; a setup lets such bounds pass, stores them crossed, and an
update refuses them.

Apart from that, a session takes the vectors that it was given again, and does not even
factor its system for them.

Key definitions: `QpData.WithinLimits`, `Instance.Bounded`, `Session.Retains`.
Key theorems: `Instance.Acceptable.clamped_le_iff`, `Session.updateVectors_crossed_iff`,
`Session.after_bounded`, `Session.setup_retains`, `Session.Retains.updateVectors`.
-/
import QuadOpt.Proofs.Admm.UserData
import QuadOpt.Proofs.Numbers

namespace QuadOpt

open Scalar OrderedScalar

variable {α : Type} [Scalar α] {n m : Nat}

/-! ### Limits -/

/-- No lower bound is above the limit of bounds, and no upper bound below its negative. -/
structure QpData.WithinLimits (D : QpData α) : Prop where
  lower : ∀ t ∈ D.l, t ≤ Limits.infinity
  upper : ∀ t ∈ D.u, -Limits.infinity ≤ t

/-- The bounds of each constraint are ordered and of limited magnitude. -/
structure Instance.Bounded (I : Instance α n m) : Prop where
  ordered : ∀ i, I.l.get i ≤ I.u.get i
  lower : ∀ i, -Limits.infinity ≤ I.l.get i ∧ I.l.get i ≤ Limits.infinity
  upper : ∀ i, -Limits.infinity ≤ I.u.get i ∧ I.u.get i ≤ Limits.infinity

instance (D : QpData α) : Decidable D.WithinLimits :=
  decidable_of_iff ((∀ t ∈ D.l, t ≤ Limits.infinity) ∧ ∀ t ∈ D.u, -Limits.infinity ≤ t)
    ⟨fun h => ⟨h.1, h.2⟩, fun h => ⟨h.1, h.2⟩⟩

instance (I : Instance α n m) : Decidable I.Bounded :=
  decidable_of_iff ((∀ i, I.l.get i ≤ I.u.get i) ∧
      (∀ i, -Limits.infinity ≤ I.l.get i ∧ I.l.get i ≤ Limits.infinity) ∧
      ∀ i, -Limits.infinity ≤ I.u.get i ∧ I.u.get i ≤ Limits.infinity)
    ⟨fun h => ⟨h.1, h.2.1, h.2.2⟩, fun h => ⟨h.1, h.2, h.3⟩⟩

omit [Scalar α] in
theorem Vec.forall_mem_toArray (v : Vec α n) (p : α → Prop) :
    (∀ t ∈ v.toArray, p t) ↔ ∀ i, p (v.get i) := by
  constructor
  · intro h i
    exact h _ (Array.getElem_mem _)
  · intro h t ht
    obtain ⟨i, hi, rfl⟩ := Array.mem_iff_getElem.mp ht
    exact h ⟨i, by simpa using hi⟩

namespace Instance

variable [OrderedScalar α] {I : Instance α n m}

/-- Bounds are ordered after their magnitude was limited iff the limits do not cross them. -/
theorem Acceptable.clamped_le_iff (h : I.Acceptable) :
    (∀ i, (clampLower I.l).get i ≤ (clampUpper I.u).get i) ↔ I.toQpData.WithinLimits := by
  have hl : ∀ i, isNaN (I.l.get i) = false := by
    have hlower := h.lower
    rw [Array.any_eq_false'] at hlower
    exact (Vec.forall_mem_toArray I.l _).mp fun t ht => Bool.eq_false_iff.mpr (hlower t ht)
  have hu : ∀ i, isNaN (I.u.get i) = false := by
    have hupper := h.upper
    rw [Array.any_eq_false'] at hupper
    exact (Vec.forall_mem_toArray I.u _).mp fun t ht => Bool.eq_false_iff.mpr (hupper t ht)
  have hlimits : -Limits.infinity ≤ (Limits.infinity : α) := limits
  have hrow : ∀ i, (clampLower I.l).get i ≤ (clampUpper I.u).get i ↔
      I.l.get i ≤ Limits.infinity ∧ -Limits.infinity ≤ I.u.get i := by
    intro i
    have hordered : I.l.get i ≤ I.u.get i := (not_lt_iff (hl i) (hu i)).mp (h.uncrossed i)
    unfold clampLower clampUpper
    rw [Vec.get_map, Vec.get_map, maxNum_le_iff (hl i) (isNaN_left hlimits),
      le_minNum_iff (hu i) (isNaN_right hlimits), le_minNum_iff (hu i) (isNaN_right hlimits)]
    simp only [hordered, hlimits, true_and, and_true]
  constructor
  · intro hle
    exact ⟨(Vec.forall_mem_toArray I.l _).mpr fun i => ((hrow i).mp (hle i)).1,
      (Vec.forall_mem_toArray I.u _).mpr fun i => ((hrow i).mp (hle i)).2⟩
  · intro hwithin i
    exact (hrow i).mpr ⟨(Vec.forall_mem_toArray I.l _).mp hwithin.lower i,
      (Vec.forall_mem_toArray I.u _).mp hwithin.upper i⟩

/-- Bounds that were limited, and are ordered after that, are limited from both sides. -/
theorem Bounded.of_clamped {D : QpData α} (hclamped : I.toQpData = D.clamped)
    (hordered : ∀ i, I.l.get i ≤ I.u.get i) : I.Bounded := by
  have hlower : ∀ i, -Limits.infinity ≤ I.l.get i := by
    apply (Vec.forall_mem_toArray I.l (-Limits.infinity ≤ ·)).mp
    intro t ht
    have ht : t ∈ D.clamped.l := congrArg QpData.l hclamped ▸ ht
    obtain ⟨t, -, rfl⟩ := Array.mem_map.mp ht
    exact le_maxNum_right (isNaN_left limits)
  have hupper : ∀ i, I.u.get i ≤ Limits.infinity := by
    apply (Vec.forall_mem_toArray I.u (· ≤ Limits.infinity)).mp
    intro t ht
    have ht : t ∈ D.clamped.u := congrArg QpData.u hclamped ▸ ht
    obtain ⟨t, -, rfl⟩ := Array.mem_map.mp ht
    exact minNum_le_right (isNaN_right limits)
  exact ⟨hordered, fun i => ⟨hlower i, le_trans (hordered i) (hupper i)⟩,
    fun i => ⟨le_trans (hlower i) (hordered i), hupper i⟩⟩

end Instance

namespace QpData

variable {D : QpData α} {q l u : Array α}

/-- The vectors that a problem was given are admitted again iff the limits do not cross their
bounds. -/
theorem admitsVectors_clamped_iff [OrderedScalar α] {I : Instance α n m} (h : I.Acceptable) :
    let D := I.toQpData
    D.clamped.admitsVectors (some D.q) (some D.l) (some D.u) = true ↔ D.WithinLimits := by
  intro D
  have hordered : ((D.clamped.l.zip D.clamped.u).all fun b => decide (b.1 ≤ b.2)) = true ↔
      D.WithinLimits :=
    (Vec.all_zip_toArray (clampLower I.l) (clampUpper I.u)).trans h.clamped_le_iff
  rw [← hordered]
  simp [admitsVectors, requested, clamped, D, h.finiteq, h.lower, h.upper, Array.size_map]

theorem requested_requested :
    (D.requested (.updateVectors (some q) (some l) (some u))).requested
        (.updateVectors (some q) (some l) (some u))
      = D.requested (.updateVectors (some q) (some l) (some u)) := rfl

/-- Vectors that are admitted are admitted again. -/
theorem admitsVectors_requested (h : D.admitsVectors (some q) (some l) (some u) = true) :
    (D.requested (.updateVectors (some q) (some l) (some u))).admitsVectors
      (some q) (some l) (some u) = true := by
  simp only [admitsVectors, Option.all_some, Bool.and_eq_true, requested_requested] at h ⊢
  obtain ⟨⟨⟨⟨-, hq⟩, hl⟩, hu⟩, hordered⟩ := h
  refine ⟨⟨⟨⟨?_, hq⟩, hl⟩, hu⟩, hordered⟩
  simp [requested, clamped]

end QpData

/-! ### Sessions -/

namespace Session

variable {S T : Session α n m} {q l u : Array α}

/-- The session was given the vectors, would admit them again, and has classified the
constraints by what it made of the bounds. -/
structure Retains (S : Session α n m) (q l u : Array α) : Prop where
  admits : S.data.user.toQpData.admitsVectors (some q) (some l) (some u) = true
  requested : S.data.user.toQpData.requested (.updateVectors (some q) (some l) (some u))
    = S.data.user.toQpData
  lower : S.data.work.l = S.data.user.l.hadamard S.data.scaling.e
  upper : S.data.work.u = S.data.user.u.hadamard S.data.scaling.e
  kinds : S.system.kinds
    = Vector.ofFn fun i => .classify (S.data.work.l.get i) (S.data.work.u.get i)

theorem Retains.congr (h : S.Retains q l u) (hdata : T.data = S.data)
    (hkinds : T.system.kinds = S.system.kinds) : T.Retains q l u := by
  constructor
  · rw [hdata]
    exact h.admits
  · rw [hdata]
    exact h.requested
  · rw [hdata]
    exact h.lower
  · rw [hdata]
    exact h.upper
  · rw [hdata, hkinds]
    exact h.kinds

/-- What is left of vectors that were admitted into a problem, whichever it was. -/
theorem Retains.of_requested {D : QpData α}
    (hadmits : D.admitsVectors (some q) (some l) (some u) = true)
    (huser : S.data.user.toQpData = D.requested (.updateVectors (some q) (some l) (some u)))
    (hlower : S.data.work.l = S.data.user.l.hadamard S.data.scaling.e)
    (hupper : S.data.work.u = S.data.user.u.hadamard S.data.scaling.e)
    (hkinds : S.system.kinds
      = Vector.ofFn fun i => .classify (S.data.work.l.get i) (S.data.work.u.get i)) :
    S.Retains q l u where
  admits := by
    rw [huser]
    exact QpData.admitsVectors_requested hadmits
  requested := by
    rw [huser]
    exact QpData.requested_requested
  lower := hlower
  upper := hupper
  kinds := hkinds

/-- The vectors that a session was given last it takes over again, and need not factor its
system for them. -/
theorem Retains.updateVectors (h : S.Retains q l u) :
    (S.updateVectors (some q) (some l) (some u)).1 = .ok () := by
  rcases S.checkVectors_cases (some q) (some l) (some u) with
    ⟨-, new, hcheck, hnew⟩ | ⟨hrefused, -⟩
  · have hsame := hnew.trans h.requested
    have hl : new.l = S.data.user.l := Vector.toArray_inj.mp (congrArg QpData.l hsame)
    have hu : new.u = S.data.user.u := Vector.toArray_inj.mp (congrArg QpData.u hsame)
    have hkinds : (S.system.classify (new.l.hadamard S.data.scaling.e)
        (new.u.hadamard S.data.scaling.e)).kinds = S.system.kinds := by
      rw [hl, hu, ← h.lower, ← h.upper, h.kinds]
      rfl
    unfold Session.updateVectors
    rw [hcheck]
    exact congrArg Prod.fst (if_pos hkinds)
  · exact absurd (hrefused.symm.trans h.admits) Bool.false_ne_true

/-- A factorisation changes neither the data nor the settings, nor the kinds of the
constraints. -/
theorem factorSystem_keeps (S : Session α n m) :
    S.factorSystem.2.data = S.data ∧ S.factorSystem.2.settings = S.settings ∧
      S.factorSystem.2.system.kinds = S.system.kinds := by
  have hsame := S.factorSystem_sameCore
  refine ⟨hsame.data, hsame.settings, ?_⟩
  rw [hsame.system]
  rfl

theorem factorUnsolved_keeps {r : Except EngineError Unit} (h : S.factorUnsolved = (r, T)) :
    T.data = S.data ∧ T.settings = S.settings ∧ T.system.kinds = S.system.kinds := by
  obtain ⟨-, hsame⟩ := S.factorUnsolved_eq
  rw [h] at hsame
  rw [hsame.data, hsame.settings, hsame.system]
  exact S.factorSystem_keeps

/-- An update of all vectors that succeeds could be made again. -/
theorem updateVectors_retains (h : S.updateVectors (some q) (some l) (some u) = (.ok (), T)) :
    T.Retains q l u := by
  unfold updateVectors at h
  rcases S.checkVectors_cases (some q) (some l) (some u) with
    ⟨hadmits, new, hcheck, hnew⟩ | ⟨-, e, hcheck⟩
  · rw [hcheck] at h
    simp only at h
    -- The constraints are classified by the new bounds whether the system is factored or not.
    split at h
    · cases h
      exact .of_requested hadmits hnew rfl rfl rfl
    · obtain ⟨hdata, -, hsystem⟩ := factorUnsolved_keeps h
      exact (Retains.of_requested hadmits hnew rfl rfl rfl).congr hdata hsystem
  · rw [hcheck] at h
    cases h

/-- A solve changes neither the data nor the kinds of the constraints. -/
theorem Retains.solve (h : S.Retains q l u) (env : Environment α) :
    (S.solve env).2.Retains q l u := by
  refine solve_preserves (p := fun T => T.Retains q l u) ?_ ?_ env h
  · intro S T hsame hS
    exact hS.congr hsame.data (congrArg LinearSystem.kinds hsame.system)
  · intro S hS
    obtain ⟨hdata, -, hkinds⟩ := (S.adopt S.estimateRho).factorSystem_keeps
    exact hS.congr hdata hkinds

theorem Retains.warmStart (h : S.Retains q l u) (x y : Option (Array α)) :
    (S.warmStart x y).2.Retains q l u := by
  unfold Session.warmStart
  split
  · exact h
  · rename_i x y _
    cases x <;> cases y <;> exact h.congr rfl rfl

/-- Only new settings change the settings of a session. -/
theorem call_settings (S : Session α n m) (env : Environment α) {c : SessionCall α}
    (hc : ∀ s, c ≠ .updateSettings s) : (S.call env c).2.settings = S.settings := by
  cases c with
  | solve =>
    refine solve_preserves (p := fun T => T.settings = S.settings) ?_ ?_ env rfl
    · exact fun hsame hT => hsame.settings.trans hT
    · exact fun {T} hT => (T.adopt T.estimateRho).factorSystem_keeps.2.1.trans hT
  | updateVectors q l u =>
    show (S.updateVectors q l u).2.settings = S.settings
    unfold updateVectors
    split
    · rfl
    · simp only
      split
      · rfl
      · exact (factorUnsolved_keeps rfl).2.1
  | updateMatrices Px PxIdx Ax AxIdx =>
    show (S.updateMatrices Px PxIdx Ax AxIdx).2.settings = S.settings
    unfold updateMatrices
    split
    · rfl
    · split
      · rfl
      · exact (factorUnsolved_keeps rfl).2.1
  | warmStart x y =>
    show (S.warmStart x y).2.settings = S.settings
    unfold Session.warmStart
    split
    · rfl
    · rename_i x y _
      cases x <;> cases y <;> rfl
  | updateSettings settings => exact absurd rfl (hc settings)

theorem updateSettings_settings {settings : Settings α}
    (h : S.updateSettings settings = (.ok (), T)) : T.settings = settings := by
  unfold updateSettings at h
  split at h
  · cases h
  · split at h
    · have hsettings := (congrArg (fun r => r.2.settings) h).symm
      exact hsettings.trans (factorSystem_keeps _).2.1
    · cases h
      rfl

/-- Values of the matrices that are taken over are finite. -/
theorem updateMatrices_finite {Px Ax : Option (Array α)}
    (h : S.updateMatrices Px none Ax none = (.ok (), T)) :
    (∀ v ∈ Px, v.all isFinite = true) ∧ ∀ v ∈ Ax, v.all isFinite = true := by
  have hanswer := S.updateMatrices_answer Px none Ax none
  rw [h] at hanswer
  cases hanswer with
  | admitted hadmits _ _ =>
    have hvalues : S.data.user.toQpData.admits (.updateMatrices Px none Ax none) = true := hadmits.1
    constructor
    · rintro v ⟨⟩
      simp only [QpData.admits, Option.isNone_some, Bool.false_and, Bool.false_or,
        QpData.admitsValues, Bool.and_eq_true] at hvalues
      exact hvalues.2.1
    · rintro v ⟨⟩
      simp only [QpData.admits, Option.isNone_some, Bool.false_and, Bool.and_false, Bool.false_or,
        QpData.admitsValues, Bool.and_eq_true] at hvalues
      exact hvalues.2.2

/-- The settings of a session are taken over again without a factorisation. -/
theorem updateSettings_self [OrderedScalar α] (hlegal : S.settings.validate = .ok ()) :
    S.updateSettings S.settings = (.ok (), S) := by
  have hpositive := (Settings.validate_eq_ok_iff S.settings).mp hlegal
  have hrho : (S.settings.rho == S.settings.rho) = true := beq_self (isNaN_of_lt hpositive.1).2
  have hsigma : (S.settings.sigma == S.settings.sigma) = true :=
    beq_self (isNaN_of_lt hpositive.2.1).2
  have hvalid : S.settings.validateUpdate S.settings = .ok () :=
    (Settings.validateUpdate_eq_ok_iff _ _).mpr ⟨hlegal, hsigma, rfl, rfl, rfl⟩
  unfold updateSettings
  rw [hvalid]
  simp only [bne, hrho, Bool.not_true, Bool.false_eq_true, if_false]

variable {env : Environment α} {D : QpData α} {settings : Settings α} {A : AdmmSession α}

/-- A session that was set up is left with its vectors, if the limits do not cross the
bounds. -/
theorem setup_retains [OrderedScalar α] (h : AdmmSession.setup env D settings = .ok A)
    (hD : D.WithinLimits) : A.session.Retains D.q D.l D.u := by
  obtain ⟨I, rfl, hacceptable, hdata⟩ := setup_data h
  constructor
  · rw [setup_userData h]
    exact (QpData.admitsVectors_clamped_iff hacceptable).mpr hD
  · rw [setup_userData h]
    rfl
  · rw [hdata]
    rfl
  · rw [hdata]
    rfl
  · exact (setup_filled h).tuned.kinds

/-- The vectors of a setup are refused when they are given again iff the limits cross their
bounds. -/
theorem setup_refuses_iff [OrderedScalar α] (h : AdmmSession.setup env D settings = .ok A)
    (env' : Environment α) :
    (∃ f, (A.session.call env' (.updateVectors (some D.q) (some D.l) (some D.u))).1
        = .error (.dataUpdate f)) ↔ ¬D.WithinLimits := by
  obtain ⟨-, I, rfl, hacceptable, -⟩ := AdmmSession.setup_eq_ok h
  rw [call_dataUpdate_iff, setup_userData h, ← Bool.not_eq_true]
  exact not_congr (QpData.admitsVectors_clamped_iff hacceptable)

theorem setup_settings (h : AdmmSession.setup env D settings = .ok A) :
    A.session.settings = settings := by
  obtain ⟨-, I, -, -, hI⟩ := AdmmSession.setup_eq_ok h
  obtain ⟨U, hU, hfactor⟩ := setup_eq_ok_iff.mp hI
  have hsame := U.factorSystem_keeps.2.1
  rw [hfactor] at hsame
  exact hsame.trans (unfactored_eq_ok hU).2.1

/-! ### Stored bounds -/

/-- A call that is admitted only ever stores bounds that were limited and compared. -/
theorem call_bounded [OrderedScalar α] (h : S.data.user.Bounded) (env : Environment α)
    (c : SessionCall α) : (S.call env c).2.data.user.Bounded := by
  have hanswer := S.call_answer env c
  cases hcall : S.call env c with
  | mk r T =>
    rw [hcall] at hanswer
    cases hanswer with
    | refused _ _ _ => exact h
    | admitted hadmits _ hdata =>
      cases c with
      | updateVectors q l u =>
        have hordered : ((T.data.user.l.toArray.zip T.data.user.u.toArray).all
            fun b => decide (b.1 ≤ b.2)) = true := by
          have hnew : S.data.user.toQpData.admitsVectors q l u = true := hadmits.1
          simp only [QpData.admitsVectors, ← hdata, Bool.and_eq_true] at hnew
          exact hnew.2
        exact .of_clamped hdata ((Vec.all_zip_toArray _ _).mp hordered)
      | solve | updateMatrices | warmStart | updateSettings =>
        have hl : T.data.user.l = S.data.user.l :=
          Vector.toArray_inj.mp (congrArg QpData.l hdata)
        have hu : T.data.user.u = S.data.user.u :=
          Vector.toArray_inj.mp (congrArg QpData.u hdata)
        constructor
        · rw [hl, hu]
          exact h.ordered
        · rw [hl]
          exact h.lower
        · rw [hu]
          exact h.upper

theorem after_bounded [OrderedScalar α] (h : S.data.user.Bounded)
    (history : List (Environment α × SessionCall α)) : (S.after history).data.user.Bounded := by
  induction history generalizing S with
  | nil => exact h
  | cons e history ih => exact ih (call_bounded h e.1 e.2)

/-- The stored bounds are ordered and limited, whatever calls a session has seen, iff the
limits do not cross the bounds of the setup. -/
theorem after_bounded_iff [OrderedScalar α] (h : AdmmSession.setup env D settings = .ok A) :
    (∀ history, (A.session.after history).data.user.Bounded) ↔ D.WithinLimits := by
  have huser := setup_userData h
  obtain ⟨-, I, rfl, hacceptable, -⟩ := AdmmSession.setup_eq_ok h
  have hl : A.session.data.user.l = clampLower I.l :=
    Vector.toArray_inj.mp (congrArg QpData.l huser)
  have hu : A.session.data.user.u = clampUpper I.u :=
    Vector.toArray_inj.mp (congrArg QpData.u huser)
  rw [← hacceptable.clamped_le_iff, ← hl, ← hu]
  constructor
  · intro hbounded
    exact (hbounded []).ordered
  · intro hordered history
    exact after_bounded (.of_clamped huser hordered) history

end Session
end QuadOpt
