/-
# Solving an unchanged model again

A solve that succeeded leaves a session that retains the vectors of the problem, and copies
of its matrices. The next solve of the same model then finds nothing to push but the
vectors, and the session takes these over again. So whatever else may go wrong, the problem
is not refused on its way into the session, as long as the limits do not cross the bounds.

Key definitions: `Workspace.Carries`, `Model.Brought`, `ModelM.Spares`.
Key theorems: `Model.solve_brought`, `Model.on_pushChanges`, `Model.bring_cases`,
`Model.resolve_spares`.
-/
import QuadOpt.Proofs.Admm.Bounds
import QuadOpt.Proofs.Admm.Undefined
import QuadOpt.Proofs.Model.Held

namespace QuadOpt

open Scalar OrderedScalar ModelM

/-! ### Errors -/

section Errors

variable {α ε σ : Type}

namespace ModelM

variable {β γ : Type} {M : Model α ε σ} {x : ModelM α ε σ β}

/-- On the model the computation does not fail with an error of an update. -/
def Spares (x : ModelM α ε σ β) (M : Model α ε σ) : Prop := ∀ e, (on x M).1 ≠ .error (.update e)

namespace Spares

theorem bind {y : ModelM α ε σ γ} {f : γ → ModelM α ε σ β} (hy : Spares y M)
    (hf : ∀ c N, on y M = (.ok c, N) → Spares (f c) N) : Spares (y >>= f) M := by
  intro e
  have hy := hy e
  rw [on_bind]
  cases h : on y M with
  | mk r N =>
    rw [h] at hy
    cases r with
    | ok c => exact hf c N h e
    | error d => exact fun hd => hy (congrArg Except.error (Except.error.inj hd))

theorem get_bind {f : Model α ε σ → ModelM α ε σ β} (h : Spares (f M) M) :
    Spares (get >>= f) M := by
  refine bind (fun e => by rw [on_get]; nofun) fun N N' hN => ?_
  rw [on_get] at hN
  cases hN
  exact h

theorem congr {y : ModelM α ε σ β} {N : Model α ε σ} (h : Spares y N) (hxy : on x M = on y N) :
    Spares x M := by
  intro e
  rw [hxy]
  exact h e

end Spares
end ModelM

namespace Model

variable (E : Engine α ε σ) {M : Model α ε σ}

theorem report_spares (lines : List String) : Spares (report lines) M := by
  refine Spares.get_bind ?_
  split
  · rcases M.output.writeLines lines with ⟨r | r, o⟩ <;> nofun
  · nofun

theorem callSession_spares {phase : EngineError → ModelError} (hphase : ∀ f e, phase f ≠ .update e)
    (c : SessionCall α) : Spares (callSession E phase c) M := by
  intro e
  cases hs : M.workspace with
  | some w =>
    rcases hc : E.call c w.session M.shared with ⟨r, S, e'⟩
    rw [on_callSession E phase c hs hc]
    cases r with
    | ok u => nofun
    | error f => exact fun h => hphase f e (Except.error.inj h)
  | none =>
    rw [on_callSession_of_none E phase c hs]
    nofun

/-- A new session is set up, or is refused by the engine. -/
theorem startSession_cases (F : StandardForm α) :
    (∃ f N, on (startSession E F) M = (.error (.setup f), N)) ∨
      ∃ N, on (startSession E F) M = (.ok (), N) ∧ N.startPoint = M.startPoint := by
  have hstart : (discardSession E M).startPoint = M.startPoint := by
    unfold discardSession dropSession
    split <;> rfl
  unfold startSession
  have hmodify : on (modify (discardSession E) : ModelM α ε σ PUnit) M
      = (.ok ⟨⟩, discardSession E M) := rfl
  simp only [on_bind, hmodify, on_get]
  rcases E.setup F.toQpData (discardSession E M).settings (discardSession E M).shared
    with ⟨f | S, e⟩
  · exact .inl ⟨f, _, rfl⟩
  · exact .inr ⟨_, rfl, hstart⟩

theorem passStartPoint_spares (F : StandardForm α) (h : M.startPoint = none) :
    Spares (passStartPoint E F) M := by
  refine Spares.get_bind ?_
  rw [h]
  nofun

/-- How a solve of a live model begins: the outcome of an earlier one is gone, and the path is
chosen. -/
theorem on_prepare [Scalar α] [ScalarText α] {F : StandardForm α} (hlive : M.requireLive = .ok ())
    (hform : M.standardForm = .ok F) :
    on (prepare E) M = on (do
      report (configurationReport F M.settings (M.choosePath E F))
      bring E F (M.choosePath E F)
      passStartPoint E F
      return (F, M.choosePath E F)) { M with solution := none } := by
  have hmodify : on (modify fun M => { M with solution := none } : ModelM α ε σ PUnit) M
      = (.ok ⟨⟩, { M with solution := none }) := rfl
  have hform' : ({ M with solution := none } : Model α ε σ).standardForm = .ok F := hform
  unfold prepare
  simp only [on_bind, on_get, on_lift, hlive, hmodify, hform']
  rfl

theorem runSession_spares [Scalar α] [ScalarText α] (F : StandardForm α) (path : SolvePath) :
    Spares (runSession E F path) M := by
  have hphase : ∀ f e, ModelError.solve f ≠ .update e := fun _ _ h => ModelError.noConfusion h
  refine Spares.bind (callSession_spares E hphase _) fun _ N _ => Spares.bind ?_ fun r N' _ =>
    Spares.bind (report_spares _) fun _ _ _ => nofun
  refine Spares.get_bind ?_
  cases N.session? <;> nofun

end Model

end Errors

variable {α : Type} [Scalar α]

/-! ### Values that are not pushed again -/

omit [Scalar α] in
theorem beq_array_iff [BEq α] {v w : Array α} : (v == w) = true ↔ v.size = w.size ∧
    ∀ i (hv : i < v.size) (hw : i < w.size), (v[i] == w[i]) = true := by
  constructor
  · intro h
    obtain ⟨hsize, hentries⟩ := Array.isEqv_iff_rel.mp h
    exact ⟨hsize, fun i hv _ => hentries i hv⟩
  · intro h
    obtain ⟨hsize, hentries⟩ := h
    apply Array.isEqv_iff_rel.mpr
    exact ⟨hsize, fun i hv => hentries i hv (hsize ▸ hv)⟩

namespace Model

variable {M N : Csc α}

theorem newValues_eq_none_iff : newValues M N = none ↔ (M.nzval == N.nzval) = true := by
  unfold newValues bne
  cases M.nzval == N.nzval <;> simp

variable [OrderedScalar α]

/-- Finite numbers are no new values. -/
theorem newValues_self (h : N.nzval.all isFinite = true) : newValues N N = none := by
  rw [newValues_eq_none_iff, beq_array_iff]
  rw [Array.all_eq_true] at h
  exact ⟨rfl, fun i hi _ => beq_self (isNaN_of_isFinite (h i hi))⟩

/-- Values that were not new, or were found finite, are not new when they have replaced the
old ones. -/
theorem newValues_again (h : ∀ v ∈ newValues M N, v.all isFinite = true) :
    newValues N N = none := by
  cases hnew : newValues M N with
  | none =>
    rw [newValues_eq_none_iff, beq_array_iff] at hnew ⊢
    obtain ⟨hsize, hentries⟩ := hnew
    refine ⟨rfl, fun i hi _ => ?_⟩
    have hi := hentries i (hsize ▸ hi) hi
    exact BEq.trans (BEq.symm hi) hi
  | some v =>
    have hv : N.nzval = v := by
      unfold newValues at hnew
      split at hnew
      · exact Option.some.inj hnew
      · cases hnew
    apply newValues_self
    rw [hv]
    exact h v hnew

end Model

/-! ### What a solve leaves behind -/

variable {env : Environment α} {F : StandardForm α} {s : Settings α}

/-- A call of the engine is a call of the session. -/
theorem admmEngine_call {c : SessionCall α} {S T : AdmmSession α} {r : Except EngineError Unit}
    {e e' : Unit} (h : (admmEngine env).call c S e = (r, T, e')) :
    ∃ U : Session α S.n S.m, S.session.call env c = (r, U) ∧ T = ⟨S.n, S.m, U⟩ := by
  cases hcall : S.session.call env c with
  | mk r' U =>
    simp only [admmEngine, AdmmSession.call, hcall] at h
    cases h
    exact ⟨U, rfl, rfl⟩

/-- The session of the workspace retains the vectors of a problem and has the settings `s`,
and the matrices of the problem have no values that the workspace does not know. -/
structure Workspace.Carries (w : Workspace α (AdmmSession α)) (F : StandardForm α)
    (s : Settings α) : Prop where
  retains : w.session.session.Retains F.q F.l F.u
  settings : Agree w.session.session.settings s
  P : Model.newValues w.P F.P = none
  A : Model.newValues w.A F.A = none

namespace Model

variable {M₀ : Model α Unit (AdmmSession α)}

/-- The model is that of `M₀`, with a session that the problem was brought into. -/
def Brought (F : StandardForm α) (M₀ M : Model α Unit (AdmmSession α)) : Prop :=
  SameContents M₀ M ∧ ∃ w, M.workspace = some w ∧ w.Carries F M₀.settings

/-- A call that is not an update keeps what was brought into the session. -/
theorem callSession_brought {phase : EngineError → ModelError} {c : SessionCall α}
    {P : Model α Unit (AdmmSession α) → Prop}
    (hretains : ∀ {n m} {S : Session α n m}, S.Retains F.q F.l F.u →
      (S.call env c).2.Retains F.q F.l F.u)
    (hc : ∀ s, c ≠ .updateSettings s) (hP : ∀ M w e, P M → P { M with workspace := w, shared := e }) :
    Ensures (fun M => Brought F M₀ M ∧ P M) (callSession (admmEngine env) phase c)
      (fun _ M => Brought F M₀ M ∧ P M) (fun _ => True) := by
  refine callSession_ensures _ _ _ ?_ fun _ _ _ => trivial
  rintro M w r S e ⟨⟨hM, v, hv, hcarries⟩, hPM⟩ hw hcall
  obtain rfl : v = w := by simpa [hv] using hw
  obtain ⟨U, hU, rfl⟩ := admmEngine_call hcall
  have hsettings := v.session.session.call_settings env hc
  have hU' := hretains hcarries.retains
  rw [hU] at hsettings hU'
  refine ⟨fun _ => ⟨⟨⟨hM.1, hM.2, hM.3, hM.4⟩, _, rfl, ?_⟩, hP _ _ _ hPM⟩, fun _ => trivial⟩
  refine ⟨hU', ?_, hcarries.P, hcarries.A⟩
  have hagree := hcarries.settings
  rwa [← hsettings] at hagree

variable [OrderedScalar α]

theorem startSession_brought (hF : F.toQpData.WithinLimits) :
    Ensures (SameContents M₀) (startSession (admmEngine env) F) (fun _ => Brought F M₀)
      (fun _ => True) := by
  refine Ensures.bind (R := fun _ => SameContents M₀) (Ensures.modify fun M hM => ?_) fun _ =>
    Ensures.get_bind fun M hM => ?_
  · obtain ⟨h1, h2, h3, h4⟩ := discardSession_contents (admmEngine env) M
    exact ⟨h1.trans hM.1, h2.trans hM.2, h3.trans hM.3, h4.trans hM.4⟩
  · rcases hs : (admmEngine env).setup F.toQpData M.settings M.shared with ⟨f | S, e⟩
    · exact Ensures.bind (R := fun _ _ => True) (Ensures.set trivial) fun _ =>
        Ensures.throw fun _ _ => trivial
    · refine Ensures.set ⟨⟨hM.1, hM.2, hM.3, hM.4⟩, _, rfl, ?_⟩
      have hsetup : AdmmSession.setup env F.toQpData M.settings = .ok S := congrArg Prod.fst hs
      obtain ⟨-, I, hdata, hacceptable, -⟩ := AdmmSession.setup_eq_ok hsetup
      have hfinite := hacceptable.toNumeric
      rw [hdata] at hfinite
      exact {
        retains := Session.setup_retains hsetup hF
        settings := .inl ((Session.setup_settings hsetup).trans hM.settings)
        P := newValues_self hfinite.finiteP
        A := newValues_self hfinite.finiteA }

omit [OrderedScalar α] in
theorem pushSettings_brought :
    Ensures (SameContents M₀) (pushSettings (admmEngine env))
      (fun _ M => SameContents M₀ M ∧ ∀ w, M.workspace = some w →
        Agree w.session.session.settings M₀.settings) (fun _ => True) := by
  refine Ensures.get_bind fun M hM => ?_
  split
  · rename_i w hw
    split
    · refine callSession_ensures _ _ _ ?_ fun _ _ _ => trivial
      rintro _ w' r S e rfl - hcall
      refine ⟨fun hr => ⟨⟨hM.1, hM.2, hM.3, hM.4⟩, ?_⟩, fun _ => trivial⟩
      rintro _ ⟨⟩
      obtain ⟨U, hU, rfl⟩ := admmEngine_call hcall
      rw [hr] at hU
      exact .inl ((Session.updateSettings_settings hU).trans hM.settings)
    · rename_i hsame
      have hsame : ¬(w.session.session.settings != M.settings) = true := hsame
      refine Ensures.pure fun N hN => ?_
      subst hN
      refine ⟨hM, fun v hv => .inr ?_⟩
      obtain rfl : w = v := by simpa [hw] using hv
      rw [← hM.settings]
      simpa [bne] using hsame
  · rename_i hnone
    refine Ensures.pure fun N hN => ?_
    subst hN
    exact ⟨hM, fun w hw => by cases hnone.symm.trans hw⟩

/-- The session of the model has the settings of `M₀`, and there are no new matrices. -/
def Matched (F : StandardForm α) (M₀ M : Model α Unit (AdmmSession α)) : Prop :=
  SameContents M₀ M ∧ ∀ w, M.workspace = some w →
    Agree w.session.session.settings M₀.settings ∧ newValues w.P F.P = none ∧
      newValues w.A F.A = none

theorem pushMatrices_brought :
    Ensures (fun M => SameContents M₀ M ∧ ∀ w, M.workspace = some w →
        Agree w.session.session.settings M₀.settings)
      (pushMatrices (admmEngine env) F) (fun _ => Matched F M₀) (fun _ => True) := by
  refine Ensures.get_bind fun M ⟨hM, hsettings⟩ => ?_
  split
  · rename_i w hw
    simp only
    split
    · refine Ensures.bind (R := fun _ N => SameContents M₀ N ∧ ∃ v, N.workspace = some v ∧
          Agree v.session.session.settings M₀.settings ∧
          (∀ t ∈ newValues w.P F.P, t.all isFinite = true) ∧
          ∀ t ∈ newValues w.A F.A, t.all isFinite = true)
        (callSession_ensures _ _ _ ?_ fun _ _ _ => trivial) fun _ => Ensures.modify ?_
      · rintro _ w' r S e rfl hw' hcall
        obtain rfl : w = w' := by simpa [hw] using hw'
        refine ⟨fun hr => ?_, fun _ => trivial⟩
        obtain ⟨U, hU, rfl⟩ := admmEngine_call hcall
        have hkeeps := w.session.session.call_settings env
          (c := .updateMatrices (newValues w.P F.P) none (newValues w.A F.A) none) nofun
        rw [hU] at hkeeps
        rw [hr] at hU
        refine ⟨⟨hM.1, hM.2, hM.3, hM.4⟩, _, rfl, ?_, Session.updateMatrices_finite hU⟩
        have hagree := hsettings w hw
        rwa [← hkeeps] at hagree
      · rintro N ⟨hN, v, hv, hagree, hP, hA⟩
        unfold copyMatrices
        rw [hv]
        refine ⟨⟨hN.1, hN.2, hN.3, hN.4⟩, ?_⟩
        rintro _ ⟨⟩
        exact ⟨hagree, newValues_again hP, newValues_again hA⟩
    · rename_i hnone
      simp only [Bool.not_eq_true, Bool.or_eq_false_iff, Option.isSome_eq_false_iff,
        Option.isNone_iff_eq_none] at hnone
      refine Ensures.pure fun N hN => ?_
      subst hN
      refine ⟨hM, fun v hv => ?_⟩
      obtain rfl : w = v := by simpa [hw] using hv
      exact ⟨hsettings w hw, hnone⟩
  · rename_i hnone
    refine Ensures.pure fun N hN => ?_
    subst hN
    exact ⟨hM, fun w hw => by cases hnone.symm.trans hw⟩

theorem pushChanges_brought :
    Ensures (SameContents M₀) (pushChanges (admmEngine env) F) (fun _ => Brought F M₀)
      (fun _ => True) := by
  refine pushSettings_brought.bind fun _ => pushMatrices_brought.bind fun _ =>
    callSession_ensures _ _ _ ?_ fun _ _ _ => trivial
  rintro M w r S e ⟨hM, hmatched⟩ hw hcall
  obtain ⟨hagree, hP, hA⟩ := hmatched w hw
  refine ⟨fun hr => ⟨⟨hM.1, hM.2, hM.3, hM.4⟩, _, rfl, ?_⟩, fun _ => trivial⟩
  obtain ⟨U, hU, rfl⟩ := admmEngine_call hcall
  have hkeeps := w.session.session.call_settings env
    (c := .updateVectors (some F.q) (some F.l) (some F.u)) nofun
  rw [hU] at hkeeps
  rw [hr] at hU
  refine ⟨Session.updateVectors_retains hU, ?_, hP, hA⟩
  rwa [← hkeeps] at hagree

/-- By whichever path the problem came into the session, the session carries it then. -/
theorem bring_brought (hF : F.toQpData.WithinLimits) (path : SolvePath) :
    Ensures (SameContents M₀) (bring (admmEngine env) F path) (fun _ => Brought F M₀)
      (fun _ => True) := by
  cases path with
  | setup => exact startSession_brought hF
  | rebuild => exact startSession_brought hF
  | update =>
    refine pushChanges_brought.tryCatch fun e => ?_
    exact Ensures.bind (R := fun _ _ => True) (Ensures.modify fun _ _ => trivial) fun _ =>
      Ensures.throw fun _ _ => trivial

omit [OrderedScalar α] in
/-- The start point is used up. -/
theorem passStartPoint_brought :
    Ensures (Brought F M₀) (passStartPoint (admmEngine env) F)
      (fun _ M => Brought F M₀ M ∧ M.startPoint = none) (fun _ => True) := by
  refine Ensures.get_bind fun M hM => ?_
  cases hp : M.startPoint with
  | none => exact Ensures.pure fun N hN => hN ▸ ⟨hM, hp⟩
  | some p =>
    refine Ensures.bind (R := fun _ N => Brought F M₀ N ∧ N.startPoint = none)
      (Ensures.modify ?_) fun _ => Ensures.bind
        (R := fun _ N => Brought F M₀ N ∧ N.startPoint = none)
        (Ensures.lift (fun _ _ hN _ => hN) fun _ _ => trivial) fun _ =>
      callSession_brought (fun hS => hS.warmStart p.x p.y) nofun fun _ _ _ hN => hN
    rintro _ rfl
    obtain ⟨hc, w, hw, hcarries⟩ := hM
    exact ⟨⟨⟨hc.1, hc.2, hc.3, hc.4⟩, w, hw, hcarries⟩, rfl⟩

variable [ScalarText α]

theorem prepare_brought (hform : M₀.standardForm = .ok F) (hF : F.toQpData.WithinLimits) :
    Ensures (SameContents M₀) (prepare (admmEngine env))
      (fun b M => b.1 = F ∧ Brought F M₀ M ∧ M.startPoint = none) (fun _ => True) := by
  refine Ensures.get_bind fun M hM => Ensures.bind (R := fun _ => SameContents M₀)
    (Ensures.lift (fun _ _ hN _ => hN ▸ hM) fun _ _ => trivial) fun _ =>
    Ensures.bind (R := fun _ => SameContents M₀)
      (Ensures.modify fun N hN => ⟨hN.1, hN.2, hN.3, hN.4⟩) fun _ => Ensures.get_bind fun N hN => ?_
  refine Ensures.bind (R := fun G N' => G = F ∧ SameContents M₀ N')
    (Ensures.lift (fun N' G hN' hG => ⟨?_, hN' ▸ hN⟩) fun _ _ => trivial) fun G => ?_
  · rw [hN.standardForm, hform] at hG
    exact (Except.ok.inj hG).symm
  · refine Ensures.bind (R := fun _ N' => G = F ∧ SameContents M₀ N')
      ((report_ensures _ fun N' o ⟨hG, hN'⟩ => ⟨hG, hN'.1, hN'.2, hN'.3, hN'.4⟩).weaken
        (fun _ => id) (fun _ _ => id) fun _ _ => trivial) fun _ => ?_
    rintro N' ⟨rfl, hN'⟩
    exact Ensures.bind (bring_brought hF _) (fun _ => Ensures.bind passStartPoint_brought
      fun _ => Ensures.pure fun _ h => ⟨rfl, h⟩) N' hN'

omit [OrderedScalar α] in
theorem runSession_brought (path : SolvePath) :
    Ensures (fun M => Brought F M₀ M ∧ M.startPoint = none)
      (runSession (admmEngine env) F path)
      (fun _ M => Brought F M₀ M ∧ M.startPoint = none) (fun _ => True) := by
  refine Ensures.bind (callSession_brought (fun hS => hS.solve env) nofun fun _ _ _ hN => hN)
    fun _ => Ensures.bind (R := fun _ M => Brought F M₀ M ∧ M.startPoint = none)
      (Ensures.get_bind fun M hM => ?_) fun _ => Ensures.bind
        (R := fun _ M => Brought F M₀ M ∧ M.startPoint = none) ?_ fun _ => Ensures.pure fun _ => id
  · cases M.session? with
    | none => exact Ensures.throw fun _ _ => trivial
    | some S =>
      refine Ensures.bind (R := fun _ N => Brought F M₀ N ∧ N.startPoint = none)
        (Ensures.modify ?_) fun _ => Ensures.pure fun _ => id
      rintro _ rfl
      obtain ⟨⟨hc, w, hw, hcarries⟩, hstart⟩ := hM
      exact ⟨⟨⟨hc.1, hc.2, hc.3, hc.4⟩, w, hw, hcarries⟩, hstart⟩
  · refine (report_ensures _ ?_).weaken (fun _ => id) (fun _ _ => id) fun _ _ => trivial
    rintro M o ⟨⟨hc, w, hw, hcarries⟩, hstart⟩
    exact ⟨⟨⟨hc.1, hc.2, hc.3, hc.4⟩, w, hw, hcarries⟩, hstart⟩

/-- A solve that succeeds leaves a session that the problem was brought into, and uses the
start point up. -/
theorem solve_brought (hform : M₀.standardForm = .ok F) (hF : F.toQpData.WithinLimits) :
    Ensures (SameContents M₀) (solve (admmEngine env))
      (fun _ M => Brought F M₀ M ∧ M.startPoint = none) (fun _ => True) := by
  refine (prepare_brought hform hF).bind fun b M ⟨hb, hM⟩ => ?_
  obtain ⟨G, path⟩ := b
  obtain rfl : G = F := hb
  exact runSession_brought path M hM

/-! ### The next solve -/

variable {M : Model α Unit (AdmmSession α)} {w : Workspace α (AdmmSession α)}

omit [ScalarText α] in
theorem on_pushSettings (hw : M.workspace = some w) (h : w.Carries F M.settings)
    (hlegal : M.settings.validate = .ok ()) :
    on (pushSettings (admmEngine env)) M = (.ok (), M) := by
  unfold pushSettings
  rw [on_bind, on_get]
  simp only [hw]
  split
  · rename_i hdiffer
    have hdiffer : (w.session.session.settings != M.settings) = true := hdiffer
    -- Settings that differ from themselves are pushed, but change nothing.
    rcases h.settings with hsame | hsame
    · have hcall : (admmEngine env).call (.updateSettings M.settings) w.session M.shared
          = (.ok (), w.session, ()) := by
        have hself := Session.updateSettings_self (S := w.session.session) (hsame ▸ hlegal)
        rw [hsame] at hself
        simp only [admmEngine, AdmmSession.call, Session.call, hself]
      rw [on_callSession _ _ _ hw hcall, ← hw]
      rfl
    · rw [bne, hsame] at hdiffer
      cases hdiffer
  · rfl

omit [OrderedScalar α] [ScalarText α] in
theorem on_pushMatrices (hw : M.workspace = some w) (h : w.Carries F s) :
    on (pushMatrices (admmEngine env) F) M = (.ok (), M) := by
  unfold pushMatrices
  rw [on_bind, on_get]
  simp only [hw, h.P, h.A]
  rfl

omit [ScalarText α] in
/-- A session takes the problem over again that was brought into it last. -/
theorem on_pushChanges (env : Environment α) (hw : M.workspace = some w)
    (h : w.Carries F M.settings) (hlegal : M.settings.validate = .ok ()) :
    ∃ N, on (pushChanges (admmEngine env) F) M = (.ok (), N) ∧ N.startPoint = M.startPoint := by
  cases hcall : w.session.session.updateVectors (some F.q) (some F.l) (some F.u) with
  | mk r S =>
    have hr := h.retains.updateVectors
    rw [hcall] at hr
    have hcall' : (admmEngine env).call (.updateVectors (some F.q) (some F.l) (some F.u)) w.session
        M.shared = (r, ⟨_, _, S⟩, ()) := by
      simp only [admmEngine, AdmmSession.call, Session.call, hcall]
    have hr : r = .ok () := hr
    unfold pushChanges
    rw [on_bind, on_pushSettings hw h hlegal]
    simp only
    rw [on_bind, on_pushMatrices hw h]
    simp only
    rw [on_callSession _ _ _ hw hcall', hr]
    exact ⟨_, rfl, rfl⟩

omit [ScalarText α] in
/-- Into an unchanged model the problem is brought again, unless a new session refuses it. -/
theorem bring_cases (env : Environment α) (hw : M.workspace = some w)
    (h : w.Carries F M.settings) :
    let path := M.choosePath (admmEngine env) F
    (∃ f N, on (bring (admmEngine env) F path) M = (.error (.setup f), N)) ∨
      ∃ N, on (bring (admmEngine env) F path) M = (.ok (), N) ∧ N.startPoint = M.startPoint := by
  intro path
  cases hpath : path with
  | setup => exact startSession_cases _ F
  | rebuild => exact startSession_cases _ F
  | update =>
    have hlegal : M.settings.validate = .ok () := by
      simp only [path, choosePath, hw, SolvePath.select] at hpath
      split at hpath
      · rename_i hvalid
        exact Settings.validate_of_validateUpdate hvalid
      · cases hpath
    obtain ⟨N, hpush, hN⟩ := on_pushChanges env hw h hlegal
    refine .inr ⟨N, ?_, hN⟩
    show on (updateSession _ F) M = _
    unfold updateSession
    rw [on_tryCatch, hpush]

theorem prepare_spares (hM : Brought F M₀ M) (hstart : M.startPoint = none)
    (hform : M₀.standardForm = .ok F) : Spares (prepare (admmEngine env)) M := by
  obtain ⟨hcontents, w, hw, hcarries⟩ := hM
  rw [← hcontents.settings] at hcarries
  by_cases hreleased : M.state = .released
  · rw [Spares, prepare_of_released _ hreleased]
    nofun
  have hlive : M.requireLive = .ok () := requireLive_of_unreleased hreleased
  refine Spares.congr (Spares.bind (report_spares _) fun _ N hN => ?_)
    (on_prepare _ hlive (hcontents.standardForm.trans hform))
  obtain ⟨o, rfl⟩ : ∃ o, N = { M with solution := none, output := o } :=
    (report_ensures _ (P := fun N => ∃ o, N = { M with solution := none, output := o })
      fun N o ⟨_, h⟩ => ⟨o, by rw [h]⟩).of_ok ⟨M.output, rfl⟩ hN
  -- The path was chosen before the report, which writes to the output only.
  have hcases := bring_cases env (M := { M with solution := none, output := o }) hw hcarries
  refine Spares.bind (fun e he => ?_) fun _ N hN => Spares.bind ?_ fun _ _ _ => nofun
  · rcases hcases with ⟨f, N, hbring⟩ | ⟨N, hbring, -⟩
    · cases (congrArg Prod.fst hbring).symm.trans he
    · cases (congrArg Prod.fst hbring).symm.trans he
  · rcases hcases with ⟨f, N', hbring⟩ | ⟨N', hbring, hN'⟩
    · cases hbring.symm.trans hN
    · obtain rfl : N' = N := congrArg Prod.snd (hbring.symm.trans hN)
      exact passStartPoint_spares _ F (hN'.trans hstart)

/-- A model that was solved can be solved again, with nothing changed in between: the problem
is not refused on its way into the session. -/
theorem resolve_spares {env' : Environment α} {N : Model α Unit (AdmmSession α)}
    {status : SolverStatus} (hform : M.standardForm = .ok F) (hF : F.toQpData.WithinLimits)
    (hsolve : on (solve (admmEngine env)) M = (.ok status, N)) :
    Spares (solve (admmEngine env')) N := by
  obtain ⟨hN, hstart⟩ := (solve_brought hform hF).of_ok ⟨rfl, rfl, rfl, rfl⟩ hsolve
  refine Spares.bind (prepare_spares hN hstart hform) fun b N' _ => ?_
  exact runSession_spares _ b.1 b.2

end Model

/-! ### The limits decide -/

/-- Given again to the session that was set up with them, the vectors of a problem are taken
over or refused, and the stored bounds are ordered and limited whatever calls follow, or are
not, as the limits cross no bounds or some. If they cross none, a model that was solved is
not refused by its session when it is solved again unchanged. -/
theorem Model.retaken_iff_withinLimits [OrderedScalar α] [ScalarText α]
    (env env' : Environment α) :
    (∀ (D : QpData α) (settings : Settings α) (A : AdmmSession α),
      AdmmSession.setup env D settings = .ok A →
      let again := A.session.call env' (.updateVectors (some D.q) (some D.l) (some D.u))
      (again.1 = .ok () ↔ D.WithinLimits) ∧
        ((∃ f, again.1 = .error (.dataUpdate f)) ↔ ¬D.WithinLimits) ∧
        ((∀ history, (A.session.after history).data.user.Bounded) ↔ D.WithinLimits)) ∧
    ∀ (M N : Model α Unit (AdmmSession α)) (F : StandardForm α) (status : SolverStatus),
      M.standardForm = .ok F → F.toQpData.WithinLimits →
      on (solve (admmEngine env)) M = (.ok status, N) →
      ∀ e, (on (solve (admmEngine env')) N).1 ≠ .error (.update e) := by
  constructor
  · intro D settings A h again
    have hrefuses : (∃ f, again.1 = .error (.dataUpdate f)) ↔ ¬D.WithinLimits :=
      Session.setup_refuses_iff h env'
    refine ⟨⟨fun hok => ?_, fun hD => ?_⟩, hrefuses, Session.after_bounded_iff h⟩
    · by_contra hD
      obtain ⟨f, hf⟩ := hrefuses.mpr hD
      cases hok.symm.trans hf
    · exact (Session.setup_retains h hD).updateVectors
  · intro M N F status hform hF hsolve
    exact resolve_spares hform hF hsolve

/-- One iteration on the problem as it is. -/
def briefSettings : Settings Float := { Settings.default with scaling := 0, maxIter := 1 }

/-- Minimise `½ x² - x` for an `x` between two numbers. -/
def Model.confined (lower upper : Float) : Model Float Unit (AdmmSession Float) :=
  let E := admmEngine (.still Float)
  let x : Variable := ⟨0⟩
  ((((Model.new E ()).perform E .addVariable).perform E
    (.setObjective ((QuadExpr.empty.addProduct x x 0.5).subtractLinExpr (.ofVariable x)))).perform E
    (.addConstraint (.between (.ofVariable x) lower upper))).perform E (.setSettings briefSettings)

/-- The unit problem and its model, which is solved twice. -/
theorem Model.retaken_binaryUnitProblem :
    (∃ A, AdmmSession.setup (.still Float) binaryUnitProblem briefSettings = .ok A ∧
      (A.session.call (.still Float) (.updateVectors (some #[-1]) (some #[0]) (some #[0.5]))).1
        = .ok () ∧
      ∀ history, (A.session.after history).data.user.Bounded) ∧
    ∃ status N, on (solve (admmEngine (.still Float))) (confined 0 0.5) = (.ok status, N) ∧
      ∀ e, (on (solve (admmEngine (.still Float))) N).1 ≠ .error (.update e) := by
  obtain ⟨hsession, hmodel⟩ := retaken_iff_withinLimits (.still Float) (.still Float)
  constructor
  · have hlimits : binaryUnitProblem.WithinLimits := by decide +kernel
    have hsetup :
        (AdmmSession.setup (.still Float) binaryUnitProblem briefSettings).isOk = true := by
      decide +kernel
    cases h : AdmmSession.setup (.still Float) binaryUnitProblem briefSettings with
    | error e =>
      rw [h] at hsetup
      cases hsetup
    | ok A =>
      obtain ⟨hagain, -, hbounded⟩ := hsession _ _ A h
      exact ⟨A, rfl, hagain.mpr hlimits, hbounded.mpr hlimits⟩
  · have hlimits : ((confined 0 0.5).standardForm.toOption.any fun F =>
        decide F.toQpData.WithinLimits) = true := by
      decide +kernel
    have hsolve : (on (solve (admmEngine (.still Float))) (confined 0 0.5)).1.isOk = true := by
      decide +kernel
    cases hform : (confined 0 0.5).standardForm with
    | error e =>
      rw [hform] at hlimits
      cases hlimits
    | ok F =>
      rw [hform] at hlimits
      rcases h : on (solve (admmEngine (.still Float))) (confined 0 0.5) with ⟨_ | status, N⟩
      · rw [h] at hsolve
        cases hsolve
      · exact ⟨status, N, rfl, hmodel _ N F status hform (of_decide_eq_true hlimits) h⟩

/-- Bounds beyond the limit are accepted by a setup and stored crossed, and are refused when
they are given again, so a model that was solved is refused when it is solved again. -/
theorem Model.exists_not_retaken :
    (∃ A, AdmmSession.setup (.still Float) { binaryUnitProblem with l := #[2e30], u := #[2e30] }
        briefSettings = .ok A ∧
      (A.session.call (.still Float) (.updateVectors (some #[-1]) (some #[2e30]) (some #[2e30]))).1
        = .error (.dataUpdate (.crossedNewBounds 0)) ∧
      ¬A.session.data.user.Bounded) ∧
    ∃ status N, on (solve (admmEngine (.still Float))) (confined 2e30 2e30) = (.ok status, N) ∧
      (on (solve (admmEngine (.still Float))) N).1
        = .error (.update (.dataUpdate (.crossedNewBounds 0))) := by
  constructor
  · have hrun : ((AdmmSession.setup (.still Float)
          { binaryUnitProblem with l := #[2e30], u := #[2e30] } briefSettings).toOption.any fun A =>
        decide ((A.session.call (.still Float)
            (.updateVectors (some #[-1]) (some #[2e30]) (some #[2e30]))).1
          = .error (.dataUpdate (.crossedNewBounds 0))) &&
        !decide A.session.data.user.Bounded) = true := by
      decide +kernel
    cases h : AdmmSession.setup (.still Float)
        { binaryUnitProblem with l := #[2e30], u := #[2e30] } briefSettings with
    | error e =>
      rw [h] at hrun
      cases hrun
    | ok A =>
      rw [h] at hrun
      simp only [Except.toOption, Option.any_some, Bool.and_eq_true, Bool.not_eq_true',
        decide_eq_true_eq, decide_eq_false_iff_not] at hrun
      exact ⟨A, rfl, hrun⟩
  · have hrun : ((on (solve (admmEngine (.still Float))) (confined 2e30 2e30)).1.isOk &&
        decide ((on (solve (admmEngine (.still Float)))
            (on (solve (admmEngine (.still Float))) (confined 2e30 2e30)).2).1
          = .error (.update (.dataUpdate (.crossedNewBounds 0))))) = true := by
      decide +kernel
    rcases h : on (solve (admmEngine (.still Float))) (confined 2e30 2e30) with ⟨_ | status, N⟩
    · rw [h] at hrun
      cases hrun
    · rw [h] at hrun
      exact ⟨status, N, rfl, of_decide_eq_true hrun⟩

end QuadOpt
