/-
# Models with a convex objective

A model whose matrices still fit is brought into its session step by step: first settings
that changed, then the matrices, and then the vectors, and each of these may factor the
system of what the session holds by then. Once the matrices of a problem with a convex
objective are in place nothing can fail but for input that is refused, whatever the
session was used for before.

Settings come before the matrices. If their step size is another one, it is tried with the
problem that the session still holds. That problem need not be convex, as its rows may
have made up for it; with the new step size they may no longer do so.

Key definitions: `Csc.Semidefinite`, `Workspace.Faithful`, `Model.Driven`.
Key theorems: `admmEngine_maintains`, `Model.Driven.faithful`, `Model.bring_refuses`,
`Model.takes_convex`, `Model.exists_convex_refused`.
-/
import QuadOpt.Proofs.Admm.Definite
import QuadOpt.Proofs.Model.Protocol
import QuadOpt.Proofs.Model.Repeat

namespace QuadOpt

open Matrix ModelM

variable {K : Type} [Field K] [LinearOrder K] [IsStrictOrderedRing K] [ExactScalar K]

/-- Settings that compare equal have step sizes that do. -/
theorem Settings.rho_beq {α : Type} [BEq α] {s t : Settings α} (h : (s == t) = true) :
    (s.rho == t.rho) = true := by
  cases s
  cases t
  simp only [BEq.beq, instBEqSettings.beq, Bool.and_eq_true] at h
  exact h.1

/-! ### Convex problems -/

/-- The matrix, mirrored, is positive semidefinite. -/
def Csc.Semidefinite (P : Csc K) : Prop := ∀ x : Fin P.n → K, 0 ≤ x ⬝ᵥ P.mirror P.n *ᵥ x

omit [IsStrictOrderedRing K] [ExactScalar K] in
theorem Instance.convex_iff {n m : Nat} (D : Instance K n m) :
    D.Convex ↔ D.P.csc.Semidefinite := by
  unfold Instance.Convex Csc.Semidefinite
  rw [D.P.cols_eq]

namespace Session

variable {n m : Nat} {S : Session K n m}

/-- A call that leaves a convex problem refuses its input, or succeeds. -/
theorem call_refuses (env : Environment K) (hreachable : S.Reachable) (c : SessionCall K)
    (hconvex : (S.call env c).2.data.user.P.csc.Semidefinite) {f : EngineError}
    (hf : (S.call env c).1 = .error f) : f.isRefusal = true :=
  (call_of_convex env hreachable hreachable.ready_of_convex c
    ((Instance.convex_iff _).mpr hconvex)).1 f hf

omit [IsStrictOrderedRing K] in
/-- The objective matrix that an update of the matrices leaves, unless it is refused. -/
theorem updateMatrices_userP {env : Environment K} {Px Ax : Option (Array K)}
    {r : Except EngineError Unit} {T : Session K n m}
    (hcall : S.call env (.updateMatrices Px none Ax none) = (r, T)) :
    (∃ f, r = .error f ∧ f.isRefusal = true) ∨ T.data.user.P.csc =
      { S.data.user.P.csc with nzval := overwritten S.data.user.P.csc.nzval Px none } := by
  have hanswer := S.call_answer env (.updateMatrices Px none Ax none)
  rw [hcall] at hanswer
  cases hanswer with
  | refused _ he _ => exact .inl ⟨_, rfl, he⟩
  | admitted _ _ hdata => exact .inr (congrArg QpData.P hdata)

/-- An update that asks for a convex problem refuses its input, or succeeds. -/
theorem updateMatrices_refuses (env : Environment K) (hreachable : S.Reachable)
    {Px Ax : Option (Array K)}
    (hconvex : Csc.Semidefinite
      { S.data.user.P.csc with nzval := overwritten S.data.user.P.csc.nzval Px none })
    {f : EngineError} (hf : (S.call env (.updateMatrices Px none Ax none)).1 = .error f) :
    f.isRefusal = true := by
  rcases hcall : S.call env (.updateMatrices Px none Ax none) with ⟨r, T⟩
  have hr : r = .error f := (congrArg Prod.fst hcall).symm.trans hf
  rcases updateMatrices_userP hcall with ⟨f', hf', hrefusal⟩ | hP
  · cases hf'.symm.trans hr
    exact hrefusal
  · refine call_refuses env hreachable (.updateMatrices Px none Ax none) ?_ hf
    rwa [hcall, hP]

/-- New settings whose step size is the old one, or that a convex problem is factored with,
are refused or succeed. -/
theorem updateSettings_refuses (env : Environment K) (hreachable : S.Reachable) {s : Settings K}
    (h : s.rho = S.settings.rho ∨ S.data.user.P.csc.Semidefinite) {f : EngineError}
    (hf : (S.call env (.updateSettings s)).1 = .error f) : f.isRefusal = true := by
  rcases h with hrho | hconvex
  · have hf : (S.updateSettings s).1 = .error f := hf
    unfold updateSettings at hf
    split at hf
    · cases hf
      rfl
    · simp [hrho] at hf
  · refine call_refuses env hreachable (.updateSettings s) ?_ hf
    rwa [call_userP env hreachable.sound rfl]

/-- Legal settings fail if they bring a step size with which the problem that the session
holds is not definite. -/
theorem updateSettings_fails (hreachable : S.Reachable) {s : Settings K}
    (hlegal : s.validateUpdate S.settings = .ok ()) (hrho : s.rho ≠ S.settings.rho)
    (hnot : ¬S.data.Definite s.sigma s.rho) :
    ∃ f, (S.updateSettings s).1 = .error f ∧ (f = .nonConvex ∨ ∃ e, f = .linearSystem e) := by
  have hvalid := Settings.validate_of_validateUpdate hlegal
  have hsound := hreachable.sound
  have hfilled := hreachable.filled fun _ heq => eq_of_beq heq
  unfold updateSettings
  simp only [hlegal, bne_iff_ne, ne_eq, hrho, not_false_eq_true, if_true]
  generalize hU : ({ S with
    settings := s
    rho := s.rho
    info := { S.info with rhoEstimate := s.rho }
    system := S.system.withRho s.rho } : Session K n m) = U
  have hprepared : U.Prepared := hU ▸
    ⟨hvalid, hfilled.samePattern, hfilled.system.withRho _, hfilled.tuned.withRho _⟩
  have hUsound : U.Sound := hU ▸
    ⟨hsound.scaled, hvalid, ((Settings.validate_eq_ok_iff _).mp hvalid).1, hsound.tuned.withRho _⟩
  have hdefinite := (hprepared.factorSystem_definite hUsound).1
  rcases U.factorSystem_cases with ⟨-, hresult⟩ | ⟨_, -, -, hresult⟩ | ⟨e, -, hresult⟩
  · rw [hresult] at hdefinite
    subst hU
    exact absurd (hdefinite rfl) hnot
  · exact ⟨_, by rw [hresult], .inl rfl⟩
  · exact ⟨_, by rw [hresult], .inr ⟨e, rfl⟩⟩

end Session

/-! ### What sessions a model can have -/

/-- The session has come about by calls, and its objective matrix is the one of the copy. -/
structure Workspace.Faithful (w : Workspace K (AdmmSession K)) : Prop where
  reachable : w.session.session.Reachable
  P : w.session.session.data.user.P.csc = w.P

omit [IsStrictOrderedRing K] in
/-- Values that are not passed on are those that are there. -/
theorem Model.overwritten_newValues (P Q : Csc K) :
    overwritten P.nzval (newValues P Q) none = Q.nzval := by
  unfold newValues overwritten
  by_cases h : P.nzval = Q.nzval <;> simp [h]

theorem SessionCall.keepsMatrices_of_ne {α : Type} {c : SessionCall α}
    (hc : ∀ Px PxIdx Ax AxIdx, c ≠ .updateMatrices Px PxIdx Ax AxIdx) : c.keepsMatrices = true := by
  cases c with
  | updateMatrices Px PxIdx Ax AxIdx => exact absurd rfl (hc _ _ _ _)
  | _ => rfl

/-- Whatever comes of a call that does not update the matrices, the copy stays right. -/
theorem Workspace.Faithful.call {w : Workspace K (AdmmSession K)} (h : w.Faithful)
    {env : Environment K} {c : SessionCall K} (hc : c.keepsMatrices = true)
    {r : Except EngineError Unit} {T : AdmmSession K} {e e' : Unit}
    (hcall : (admmEngine env).call c w.session e = (r, T, e')) :
    Workspace.Faithful { w with session := T } := by
  obtain ⟨U, hU, rfl⟩ := admmEngine_call hcall
  have hP := Session.call_userP env h.reachable.sound hc
  have hreachable := h.reachable.call env c
  rw [hU] at hP hreachable
  exact ⟨hreachable, by rw [hP]; exact h.P⟩

theorem admmEngine_maintains (env : Environment K) :
    (admmEngine env).Maintains (fun w _ => ∀ v ∈ w, v.Faithful) fun _ w _ => ∀ v ∈ w, v.Faithful
    where
  drop _ := fun _ hv => by cases hv
  setup {D s e S e'} _ hsetup := by
    have hS : AdmmSession.setup env D s = .ok S := congrArg Prod.fst hsetup
    rintro _ ⟨⟩
    exact ⟨.setup hS, congrArg QpData.P (Session.setup_userData hS)⟩
  setup_error _ _ := fun _ hv => by cases hv
  call {c w e T e'} h hc hcall := by
    rintro _ ⟨⟩
    exact (h w rfl).call (SessionCall.keepsMatrices_of_ne hc) hcall
  matrices {F w e T e'} h hcall := by
    obtain ⟨hreachable, hcopy⟩ := h w rfl
    obtain ⟨U, hU, rfl⟩ := admmEngine_call hcall
    have hafter := hreachable.call env
      (.updateMatrices (Model.newValues w.P F.P) none (Model.newValues w.A F.A) none)
    rw [hU] at hafter
    rintro _ ⟨⟩
    refine ⟨hafter, ?_⟩
    rcases Session.updateMatrices_userP hU with ⟨f, hf, -⟩ | hP
    · cases hf
    · rw [hP, hcopy, Model.overwritten_newValues]
  update_error _ _ _ := fun _ hv => by cases hv
  call_error {c w e f T e'} h hc hcall := by
    rintro _ ⟨⟩
    exact (h w rfl).call (SessionCall.keepsMatrices_of_ne (SessionCall.ne_updateMatrices hc)) hcall
  other_error h _ := h

namespace Model

variable [ScalarText K] {M : Model K Unit (AdmmSession K)}

/-- The models that operations lead to from an empty one, each in its environment. -/
inductive Driven : Model K Unit (AdmmSession K) → Prop where
  | new (env : Environment K) : Driven (Model.new (admmEngine env) ())
  | perform (env : Environment K) {M : Model K Unit (AdmmSession K)} (op : ModelOp K) :
      Driven M → Driven (M.perform (admmEngine env) op)

theorem Driven.faithful (h : M.Driven) {w : Workspace K (AdmmSession K)}
    (hw : M.workspace = some w) : w.Faithful := by
  have hM : M.Meets fun w _ => ∀ v ∈ w, v.Faithful := by
    clear hw
    induction h with
    | new env => exact fun _ hv => by cases hv
    | perform env op _ ih => exact (admmEngine_maintains env).perform ih op
  exact hM w hw

omit [IsStrictOrderedRing K] in
theorem Driven.inStep (h : M.Driven) : M.InStep := by
  induction h with
  | new env => exact inStep_new _ ()
  | perform env op _ ih => exact ih.perform _ op

end Model

/-! ### Bringing a convex problem into a session -/

/-- If a problem could not be brought into a session, input was refused. -/
def ModelError.IsRefusal (e : ModelError) : Prop :=
  ∀ f, e = .setup f ∨ e = .update f → f.isRefusal = true

theorem ModelError.isRefusal_of_engine? {e : ModelError} (h : e.engine? = none) :
    e.IsRefusal := by
  rintro f (rfl | rfl) <;> cases h

theorem ModelError.isRefusal_update {f : EngineError} (h : f.isRefusal = true) :
    IsRefusal (.update f) := by
  rintro _ (⟨⟨⟩⟩ | ⟨⟨⟩⟩)
  exact h

namespace Model

variable {env : Environment K} {F : StandardForm K} {P : Csc K} {s : Settings K}

/-- The model has a session whose objective matrix is `P`. -/
def Took (P : Csc K) (M : Model K Unit (AdmmSession K)) : Prop :=
  ∃ w, M.workspace = some w ∧ w.Faithful ∧ w.P = P

/-- A session with a convex problem refuses a call that keeps it, or succeeds. -/
theorem callSession_refuses {c : SessionCall K} (hc : c.keepsMatrices = true)
    (hconvex : P.Semidefinite) :
    Leads (Took P) (callSession (admmEngine env) .update c) (fun _ => Took P)
      (fun e _ => e.IsRefusal) := by
  refine callSession_leads _ _ _ ?_ ?_ ?_
  · rintro M w T e ⟨v, hv, hfaithful, hP⟩ hw hcall
    obtain rfl : v = w := by simpa [hv] using hw
    exact ⟨_, rfl, hfaithful.call hc hcall, hP⟩
  · rintro M w f T e ⟨v, hv, hfaithful, hP⟩ hw hcall
    obtain rfl : v = w := by simpa [hv] using hw
    obtain ⟨U, hU, -⟩ := admmEngine_call hcall
    refine ModelError.isRefusal_update
      (Session.call_refuses env hfaithful.reachable c ?_ (congrArg Prod.fst hU))
    rwa [Session.call_userP env hfaithful.reachable.sound hc, hfaithful.P, hP]
  · exact fun _ _ _ => ModelError.isRefusal_of_engine? rfl

/-- New settings leave the session its problem. They fail only if they are refused, unless
their step size is another one and is tried with a problem that is not convex. -/
theorem pushSettings_refuses {w : Workspace K (AdmmSession K)} (hfaithful : w.Faithful)
    (hrho : s.rho = w.session.session.settings.rho ∨ w.P.Semidefinite) :
    Leads (fun M => M.workspace = some w ∧ M.settings = s) (pushSettings (admmEngine env))
      (fun _ => Took w.P) (fun e _ => e.IsRefusal) := by
  refine Leads.get_bind fun M ⟨hw, hs⟩ => ?_
  simp only [hw]
  split
  · refine callSession_leads _ _ _ ?_ ?_ fun _ _ _ => ModelError.isRefusal_of_engine? rfl
    · rintro _ v T e rfl hv hcall
      obtain rfl : w = v := by simpa [hw] using hv
      exact ⟨_, rfl, hfaithful.call rfl hcall, rfl⟩
    · rintro _ v f T e rfl hv hcall
      obtain rfl : w = v := by simpa [hw] using hv
      obtain ⟨U, hU, -⟩ := admmEngine_call hcall
      refine ModelError.isRefusal_update (Session.updateSettings_refuses env hfaithful.reachable
        ?_ (congrArg Prod.fst hU))
      rwa [hs, hfaithful.P]
  · exact Leads.pure fun N hN => hN ▸ ⟨w, hw, hfaithful, rfl⟩

/-- New matrices fail only if they are refused. -/
theorem pushMatrices_refuses (hpattern : P.requireSamePattern F.P = .ok ())
    (hconvex : F.P.Semidefinite) :
    Leads (Took P) (pushMatrices (admmEngine env) F) (fun _ => Took F.P)
      (fun e _ => e.IsRefusal) := by
  have hnew := Csc.with_nzval_eq hpattern
  refine Leads.get_bind fun M ⟨w, hw, hfaithful, hP⟩ => ?_
  subst hP
  simp only [hw]
  split
  · refine Leads.bind (R := fun _ N => Took F.P (copyMatrices F N)) (callSession_leads _ _ _ ?_ ?_
      fun _ _ _ => ModelError.isRefusal_of_engine? rfl) fun _ => Leads.modify fun N hN => hN
    · rintro _ v T e rfl hv hcall
      obtain rfl : w = v := by simpa [hw] using hv
      refine ⟨_, rfl, ?_, hnew⟩
      exact (admmEngine_maintains env).matrices (fun _ hv => by cases hv; exact hfaithful) hcall
        _ rfl
    · rintro _ v f T e rfl hv hcall
      obtain rfl : w = v := by simpa [hw] using hv
      obtain ⟨U, hU, -⟩ := admmEngine_call hcall
      refine ModelError.isRefusal_update (Session.updateMatrices_refuses env hfaithful.reachable
        ?_ (congrArg Prod.fst hU))
      rwa [hfaithful.P, overwritten_newValues, hnew]
  · rename_i hnone
    refine Leads.pure fun N hN => ?_
    subst hN
    simp only [Bool.not_eq_true, Bool.or_eq_false_iff, Option.isSome_eq_false_iff,
      Option.isNone_iff_eq_none] at hnone
    refine ⟨w, hw, hfaithful, ?_⟩
    rw [← hnew, ← overwritten_newValues w.P F.P, hnone.1]
    rfl

/-- A problem with a convex objective is brought into the session it fits to, or is refused. -/
theorem updateSession_refuses {w : Workspace K (AdmmSession K)} (hfaithful : w.Faithful)
    (hpattern : w.P.requireSamePattern F.P = .ok ()) (hconvex : F.P.Semidefinite)
    (hrho : s.rho = w.session.session.settings.rho ∨ w.P.Semidefinite) :
    Leads (fun M => M.workspace = some w ∧ M.settings = s) (updateSession (admmEngine env) F)
      (fun _ => Took F.P) (fun e _ => e.IsRefusal) := by
  have hpush : Leads (fun M => M.workspace = some w ∧ M.settings = s)
      (pushChanges (admmEngine env) F) (fun _ => Took F.P) (fun e _ => e.IsRefusal) :=
    (pushSettings_refuses hfaithful hrho).bind fun _ =>
      (pushMatrices_refuses hpattern hconvex).bind fun _ => callSession_refuses rfl hconvex
  exact hpush.tryCatch fun e => Leads.bind (R := fun _ _ => e.IsRefusal)
    (Leads.modify fun _ he => he) fun _ => Leads.throw fun _ he => he

omit [IsStrictOrderedRing K] in
theorem sizes_of_standardForm {M : Model K Unit (AdmmSession K)} (hform : M.standardForm = .ok F)
    (hrows : M.constraints.size ≤ arrayLimit) :
    F.q.size ≤ arrayLimit ∧ F.l.size ≤ arrayLimit := by
  unfold standardForm at hform
  rcases StandardForm.assemble_cases M.varCount M.objective M.constraints.toList with
    ⟨-, i, hi⟩ | ⟨-, hassemble⟩
  · cases hi.symm.trans hform
  · rw [hassemble] at hform
    split at hform
    · cases hform
    · rename_i hroom
      cases hform
      refine ⟨?_, ?_⟩
      · rw [StandardForm.assembled, StandardForm.size_denseRow]
        exact (not_le.mp hroom).le
      · simpa [StandardForm.assembled] using hrows

/-- A new session for a convex problem fails only if it refuses its input. -/
theorem setup_refuses (hpermutes : env.Permutes) {D : QpData K} (hq : D.q.size ≤ arrayLimit)
    (hl : D.l.size ≤ arrayLimit) (hconvex : D.P.Semidefinite) {f : EngineError}
    (hf : AdmmSession.setup env D s = .error f) : f.isRefusal = true := by
  cases hlegal : s.validate with
  | error e =>
    simp only [AdmmSession.setup, hlegal] at hf
    cases hf
    rfl
  | ok _ =>
    cases hvalid : D.validate with
    | error e =>
      simp only [AdmmSession.setup, hlegal, hvalid] at hf
      cases hf
      rfl
    | ok I =>
      have hI : I.Convex := by
        rwa [Instance.convex_iff, (QpData.validate_keeps hvalid).2.2]
      obtain ⟨S, hS⟩ := Session.exists_setup hpermutes hq hl hlegal hvalid hI
      cases hS.symm.trans hf

theorem startSession_refuses (hpermutes : env.Permutes) (hq : F.q.size ≤ arrayLimit)
    (hl : F.l.size ≤ arrayLimit) (hconvex : F.P.Semidefinite)
    {I : Model K Unit (AdmmSession K) → Prop} :
    Leads I (startSession (admmEngine env) F) (fun _ => Took F.P) (fun e _ => e.IsRefusal) := by
  refine Leads.bind (R := fun _ _ => True) (Leads.modify fun _ _ => trivial) fun _ =>
    Leads.get_bind fun M _ => ?_
  rcases hsetup : (admmEngine env).setup F.toQpData M.settings M.shared with ⟨f | S, e⟩
  · refine Leads.bind (R := fun _ _ => True) (Leads.set trivial) fun _ => Leads.throw fun _ _ => ?_
    have hf := setup_refuses hpermutes hq hl hconvex (congrArg Prod.fst hsetup)
    rintro _ (⟨⟨⟩⟩ | ⟨⟨⟩⟩)
    exact hf
  · refine Leads.set ⟨_, rfl, ?_, rfl⟩
    exact (admmEngine_maintains env).setup (fun _ hv => by cases hv) hsetup _ rfl

/-- If new settings are to be tried with the problem of an earlier solve, they have the old
step size or that problem is convex too. -/
def Compatible (F : StandardForm K) (M : Model K Unit (AdmmSession K)) : Prop :=
  ∀ w, M.workspace = some w →
    SolvePath.select w.P w.A F w.session.session.settings M.settings = .update →
    M.settings.rho = w.session.session.settings.rho ∨ w.P.Semidefinite

/-- By whichever path, a problem with a convex objective is brought into a session or refused. -/
theorem bring_refuses (hpermutes : env.Permutes) (hq : F.q.size ≤ arrayLimit)
    (hl : F.l.size ≤ arrayLimit) (hconvex : F.P.Semidefinite)
    {M : Model K Unit (AdmmSession K)} (hM : ∀ w, M.workspace = some w → w.Faithful)
    (hcompatible : M.Compatible F) :
    Leads (fun N => N.workspace = M.workspace ∧ N.settings = M.settings)
      (bring (admmEngine env) F (M.choosePath (admmEngine env) F)) (fun _ => Took F.P)
      (fun e _ => e.IsRefusal) := by
  cases hpath : M.choosePath (admmEngine env) F with
  | setup | rebuild => exact startSession_refuses hpermutes hq hl hconvex
  | update =>
    unfold choosePath at hpath
    split at hpath
    · rename_i w hw
      rw [hw]
      exact updateSession_refuses (hM w hw) (samePattern_of_select hpath).1 hconvex
        (hcompatible w hw hpath)
    · cases hpath

/-- A start point that the session does not take is refused. -/
theorem passStartPoint_refuses (hconvex : P.Semidefinite) :
    Leads (Took P) (passStartPoint (admmEngine env) F) (fun _ => Took P)
      (fun e _ => e.IsRefusal) := by
  refine Leads.get_bind fun M hM => ?_
  cases M.startPoint with
  | none => exact Leads.pure fun N hN => hN ▸ hM
  | some p =>
    refine Leads.bind (R := fun _ => Took P) (Leads.modify ?_) fun _ =>
      Leads.bind (R := fun _ => Took P) (Leads.lift (fun _ _ hN _ => hN) ?_) fun _ =>
        callSession_refuses rfl hconvex
    · rintro _ rfl
      exact hM
    · exact fun _ _ _ he => ModelError.isRefusal_of_engine? (engine?_of_checkStartPoint he)

variable [ScalarText K]

theorem prepare_refuses (hpermutes : env.Permutes) {M : Model K Unit (AdmmSession K)}
    (hform : M.standardForm = .ok F) (hrows : M.constraints.size ≤ arrayLimit)
    (hconvex : F.P.Semidefinite) (hM : ∀ w, M.workspace = some w → w.Faithful)
    (hcompatible : M.Compatible F) :
    Leads (· = M) (prepare (admmEngine env)) (fun _ _ => True) (fun e _ => e.IsRefusal) := by
  obtain ⟨hq, hl⟩ := sizes_of_standardForm hform hrows
  cases hlive : M.requireLive with
  | error e =>
    refine Leads.get_bind fun N hN => ?_
    subst hN
    refine Leads.bind (R := fun _ _ => False) (Leads.lift ?_ ?_) fun _ _ h => h.elim
    · intro _ _ _ hok
      cases hlive.symm.trans hok
    · exact fun _ _ _ he => ModelError.isRefusal_of_engine? (engine?_of_requireLive he)
  | ok _ =>
    intro N hN
    rw [hN, on_prepare _ hlive hform]
    -- The report writes to the output only.
    exact (Leads.bind (R := fun _ N => N.workspace = M.workspace ∧ N.settings = M.settings)
      (report_leads _ (fun _ _ hN => hN) fun _ _ _ _ => ModelError.isRefusal_of_engine? rfl)
      fun _ => (bring_refuses hpermutes hq hl hconvex hM hcompatible).bind fun _ =>
      (passStartPoint_refuses hconvex).bind fun _ => Leads.pure fun _ _ => trivial) _ ⟨rfl, rfl⟩

omit [IsStrictOrderedRing K] in
/-- The run of the session is another phase of a solve. -/
theorem runSession_refuses {E : Engine K Unit (AdmmSession K)} {path : SolvePath}
    {I : Model K Unit (AdmmSession K) → Prop} :
    Leads I (runSession E F path) (fun _ _ => True) (fun e _ => e.IsRefusal) := by
  refine Leads.bind (R := fun _ _ => True) (callSession_leads E _ _ (fun _ _ _ _ _ _ _ => trivial)
    ?_ fun _ _ _ => ModelError.isRefusal_of_engine? rfl) fun _ => Leads.bind (R := fun _ _ => True)
      (Leads.get_bind fun M _ => ?_) fun _ => Leads.bind (R := fun _ _ => True)
        (report_leads _ (fun _ _ h => h) fun _ _ _ _ => ModelError.isRefusal_of_engine? rfl)
          fun _ => Leads.pure fun _ => id
  · rintro M w f S e - - - _ (⟨⟨⟩⟩ | ⟨⟨⟩⟩)
  · cases M.session? with
    | none => exact Leads.throw fun _ _ => ModelError.isRefusal_of_engine? rfl
    | some S => exact Leads.bind (R := fun _ _ => True) (Leads.modify fun _ _ => trivial) fun _ =>
        Leads.pure fun _ => id

theorem solve_refuses (hpermutes : env.Permutes) {M : Model K Unit (AdmmSession K)}
    (hform : M.standardForm = .ok F) (hrows : M.constraints.size ≤ arrayLimit)
    (hconvex : F.P.Semidefinite) (hM : ∀ w, M.workspace = some w → w.Faithful)
    (hcompatible : M.Compatible F) :
    Leads (· = M) (solve (admmEngine env)) (fun _ _ => True) (fun e _ => e.IsRefusal) :=
  (prepare_refuses hpermutes hform hrows hconvex hM hcompatible).bind fun _ => runSession_refuses

/-! ### A step size that does not fit to the problem of an earlier solve -/

/-- A problem could not be brought into the session as a system could not be factored. -/
def FailsToFactor (e : ModelError) : Prop :=
  ∃ f, e = .update f ∧ (f = .nonConvex ∨ ∃ g, f = .linearSystem g)

omit [ScalarText K] in
theorem pushSettings_fails {w : Workspace K (AdmmSession K)} (hfaithful : w.Faithful)
    (hlegal : s.validateUpdate w.session.session.settings = .ok ())
    (hrho : s.rho ≠ w.session.session.settings.rho)
    (hnot : ¬w.session.session.data.Definite s.sigma s.rho) :
    Leads (fun M => M.workspace = some w ∧ M.settings = s) (pushSettings (admmEngine env))
      (fun _ _ => False) (fun e _ => FailsToFactor e) := by
  obtain ⟨f, hf, hkind⟩ := Session.updateSettings_fails hfaithful.reachable hlegal hrho hnot
  rintro M ⟨hw, rfl⟩
  have hdiffer : ((admmEngine env).settings w.session != M.settings) = true := by
    show (!(w.session.session.settings == M.settings)) = true
    rw [Bool.not_eq_true']
    refine Bool.eq_false_iff.mpr fun hsame => hrho ?_
    exact (eq_of_beq (Settings.rho_beq hsame)).symm
  rcases hcall : (admmEngine env).call (.updateSettings M.settings) w.session M.shared with
    ⟨r, T, e⟩
  obtain ⟨U, hU, -⟩ := admmEngine_call hcall
  have hr : r = .error f := (congrArg Prod.fst hU).symm.trans hf
  unfold pushSettings
  rw [on_bind, on_get]
  simp only [hw, hdiffer, if_true]
  rw [on_callSession _ _ _ hw hcall, hr]
  exact ⟨f, rfl, hkind⟩

/-- New settings are tried before anything else. -/
theorem solve_fails {M : Model K Unit (AdmmSession K)} {w : Workspace K (AdmmSession K)}
    (hreleased : M.state ≠ .released) (hform : M.standardForm = .ok F) (hw : M.workspace = some w)
    (hfaithful : w.Faithful)
    (hpath : M.choosePath (admmEngine env) F = .update)
    (hrho : M.settings.rho ≠ w.session.session.settings.rho)
    (hnot : ¬w.session.session.data.Definite M.settings.sigma M.settings.rho) :
    Leads (· = M) (solve (admmEngine env)) (fun _ _ => False)
      (fun e _ => FailsToFactor e ∨ ∃ o, e = .output o ∧ M.settings.verbose = true) := by
  have hlegal : M.settings.validateUpdate w.session.session.settings = .ok () := by
    simp only [choosePath, hw, SolvePath.select] at hpath
    split at hpath
    · rename_i hvalid
      exact hvalid
    · cases hpath
  have hlive : M.requireLive = .ok () := requireLive_of_unreleased hreleased
  have hpush : Leads _ (pushSettings (admmEngine env)) _ _ :=
    pushSettings_fails hfaithful hlegal hrho hnot
  have hupdate : Leads (fun N => N.workspace = some w ∧ N.settings = M.settings)
      (updateSession (admmEngine env) F) (fun _ _ => False)
      (fun e _ => FailsToFactor e ∨ ∃ o, e = .output o ∧ M.settings.verbose = true) :=
    Leads.tryCatch (R := fun e _ => FailsToFactor e) (hpush.bind fun _ _ h => h.elim) fun e =>
      Leads.bind (R := fun _ _ => FailsToFactor e) (Leads.modify fun _ he => he) fun _ =>
        Leads.throw fun _ he => .inl he
  refine Leads.bind (R := fun _ _ => False) ?_ fun _ _ h => h.elim
  intro N hN
  rw [hN, on_prepare _ hlive hform, hpath]
  exact (Leads.bind (R := fun _ N => N.workspace = some w ∧ N.settings = M.settings)
    (report_leads _ (fun _ _ hN => hN) fun _ o hN hverbose => .inr ⟨o, rfl, hN.2 ▸ hverbose⟩)
      fun _ => hupdate.bind fun _ _ h => h.elim) _ ⟨hw, rfl⟩

/-- Whatever a model was used for before, a problem with a convex objective is not refused for
a factorisation on its way into a session, if no new step size is tried with a problem of an
earlier solve that is not convex. It fails if one is tried that does not make up for that, and
the report before does not fail. -/
theorem takes_convex {M : Model K Unit (AdmmSession K)} (hM : M.Driven)
    (hform : M.standardForm = .ok F) :
    (env.Permutes → M.constraints.size ≤ arrayLimit → F.P.Semidefinite → M.Compatible F →
      ∀ f, (on (solve (admmEngine env)) M).1 = .error (.setup f) ∨
        (on (solve (admmEngine env)) M).1 = .error (.update f) → f.isRefusal = true) ∧
    ∀ w, M.workspace = some w → M.choosePath (admmEngine env) F = .update →
      M.settings.rho ≠ w.session.session.settings.rho →
      ¬w.session.session.data.Definite M.settings.sigma M.settings.rho →
      (∃ f, (on (solve (admmEngine env)) M).1 = .error (.update f) ∧
        (f = .nonConvex ∨ ∃ g, f = .linearSystem g)) ∨
      ∃ o, (on (solve (admmEngine env)) M).1 = .error (.output o) ∧
        M.settings.verbose = true := by
  constructor
  · intro hpermutes hrows hconvex hcompatible f hf
    have hrefuses := solve_refuses hpermutes hform hrows hconvex (fun w => hM.faithful) hcompatible
    rcases hf with hf | hf
    · exact hrefuses.of_error rfl (Prod.ext hf rfl) f (.inl rfl)
    · exact hrefuses.of_error rfl (Prod.ext hf rfl) f (.inr rfl)
  · intro w hw hpath hrho hnot
    have hreleased : M.state ≠ .released := by
      rw [hM.inStep.mpr ⟨w, hw⟩]
      exact nofun
    have hfails := solve_fails hreleased hform hw (hM.faithful hw) hpath hrho hnot
    rcases hsolve : on (solve (admmEngine env)) M with ⟨e | status, N⟩
    · rcases hfails.of_error rfl hsolve with ⟨f, rfl, hkind⟩ | ⟨o, rfl, hverbose⟩
      · exact .inl ⟨f, rfl, hkind⟩
      · exact .inr ⟨o, rfl, hverbose⟩
    · exact (hfails.of_ok rfl hsolve).elim

omit [IsStrictOrderedRing K] in
theorem driven_run (env : Environment K) (ops : List (ModelOp K)) :
    (run (admmEngine env) () ops).Driven := by
  induction ops using List.reverseRecOn with
  | nil => exact .new env
  | append_singleton ops op ih =>
    rw [run_concat]
    exact .perform env op ih

/-- Minimise `½ a x²` for `x = 0`: solved with `a = -1`, now `a` is `1`, and there may be another
step size. -/
def straightened (rho : ℚ) : Model ℚ Unit (AdmmSession ℚ) :=
  let square (c : ℚ) : QuadExpr ℚ := QuadExpr.empty.addProduct ⟨0⟩ ⟨0⟩ c
  run (admmEngine (.still ℚ)) () [.addVariable, .setObjective (square (-0.5)),
    .addConstraint (.between (.ofVariable ⟨0⟩) 0 0), .setSettings plainSettings, .solve,
    .setObjective (square 0.5), .setSettings { plainSettings with rho := rho }]

theorem straightened_form (rho : ℚ) : ∃ F I, (straightened rho).standardForm = .ok F ∧
    F.toQpData.clamped.validate = .ok I ∧ I.Convex := by
  have hrun : ((straightened 1).standardForm.toOption.any fun F =>
      F.toQpData.clamped.validate.toOption.any fun I =>
        decide (F.A.n = 1) && decide (I.P.csc.entries = [(0, 0, 1)])) = true := by
    decide +kernel
  have hsame : (straightened rho).standardForm = (straightened 1).standardForm := rfl
  rw [hsame]
  cases hform : (straightened 1).standardForm with
  | error e =>
    rw [hform] at hrun
    cases hrun
  | ok F =>
    rw [hform] at hrun
    simp only [Except.toOption, Option.any_some] at hrun
    cases hI : F.toQpData.clamped.validate with
    | error e =>
      rw [hI] at hrun
      cases hrun
    | ok I =>
      rw [hI] at hrun
      simp only [Option.any_some, Bool.and_eq_true, decide_eq_true_eq] at hrun
      exact ⟨F, I, rfl, hI, Instance.convex_of_entries zero_le_one hrun.1 hrun.2⟩

/-- With the old step size the problem is taken over, with a small one it is not. -/
theorem takes_convex_straightened :
    (∀ f, (on (solve (admmEngine (.still ℚ))) (straightened 1)).1 = .error (.setup f) ∨
      (on (solve (admmEngine (.still ℚ))) (straightened 1)).1 = .error (.update f) →
        f.isRefusal = true) ∧
    ∃ f, (on (solve (admmEngine (.still ℚ))) (straightened 1e-6)).1 = .error (.update f) ∧
      (f = .nonConvex ∨ ∃ g, f = .linearSystem g) := by
  have hpermutes : (Environment.still ℚ).Permutes := fun _ _ h => by cases h
  have hdriven : ∀ rho, (straightened rho).Driven := fun rho => driven_run _ _
  constructor
  · obtain ⟨F, I, hform, hI, hconvex⟩ := straightened_form 1
    have hP : F.P.Semidefinite := by
      rw [Instance.convex_iff, (QpData.validate_keeps hI).2.2] at hconvex
      exact hconvex
    have hrho : ((straightened 1).workspace.all fun w =>
        decide ((straightened 1).settings.rho = w.session.session.settings.rho)) = true := by
      decide +kernel
    refine (takes_convex (hdriven 1) hform).1 hpermutes (by decide +kernel) hP fun w hw _ => .inl ?_
    rw [Option.all_eq_true] at hrho
    exact of_decide_eq_true (hrho w hw)
  · obtain ⟨F, I, hform, -, -⟩ := straightened_form 1e-6
    have hrun : ((straightened 1e-6).workspace.any fun w => decide (w.session.n = 1) &&
        decide ((straightened 1e-6).settings.rho ≠ w.session.session.settings.rho) &&
        decide (w.session.session.data.augmented (straightened 1e-6).settings.sigma
          (straightened 1e-6).settings.rho (fun _ => 1) ≤ 0)) = true := by
      decide +kernel
    have hpath : ((straightened 1e-6).standardForm.toOption.all fun F =>
        decide ((straightened 1e-6).choosePath (admmEngine (.still ℚ)) F = .update)) = true := by
      decide +kernel
    have hquiet : (straightened 1e-6).settings.verbose = false := by
      decide +kernel
    rw [hform] at hpath
    obtain ⟨w, hw, hrun⟩ := (Option.any_eq_true _ _).mp hrun
    simp only [Bool.and_eq_true, decide_eq_true_eq] at hrun
    obtain ⟨⟨hn, hrho⟩, hnegative⟩ := hrun
    have hnot : ¬w.session.session.data.Definite (straightened 1e-6).settings.sigma
        (straightened 1e-6).settings.rho := fun hdefinite =>
      (hdefinite (fun _ => 1) fun h => one_ne_zero (congrFun h ⟨0, by omega⟩)).not_ge hnegative
    rcases (takes_convex (hdriven 1e-6) hform).2 w hw
      (of_decide_eq_true hpath) hrho hnot with hfails | ⟨o, -, hverbose⟩
    · exact hfails
    · cases hquiet.symm.trans hverbose

/-- A model whose problem is convex and whose settings are legal fails to be solved: the new
step size is tried with the problem before, which is not convex. -/
theorem exists_convex_refused : ∃ (M : Model ℚ Unit (AdmmSession ℚ)) (F : StandardForm ℚ)
    (I : Instance ℚ F.A.n F.A.m), M.Driven ∧ M.standardForm = .ok F ∧
    F.toQpData.clamped.validate = .ok I ∧ I.Convex ∧ M.settings.validate = .ok () ∧
    (on (solve (admmEngine (.still ℚ))) M).1 = .error (.update .nonConvex) := by
  obtain ⟨F, I, hform, hI, hconvex⟩ := straightened_form 1e-6
  refine ⟨straightened 1e-6, F, I, driven_run _ _, hform, hI, hconvex, by decide +kernel, ?_⟩
  have hrun : decide ((on (solve (admmEngine (.still ℚ))) (straightened 1e-6)).1
      = .error (.update .nonConvex)) = true := by
    decide +kernel
  exact of_decide_eq_true hrun

end Model
end QuadOpt
