/-
# How a model deals with its session

Of everything a model holds, an engine sees the live session and what the sessions share,
and the model keeps copies of the matrices beside the session. So a property of these is kept
by all operations if it is kept by what the engine does: a setup while there is no session,
a call on the live session, and the end of the live session. A call that fails ends the
solve that made it; if it was to bring new data or settings into the session, the session
is dropped at once.

`Engine.Maintains` collects these cases for a property `I` of the session with the copies,
with what holds after an error; `Engine.Protocol` does so for a property that does not look
at the copies. `Engine.Keeps` is about any property of the model, but only until the problem
is in the session; `Engine.KeepsThroughout` is about the whole of a solve. That the state of a
model tells whether it has a session (`Model.InStep`) is such a property.

Key definitions: `SessionCall.isUpdate`, `Engine.Maintains`, `Engine.Protocol`, `Engine.Keeps`,
`Engine.KeepsThroughout`, `Model.InStep`, `Model.run`.
Key theorems: `Engine.Maintains.solve`, `Engine.Maintains.perform`,
`Engine.Protocol.maintains`, `Engine.Protocol.run`, `Engine.Keeps.approach`,
`Engine.KeepsThroughout.solve`, `Model.inStep_run`.
-/
import QuadOpt.Proofs.Model.Run
import QuadOpt.Proofs.Model.StandardForm

namespace QuadOpt

open ModelM

variable {α ε σ : Type}

/-! ### Errors and calls -/

/-- The error of the engine that a model passes on. -/
def ModelError.engine? : ModelError → Option EngineError
  | .setup e | .solve e | .update e => some e
  | _ => none

/-- The call brings new data or settings. -/
def SessionCall.isUpdate : SessionCall α → Bool
  | .updateVectors .. | .updateMatrices .. | .updateSettings _ => true
  | .solve | .warmStart .. => false

theorem SessionCall.ne_updateMatrices {c : SessionCall α} (hc : c.isUpdate = false)
    (Px : Option (Array α)) (PxIdx : Option (Array Nat)) (Ax : Option (Array α))
    (AxIdx : Option (Array Nat)) : c ≠ .updateMatrices Px PxIdx Ax AxIdx := by
  rintro rfl
  cases hc

/-- How a model passes on the error of a call. -/
def SessionCall.phase : SessionCall α → EngineError → ModelError
  | .solve => .solve
  | _ => .update

/-- The errors of a problem do not come from an engine. -/
theorem Model.engine?_of_standardForm [Scalar α] {M : Model α ε σ} {e : ModelError}
    (h : M.standardForm = .error e) : e.engine? = none := by
  unfold Model.standardForm at h
  rcases StandardForm.assemble_cases M.varCount M.objective M.constraints.toList with
    ⟨-, i, hi⟩ | ⟨-, hassemble⟩
  · rw [hi] at h
    cases h
    rfl
  · rw [hassemble] at h
    split at h
    · cases h
      rfl
    · cases h

theorem Model.engine?_of_requireLive {M : Model α ε σ} {e : ModelError}
    (h : M.requireLive = .error e) : e.engine? = none := by
  unfold Model.requireLive at h
  split at h
  · cases h
    rfl
  · cases h

theorem Model.engine?_of_checkStartPoint {n m : Nat} {p : StartPoint α} {e : ModelError}
    (h : checkStartPoint n m p = .error e) : e.engine? = none := by
  have hlength : ∀ what expected (v : Option (Array α)) e,
      requireLength what expected v = .error e → e.engine? = none := by
    intro what expected v e h
    unfold requireLength at h
    split at h
    · split at h
      · cases h
      · cases h
        rfl
    · cases h
  simp only [checkStartPoint, bind, Except.bind] at h
  split at h
  · rename_i hx
    cases h
    exact hlength _ _ _ _ hx
  · exact hlength _ _ _ _ h

/-! ### Workspaces -/

namespace Model

/-- The property `I` of the live workspace, if there is one, and of what the sessions share. -/
def Meets (I : Option (Workspace α σ) → ε → Prop) (M : Model α ε σ) : Prop :=
  I M.workspace M.shared

/-- The property `I` of the live session, if there is one, and of what the sessions share. -/
def At (I : Option σ → ε → Prop) (M : Model α ε σ) : Prop := I M.session? M.shared

theorem at_eq_meets (I : Option σ → ε → Prop) :
    At I = Meets (α := α) fun w => I (w.map Workspace.session) := rfl

end Model

/-! ### Properties that the way into a session does not touch -/

/-- The property `P` of a model does not get lost while a problem is brought into a session,
whatever the engine does and whether it succeeds or not. -/
structure Engine.Keeps (E : Engine α ε σ) (P : Model α ε σ → Prop) : Prop where
  output : ∀ {M} (o : Output), P M → P { M with output := o }
  drop : ∀ {M w}, P M → M.workspace = some w →
    P { M with workspace := none, state := .uninitialized, shared := E.drop w.session M.shared }
  /-- there was no session to drop -/
  reset : ∀ {M}, P M → M.workspace = none → P { M with state := .uninitialized }
  setup : ∀ {M D s S e}, P M → E.setup D s M.shared = (.ok S, e) →
    P { M with workspace := some ⟨S, D.P, D.A⟩, state := .built, shared := e }
  setup_error : ∀ {M D s f e}, P M → E.setup D s M.shared = (.error f, e) →
    P { M with shared := e }
  update : ∀ {M w c r S e}, P M → M.workspace = some w → c.isUpdate = true →
    E.call c w.session M.shared = (r, S, e) →
    P { M with workspace := some { w with session := S }, shared := e }
  copies : ∀ {M w} (B C : Csc α), P M → M.workspace = some w →
    P { M with workspace := some { w with P := B, A := C } }

namespace Engine.Keeps

variable {E : Engine α ε σ} {P : Model α ε σ → Prop} (h : E.Keeps P)

include h

theorem report (lines : List String) :
    Ensures P (Model.report lines : ModelM α ε σ Unit) (fun _ => P) P :=
  Model.report_ensures lines fun _ o hM => h.output o hM

theorem discardSession {M : Model α ε σ} (hM : P M) : P (M.discardSession E) := by
  unfold Model.discardSession
  cases hs : M.workspace with
  | some w =>
    rw [Model.dropSession_of_some E hs]
    exact h.drop hM hs
  | none =>
    rw [Model.dropSession_of_none E hs]
    exact h.reset hM hs

theorem callSession (phase : EngineError → ModelError) {c : SessionCall α}
    (hc : c.isUpdate = true) : Ensures P (Model.callSession E phase c) (fun _ => P) P :=
  Model.callSession_ensures E phase c
    (fun _ _ _ _ _ hM hs hcall => ⟨fun _ => h.update hM hs hc hcall,
      fun _ => h.update hM hs hc hcall⟩) fun _ hM _ => hM

theorem startSession (F : StandardForm α) :
    Ensures P (Model.startSession E F) (fun _ => P) P := by
  refine Ensures.bind (R := fun _ => P) (Ensures.modify fun _ hM => h.discardSession hM) fun _ =>
    Ensures.get_bind fun M hM => ?_
  rcases hsetup : E.setup F.toQpData M.settings M.shared with ⟨f | S, e⟩
  · exact Ensures.bind (R := fun _ => P) (Ensures.set (h.setup_error hM hsetup)) fun _ =>
      Ensures.throw fun _ => id
  · exact Ensures.set (h.setup hM hsetup)

variable [Scalar α]

theorem pushSettings : Ensures P (Model.pushSettings E) (fun _ => P) P := by
  refine Ensures.get_bind fun M hM => ?_
  split
  · split
    · exact (h.callSession _ rfl).weaken (fun N hN => hN ▸ hM) (fun _ _ => id) fun _ => id
    · exact Ensures.pure fun N hN => hN ▸ hM
  · exact Ensures.pure fun N hN => hN ▸ hM

theorem pushMatrices (F : StandardForm α) :
    Ensures P (Model.pushMatrices E F) (fun _ => P) P := by
  have hcopy : ∀ M : Model α ε σ, P M → P (M.copyMatrices F) := by
    intro M hM
    unfold Model.copyMatrices
    split
    · exact h.copies _ _ hM ‹_›
    · exact hM
  refine Ensures.get_bind fun M hM => ?_
  split
  · simp only
    split
    · exact Ensures.bind (R := fun _ => P) ((h.callSession _ rfl).weaken
        (fun N hN => hN ▸ hM) (fun _ _ => id) fun _ => id) fun _ => Ensures.modify hcopy
    · exact Ensures.pure fun N hN => hN ▸ hM
  · exact Ensures.pure fun N hN => hN ▸ hM

theorem bring (F : StandardForm α) (path : SolvePath) :
    Ensures P (Model.bring E F path) (fun _ => P) P := by
  cases path with
  | setup | rebuild => exact h.startSession F
  | update =>
    have hpush : Ensures P (Model.pushChanges E F) (fun _ => P) P :=
      h.pushSettings.bind fun _ => (h.pushMatrices F).bind fun _ => h.callSession _ rfl
    exact hpush.tryCatch fun e => Ensures.bind (R := fun _ => P)
      (Ensures.modify fun _ hM => h.discardSession hM) fun _ => Ensures.throw fun _ => id

/-- A property that does not look at the stored outcome is kept up to the start point. -/
theorem approach [ScalarText α] (hclear : ∀ M, P M → P { M with solution := none }) :
    Ensures P (Model.approach E) (fun _ => P) P := by
  refine Ensures.get_bind fun M hM => Ensures.bind (R := fun _ => P)
    (Ensures.lift (fun N _ hN _ => hN ▸ hM) fun N hN => hN ▸ hM) fun _ => ?_
  refine Ensures.bind (R := fun _ => P) (Ensures.modify hclear) fun _ =>
    Ensures.get_bind fun N hN => ?_
  refine Ensures.bind (R := fun _ => P)
    (Ensures.lift (fun L _ hL _ => hL ▸ hN) fun L hL => hL ▸ hN) fun F => ?_
  exact (h.report _).bind fun _ => (h.bring F _).bind fun _ => Ensures.pure fun _ => id

end Engine.Keeps

/-- The property `P` of a model does not get lost in the rest of a solve either, unless it is about
the stored outcome. -/
structure Engine.KeepsThroughout (E : Engine α ε σ) (P : Model α ε σ → Prop) : Prop
    extends E.Keeps P where
  call : ∀ {M w c r S e}, P M → M.workspace = some w → E.call c w.session M.shared = (r, S, e) →
    P { M with workspace := some { w with session := S }, shared := e }
  startPoint : ∀ {M}, P M → P { M with startPoint := none }

namespace Engine.KeepsThroughout

variable {E : Engine α ε σ} {P : Model α ε σ → Prop} (h : E.KeepsThroughout P)

include h

theorem callSession (phase : EngineError → ModelError) (c : SessionCall α) :
    Ensures P (Model.callSession E phase c) (fun _ => P) P :=
  Model.callSession_ensures E phase c
    (fun _ _ _ _ _ hM hs hcall => ⟨fun _ => h.call hM hs hcall, fun _ => h.call hM hs hcall⟩)
    fun _ hM _ => hM

theorem passStartPoint (F : StandardForm α) :
    Ensures P (Model.passStartPoint E F) (fun _ => P) P := by
  refine Ensures.get_bind fun M hM => ?_
  cases M.startPoint with
  | none => exact Ensures.pure fun N hN => hN ▸ hM
  | some p =>
    exact Ensures.bind (R := fun _ => P) (Ensures.modify fun N hN => h.startPoint (hN ▸ hM))
      fun _ => Ensures.bind (R := fun _ => P) (Ensures.lift (fun _ _ hN _ => hN) fun _ => id)
        fun _ => h.callSession _ _

variable [Scalar α] [ScalarText α] (hsolution : ∀ M r, P M → P { M with solution := r })

include hsolution

theorem runSession (F : StandardForm α) (path : SolvePath) :
    Ensures P (Model.runSession E F path) (fun _ => P) P := by
  refine (h.callSession _ _).bind fun _ => Ensures.bind (R := fun _ => P) ?_ fun r =>
    (h.report _).bind fun _ => Ensures.pure fun _ => id
  refine Ensures.get_bind fun M hM => ?_
  cases M.session? with
  | none => exact Ensures.throw fun N hN => hN ▸ hM
  | some S =>
    exact Ensures.bind (R := fun _ => P) (Ensures.modify fun N hN => hsolution N _ (hN ▸ hM))
      fun _ => Ensures.pure fun _ => id

theorem solve : Ensures P (Model.solve E) (fun _ => P) P := by
  rw [Model.solve_eq]
  exact (h.approach fun M => hsolution M none).bind fun b => (h.passStartPoint b.1).bind fun _ =>
    h.runSession hsolution b.1 b.2

end Engine.KeepsThroughout

/-! ### The state tells whether there is a session -/

namespace Model

/-- The state of a model tells whether it has a session. -/
def InStep (M : Model α ε σ) : Prop := M.state = .built ↔ ∃ w, M.workspace = some w

variable (E : Engine α ε σ)

/-- Between the end of a session and the next setup, and after a setup that failed, there is
neither a session nor the state of one. -/
theorem keeps_inStep : E.KeepsThroughout InStep where
  output _ h := h
  drop _ _ := iff_of_false nofun nofun
  reset _ hs := iff_of_false nofun fun ⟨w, hw⟩ => by cases hs.symm.trans hw
  setup _ _ := iff_of_true rfl ⟨_, rfl⟩
  setup_error h _ := h
  update h hs _ _ := iff_of_true (h.mpr ⟨_, hs⟩) ⟨_, rfl⟩
  copies _ _ h hs := iff_of_true (h.mpr ⟨_, hs⟩) ⟨_, rfl⟩
  call h hs _ := iff_of_true (h.mpr ⟨_, hs⟩) ⟨_, rfl⟩
  startPoint h := h

/-- No solve releases a model. -/
theorem keeps_unreleased : E.KeepsThroughout fun M => M.state ≠ .released where
  output _ h := h
  drop _ _ := nofun
  reset _ _ := nofun
  setup _ _ := nofun
  setup_error h _ := h
  update h _ _ _ := h
  copies _ _ h _ := h
  call h _ _ := h
  startPoint h := h

end Model

/-! ### Properties that the engine keeps -/

variable [Scalar α]

/-- What the engine does keeps the property `I`, and leads to `X` where it fails. Copies of the
matrices are made in a setup, and are overwritten once new values were passed on. -/
structure Engine.Maintains (E : Engine α ε σ) (I : Option (Workspace α σ) → ε → Prop)
    (X : ModelError → Option (Workspace α σ) → ε → Prop) : Prop where
  drop : ∀ {w e}, I (some w) e → I none (E.drop w.session e)
  setup : ∀ {D s e S e'}, I none e → E.setup D s e = (.ok S, e') → I (some ⟨S, D.P, D.A⟩) e'
  setup_error : ∀ {D s e f e'}, I none e → E.setup D s e = (.error f, e') → X (.setup f) none e'
  call : ∀ {c w e T e'}, I (some w) e →
    (∀ Px PxIdx Ax AxIdx, c ≠ .updateMatrices Px PxIdx Ax AxIdx) →
    E.call c w.session e = (.ok (), T, e') → I (some { w with session := T }) e'
  matrices : ∀ {F : StandardForm α} {w e T e'}, I (some w) e →
    E.call (.updateMatrices (Model.newValues w.P F.P) none (Model.newValues w.A F.A) none)
      w.session e = (.ok (), T, e') →
    I (some ⟨T, { w.P with nzval := F.P.nzval }, { w.A with nzval := F.A.nzval }⟩) e'
  update_error : ∀ {c w e f T e'}, I (some w) e → c.isUpdate = true →
    E.call c w.session e = (.error f, T, e') → X (.update f) none (E.drop T e')
  call_error : ∀ {c w e f T e'}, I (some w) e → c.isUpdate = false →
    E.call c w.session e = (.error f, T, e') → X (c.phase f) (some { w with session := T }) e'
  /-- the errors that no engine is the cause of -/
  other_error : ∀ {w e f}, I w e → f.engine? = none → X f w e

/-- What the engine does keeps the property `I`, and leads to `X` where it fails. -/
structure Engine.Protocol (E : Engine α ε σ) (I : Option σ → ε → Prop)
    (X : ModelError → Option σ → ε → Prop) : Prop where
  drop : ∀ {S e}, I (some S) e → I none (E.drop S e)
  setup : ∀ {D s e S e'}, I none e → E.setup D s e = (.ok S, e') → I (some S) e'
  setup_error : ∀ {D s e f e'}, I none e → E.setup D s e = (.error f, e') → X (.setup f) none e'
  call : ∀ {c S e T e'}, I (some S) e → E.call c S e = (.ok (), T, e') → I (some T) e'
  update_error : ∀ {c S e f T e'}, I (some S) e → c.isUpdate = true →
    E.call c S e = (.error f, T, e') → X (.update f) none (E.drop T e')
  call_error : ∀ {c S e f T e'}, I (some S) e → c.isUpdate = false →
    E.call c S e = (.error f, T, e') → X (c.phase f) (some T) e'
  /-- the errors that no engine is the cause of -/
  other_error : ∀ {S e f}, I S e → f.engine? = none → X f S e

theorem Engine.Protocol.maintains {E : Engine α ε σ} {I : Option σ → ε → Prop}
    {X : ModelError → Option σ → ε → Prop} (h : E.Protocol I X) :
    E.Maintains (fun w => I (w.map Workspace.session)) fun f w => X f (w.map Workspace.session)
    where
  drop := h.drop
  setup := h.setup
  setup_error := h.setup_error
  call hI _ := h.call hI
  matrices hI := h.call hI
  update_error := h.update_error
  call_error := h.call_error
  other_error := h.other_error

namespace Engine.Maintains

variable {E : Engine α ε σ} {I : Option (Workspace α σ) → ε → Prop}
  {X : ModelError → Option (Workspace α σ) → ε → Prop} (h : E.Maintains I X)

include h

/-! ### The session -/

theorem dropSession {M : Model α ε σ} (hM : M.Meets I) : I none (M.dropSession E).shared := by
  unfold Model.Meets at hM
  cases hs : M.workspace with
  | some w =>
    rw [hs] at hM
    rw [Model.dropSession_of_some E hs]
    exact h.drop hM
  | none =>
    rw [hs] at hM
    rw [Model.dropSession_of_none E hs]
    exact hM

/-- A call other than an update leaves the session in place even if it fails. -/
theorem callSession {c : SessionCall α} (hc : c.isUpdate = false) :
    Leads (Model.Meets I) (Model.callSession E c.phase c) (fun _ => Model.Meets I)
      (fun e => Model.Meets (X e)) := by
  refine Model.callSession_leads E _ _ ?_ ?_ ?_
  · intro M w S e hM hs hcall
    rw [Model.Meets, hs] at hM
    exact h.call hM (SessionCall.ne_updateMatrices hc) hcall
  · intro M w f S e hM hs hcall
    rw [Model.Meets, hs] at hM
    exact h.call_error hM hc hcall
  · exact fun M hM _ => h.other_error hM rfl

/-- After an update that failed the session has to be dropped. -/
theorem callSession_update {c : SessionCall α} (hc : c.isUpdate = true) {P Q : Model α ε σ → Prop}
    (hP : ∀ M, P M → M.Meets I)
    (hok : ∀ (M : Model α ε σ) w S e, P M → M.workspace = some w →
      E.call c w.session M.shared = (.ok (), S, e) →
      Q { M with workspace := some { w with session := S }, shared := e }) :
    Leads P (Model.callSession E .update c) (fun _ => Q)
      (fun e N => (N.dropSession E).Meets (X e)) := by
  refine Model.callSession_leads E _ _ hok ?_ ?_
  · intro M w f S e hM hs hcall
    have hw := hP M hM
    rw [Model.Meets, hs] at hw
    exact h.update_error hw hc hcall
  · intro M hM hs
    rw [Model.dropSession_of_none E hs]
    exact h.other_error (hP M hM) rfl

/-- An update of anything but the matrices does not affect the copies. -/
theorem callSession_meets {c : SessionCall α} (hc : c.isUpdate = true)
    (hmatrices : ∀ Px PxIdx Ax AxIdx, c ≠ .updateMatrices Px PxIdx Ax AxIdx) :
    Leads (Model.Meets I) (Model.callSession E .update c) (fun _ => Model.Meets I)
      (fun e N => (N.dropSession E).Meets (X e)) := by
  refine h.callSession_update hc (fun _ => id) fun M w S e hM hs hcall => ?_
  rw [Model.Meets, hs] at hM
  exact h.call hM hmatrices hcall

theorem report (lines : List String) :
    Leads (Model.Meets I) (Model.report lines : ModelM α ε σ Unit) (fun _ => Model.Meets I)
      (fun e => Model.Meets (X e)) :=
  Model.report_leads lines (fun _ _ hM => hM) fun _ _ hM _ => h.other_error hM rfl

/-! ### Bringing a problem into a session -/

theorem startSession (F : StandardForm α) :
    Leads (Model.Meets I) (Model.startSession E F) (fun _ => Model.Meets I)
      (fun e => Model.Meets (X e)) := by
  refine Leads.bind (R := fun _ M => M.workspace = none ∧ I none M.shared)
    (Leads.modify fun M hM => ⟨Model.workspace_discardSession E M, h.dropSession hM⟩) fun _ =>
      Leads.get_bind fun M ⟨hs, hM⟩ => ?_
  rcases hsetup : E.setup F.toQpData M.settings M.shared with ⟨f | S, e⟩
  · refine Leads.bind (R := fun _ N => N = _) (Leads.set rfl) fun _ => Leads.throw fun N hN => ?_
    subst hN
    have hX := h.setup_error hM hsetup
    rw [← hs] at hX
    exact hX
  · exact Leads.set (h.setup hM hsetup)

theorem passStartPoint (F : StandardForm α) :
    Leads (Model.Meets I) (Model.passStartPoint E F) (fun _ => Model.Meets I)
      (fun e => Model.Meets (X e)) := by
  refine Leads.get_bind fun M hM => ?_
  cases M.startPoint with
  | none => exact Leads.pure fun N hN => hN ▸ hM
  | some p =>
    refine Leads.bind (R := fun _ => Model.Meets I) (Leads.modify ?_) fun _ =>
      Leads.bind (R := fun _ => Model.Meets I) (Leads.lift (fun _ _ hN _ => hN) ?_) fun _ =>
        h.callSession (c := .warmStart p.x p.y) rfl
    · rintro _ rfl
      exact hM
    · exact fun N e hN he => h.other_error hN (Model.engine?_of_checkStartPoint he)

theorem pushSettings :
    Leads (Model.Meets I) (Model.pushSettings E) (fun _ => Model.Meets I)
      (fun e N => (N.dropSession E).Meets (X e)) := by
  refine Leads.get_bind fun M hM => ?_
  split
  · split
    · exact (h.callSession_meets rfl fun _ _ _ _ he => by cases he).weaken (fun N hN => hN ▸ hM)
        (fun _ _ => id) fun _ _ => id
    · exact Leads.pure fun N hN => hN ▸ hM
  · exact Leads.pure fun N hN => hN ▸ hM

/-- The copies are overwritten after the call, so the property is not looked at in between. -/
theorem pushMatrices (F : StandardForm α) :
    Leads (Model.Meets I) (Model.pushMatrices E F) (fun _ => Model.Meets I)
      (fun e N => (N.dropSession E).Meets (X e)) := by
  refine Leads.get_bind fun M hM => ?_
  split
  · rename_i w hw
    simp only
    split
    · refine Leads.bind (R := fun _ N => (N.copyMatrices F).Meets I)
        (h.callSession_update rfl (fun N hN => hN ▸ hM) ?_) fun _ => Leads.modify fun N hN => hN
      rintro _ v T e rfl hv hcall
      obtain rfl : w = v := by simpa [hw] using hv
      rw [Model.Meets, hw] at hM
      show I (some ⟨T, { w.P with nzval := F.P.nzval }, { w.A with nzval := F.A.nzval }⟩) e
      exact h.matrices hM hcall
    · exact Leads.pure fun N hN => hN ▸ hM
  · exact Leads.pure fun N hN => hN ▸ hM

theorem updateSession (F : StandardForm α) :
    Leads (Model.Meets I) (Model.updateSession E F) (fun _ => Model.Meets I)
      (fun e => Model.Meets (X e)) := by
  have hpush : Leads (Model.Meets I) (Model.pushChanges E F) (fun _ => Model.Meets I)
      (fun e N => (N.dropSession E).Meets (X e)) :=
    h.pushSettings.bind fun _ => (h.pushMatrices F).bind fun _ =>
      h.callSession_meets rfl fun _ _ _ _ he => by cases he
  exact hpush.tryCatch fun e => Leads.bind (R := fun _ => Model.Meets (X e))
    (Leads.modify fun M hM => hM) fun _ => Leads.throw fun M hM => hM

theorem bring (F : StandardForm α) (path : SolvePath) :
    Leads (Model.Meets I) (Model.bring E F path) (fun _ => Model.Meets I)
      (fun e => Model.Meets (X e)) := by
  cases path with
  | setup | rebuild => exact h.startSession F
  | update => exact h.updateSession F

/-! ### Solves -/

variable [ScalarText α]

theorem prepare :
    Leads (Model.Meets I) (Model.prepare E) (fun _ => Model.Meets I)
      (fun e => Model.Meets (X e)) := by
  refine Leads.get_bind fun M hM => ?_
  refine Leads.bind (R := fun _ => Model.Meets I) (Leads.lift ?_ ?_) fun _ => ?_
  · rintro _ _ rfl -
    exact hM
  · rintro _ e rfl he
    exact h.other_error hM (Model.engine?_of_requireLive he)
  refine Leads.bind (R := fun _ => Model.Meets I) (Leads.modify fun N hN => hN) fun _ =>
    Leads.get_bind fun N hN => ?_
  refine Leads.bind (R := fun _ => Model.Meets I) (Leads.lift ?_ ?_) fun F => ?_
  · rintro _ _ rfl -
    exact hN
  · rintro _ e rfl he
    exact h.other_error hN (Model.engine?_of_standardForm he)
  exact (h.report _).bind fun _ => (h.bring F _).bind fun _ => (h.passStartPoint F).bind fun _ =>
    Leads.pure fun _ => id

theorem runSession (F : StandardForm α) (path : SolvePath) :
    Leads (Model.Meets I) (Model.runSession E F path) (fun _ => Model.Meets I)
      (fun e => Model.Meets (X e)) := by
  refine (h.callSession (c := .solve) rfl).bind fun _ => Leads.bind (R := fun _ => Model.Meets I) ?_
    fun r => (h.report _).bind fun _ => Leads.pure fun _ => id
  refine Leads.get_bind fun M hM => ?_
  cases M.session? with
  | none => exact Leads.throw fun N hN => hN ▸ h.other_error hM rfl
  | some S =>
    refine Leads.bind (R := fun _ => Model.Meets I) (Leads.modify ?_) fun _ =>
      Leads.pure fun _ => id
    rintro _ rfl
    exact hM

/-- A solve keeps the property, whatever becomes of it. -/
theorem solve :
    Leads (Model.Meets I) (Model.solve E) (fun _ => Model.Meets I) (fun e => Model.Meets (X e)) :=
  h.prepare.bind fun b => h.runSession b.1 b.2

end Engine.Maintains

/-! ### Runs -/

namespace Model

variable [ScalarText α] (E : Engine α ε σ)

/-- The model that operations lead to from an empty one. -/
def run (shared : ε) (ops : List (ModelOp α)) : Model α ε σ :=
  ops.foldl (perform E) (Model.new E shared)

theorem run_concat (shared : ε) (ops : List (ModelOp α)) (op : ModelOp α) :
    run E shared (ops ++ [op]) = (run E shared ops).perform E op := by
  simp [run]

theorem reachable_run (shared : ε) (ops : List (ModelOp α)) : Reachable E (run E shared ops) := by
  induction ops using List.reverseRecOn with
  | nil => exact .new shared
  | append_singleton ops op ih =>
    rw [run_concat]
    exact .perform op ih

/-- Only a solve and a release touch the session. -/
theorem perform_session {M : Model α ε σ} {op : ModelOp α} (hsolve : op ≠ .solve)
    (hrelease : op ≠ .release) : (M.perform E op).workspace = M.workspace ∧
      (M.perform E op).state = M.state ∧ (M.perform E op).shared = M.shared := by
  cases op with
  | solve => exact absurd rfl hsolve
  | release => exact absurd rfl hrelease
  | setBounds i lower upper =>
    simp only [perform, setBounds]
    cases M.constraint i <;> exact ⟨rfl, rfl, rfl⟩
  | setStartPoint p =>
    simp only [perform, setStartPoint]
    cases M.requireLive with
    | error e => exact ⟨rfl, rfl, rfl⟩
    | ok _ => cases checkStartPoint M.varCount M.constraints.size p <;> exact ⟨rfl, rfl, rfl⟩
  | _ => exact ⟨rfl, rfl, rfl⟩

omit [ScalarText α] in
theorem inStep_new (shared : ε) : (Model.new E shared).InStep := iff_of_false nofun nofun

/-- Whatever is done with a model, its state goes on to tell whether it has a session. -/
theorem InStep.perform {M : Model α ε σ} (h : M.InStep) (op : ModelOp α) :
    (M.perform E op).InStep := by
  by_cases hsolve : op = .solve
  · subst hsolve
    exact ((keeps_inStep E).solve fun _ _ => id).after h
  · by_cases hrelease : op = .release
    · subst hrelease
      exact iff_of_false nofun fun ⟨w, hw⟩ => by cases (workspace_release E M).symm.trans hw
    · obtain ⟨hworkspace, hstate, -⟩ := perform_session E (M := M) hsolve hrelease
      unfold InStep
      rwa [hworkspace, hstate]

/-- After every run the state tells whether there is a session. -/
theorem inStep_run (shared : ε) (ops : List (ModelOp α)) : (run E shared ops).InStep := by
  induction ops using List.reverseRecOn with
  | nil => exact inStep_new E shared
  | append_singleton ops op ih =>
    rw [run_concat]
    exact ih.perform E op

end Model

/-- A property that the engine keeps, and that does not get lost by errors, is kept by every
operation on a model. -/
theorem Engine.Maintains.perform [ScalarText α] {E : Engine α ε σ}
    {I : Option (Workspace α σ) → ε → Prop} (h : E.Maintains I fun _ => I) {M : Model α ε σ}
    (hM : M.Meets I) (op : ModelOp α) : (M.perform E op).Meets I := by
  by_cases hsolve : op = .solve
  · subst hsolve
    exact Ensures.after h.solve hM
  · by_cases hrelease : op = .release
    · subst hrelease
      have hnone : (M.perform E .release).workspace = none := Model.workspace_release E M
      rw [Model.Meets, hnone]
      exact h.dropSession hM
    · obtain ⟨hworkspace, -, hshared⟩ := Model.perform_session E (M := M) hsolve hrelease
      unfold Model.Meets
      rwa [hworkspace, hshared]

namespace Engine.Protocol

variable [ScalarText α] {E : Engine α ε σ} {I : Option σ → ε → Prop}

/-- A solve keeps to the protocol, whatever becomes of it. -/
theorem solve {X : ModelError → Option σ → ε → Prop} (h : E.Protocol I X) :
    Leads (Model.At I) (Model.solve E) (fun _ => Model.At I) (fun e => Model.At (X e)) := by
  simpa only [Model.at_eq_meets] using h.maintains.solve

/-- A property that the engine keeps, and that does not get lost by errors, holds after every
run. -/
theorem run (h : E.Protocol I fun _ => I) {shared : ε} (hstart : I none shared)
    (ops : List (ModelOp α)) : (Model.run E shared ops).At I := by
  rw [Model.at_eq_meets]
  induction ops using List.reverseRecOn with
  | nil => exact hstart
  | append_singleton ops op ih =>
    rw [Model.run_concat]
    exact h.maintains.perform ih op

end Engine.Protocol
end QuadOpt
