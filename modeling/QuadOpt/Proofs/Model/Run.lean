/-
# Runs of a model

What a computation on a model gives and leaves behind, and the models that the
operations of a caller lead to. A computation is followed by assertions:
`Leads P x Q X` says that `x` leads from a model with `P` to one with `Q` if
it succeeds, and to one with `X` if it fails; `Ensures` does so without a look at
the error. An operation that is refused
leaves the model as it was; a solve may fail in any phase and keeps what it did
until then.

Key definitions: `ModelM.on`, `ModelM.Leads`, `ModelM.Ensures`, `ModelOp`,
`Model.approach`, `Model.perform`, `Model.Reachable`, `Model.SameContents`.
Key theorems: `ModelM.Leads.bind`, `ModelM.Leads.tryCatch`,
`Model.callSession_leads`, `Model.report_leads`, `Model.solve_eq`.
-/
import QuadOpt.Model.Solve

namespace QuadOpt

variable {α ε σ : Type}

namespace ModelM

variable {β γ : Type}

/-- The result of a computation, and the model it leaves behind. -/
def on (x : ModelM α ε σ β) (M : Model α ε σ) : Except ModelError β × Model α ε σ :=
  StateT.run (ExceptT.run x) M

section On

variable (M : Model α ε σ)

theorem on_throw (e : ModelError) : on (throw e : ModelM α ε σ β) M = (.error e, M) := rfl

theorem on_lift (r : Except ModelError β) :
    on (ExceptT.mk (pure r) : ModelM α ε σ β) M = (r, M) := rfl

theorem on_get : on (get : ModelM α ε σ (Model α ε σ)) M = (.ok M, M) := rfl

theorem on_set (N : Model α ε σ) : on (set N : ModelM α ε σ PUnit) M = (.ok ⟨⟩, N) := rfl

theorem on_bind (x : ModelM α ε σ β) (f : β → ModelM α ε σ γ) :
    on (x >>= f) M =
      match on x M with
      | (.ok b, N) => on (f b) N
      | (.error e, N) => (.error e, N) := by
  show StateT.run (ExceptT.run (x >>= f)) M = _
  unfold on ExceptT.run StateT.run
  simp only [bind, ExceptT.bind, ExceptT.mk, StateT.bind]
  rcases x M with ⟨_ | _, _⟩ <;> rfl

theorem on_tryCatch (x : ModelM α ε σ β) (h : ModelError → ModelM α ε σ β) :
    on (tryCatch x h) M =
      match on x M with
      | (.ok b, N) => (.ok b, N)
      | (.error e, N) => on (h e) N := by
  unfold on ExceptT.run StateT.run
  simp only [tryCatch, tryCatchThe, MonadExceptOf.tryCatch, ExceptT.tryCatch, ExceptT.mk, bind,
    StateT.bind]
  rcases x M with ⟨_ | _, _⟩ <;> rfl

end On

/-- From a model with `P` the computation leads to a model with `Q`, given its
result, or fails and leads to one with `X`, given the error. -/
def Leads (P : Model α ε σ → Prop) (x : ModelM α ε σ β) (Q : β → Model α ε σ → Prop)
    (X : ModelError → Model α ε σ → Prop) : Prop :=
  ∀ M, P M → match on x M with
    | (.ok b, N) => Q b N
    | (.error e, N) => X e N

/-- From a model with `P` the computation leads to a model with `Q`, given its
result, or fails and leads to one with `X`. -/
def Ensures (P : Model α ε σ → Prop) (x : ModelM α ε σ β) (Q : β → Model α ε σ → Prop)
    (X : Model α ε σ → Prop) : Prop :=
  ∀ M, P M → match on x M with
    | (.ok b, N) => Q b N
    | (.error _, N) => X N

namespace Leads

variable {P P' : Model α ε σ → Prop} {Q Q' : β → Model α ε σ → Prop}
  {X X' : ModelError → Model α ε σ → Prop} {x : ModelM α ε σ β}

theorem weaken (h : Leads P x Q X) (hP : ∀ M, P' M → P M) (hQ : ∀ b M, Q b M → Q' b M)
    (hX : ∀ e M, X e M → X' e M) : Leads P' x Q' X' := by
  intro M hM
  have := h M (hP M hM)
  revert this
  rcases on x M with ⟨e | b, N⟩
  · exact hX e N
  · exact hQ b N

theorem pure {b : β} (h : ∀ M, P M → Q b M) : Leads P (Pure.pure b) Q X := fun M hM => h M hM

theorem throw {e : ModelError} (h : ∀ M, P M → X e M) :
    Leads P (MonadExcept.throw e : ModelM α ε σ β) Q X := fun M hM => h M hM

theorem bind {R : γ → Model α ε σ → Prop} {y : ModelM α ε σ γ} {f : γ → ModelM α ε σ β}
    (hy : Leads P y R X) (hf : ∀ c, Leads (R c) (f c) Q X) : Leads P (y >>= f) Q X := by
  intro M hM
  have h := hy M hM
  rw [on_bind]
  revert h
  rcases on y M with ⟨e | c, N⟩
  · exact id
  · exact hf c N

theorem tryCatch {R : ModelError → Model α ε σ → Prop} {h : ModelError → ModelM α ε σ β}
    (hx : Leads P x Q R) (hh : ∀ e, Leads (R e) (h e) Q X) :
    Leads P (MonadExcept.tryCatch x h) Q X := by
  intro M hM
  have hM' := hx M hM
  rw [on_tryCatch]
  revert hM'
  rcases on x M with ⟨e | b, N⟩
  · exact hh e N
  · exact id

/-- What follows a look at the model may use what is known of it. -/
theorem get_bind {f : Model α ε σ → ModelM α ε σ β}
    (h : ∀ M, P M → Leads (· = M) (f M) Q X) : Leads P (get >>= f) Q X := by
  intro M hM
  rw [on_bind, on_get]
  exact h M hM M rfl

theorem modify {f : Model α ε σ → Model α ε σ} {Q : PUnit → Model α ε σ → Prop}
    (h : ∀ M, P M → Q ⟨⟩ (f M)) : Leads P (modify f) Q X := fun M hM => h M hM

theorem set {N : Model α ε σ} {Q : PUnit → Model α ε σ → Prop} (h : Q ⟨⟩ N) :
    Leads P (MonadStateOf.set N : ModelM α ε σ PUnit) Q X := fun _ _ => h

/-- A computed result, which does not change the model. -/
theorem lift {r : Except ModelError β} (h : ∀ M b, P M → r = .ok b → Q b M)
    (hX : ∀ M e, P M → r = .error e → X e M) : Leads P (ExceptT.mk (Pure.pure r)) Q X := by
  intro M hM
  rw [on_lift]
  rcases r with e | b
  · exact hX M e hM rfl
  · exact h M b hM rfl

/-- The model that a success leaves behind. -/
theorem of_ok (h : Leads P x Q X) {M N : Model α ε σ} {b : β} (hM : P M)
    (hx : on x M = (.ok b, N)) : Q b N := by
  have := h M hM
  rwa [hx] at this

/-- The model that a failure leaves behind. -/
theorem of_error (h : Leads P x Q X) {M N : Model α ε σ} {e : ModelError} (hM : P M)
    (hx : on x M = (.error e, N)) : X e N := by
  have := h M hM
  rwa [hx] at this

end Leads

/- The rules for `Ensures` are those for `Leads` that do not look at the error. -/
namespace Ensures

variable {P P' : Model α ε σ → Prop} {Q Q' : β → Model α ε σ → Prop} {X X' : Model α ε σ → Prop}
  {x : ModelM α ε σ β}

theorem weaken (h : Ensures P x Q X) (hP : ∀ M, P' M → P M) (hQ : ∀ b M, Q b M → Q' b M)
    (hX : ∀ M, X M → X' M) : Ensures P' x Q' X' := Leads.weaken h hP hQ fun _ => hX

theorem pure {b : β} (h : ∀ M, P M → Q b M) : Ensures P (Pure.pure b) Q X := fun M hM => h M hM

theorem throw {e : ModelError} (h : ∀ M, P M → X M) :
    Ensures P (MonadExcept.throw e : ModelM α ε σ β) Q X := fun M hM => h M hM

theorem bind {R : γ → Model α ε σ → Prop} {y : ModelM α ε σ γ} {f : γ → ModelM α ε σ β}
    (hy : Ensures P y R X) (hf : ∀ c, Ensures (R c) (f c) Q X) : Ensures P (y >>= f) Q X :=
  Leads.bind (X := fun _ => X) hy hf

theorem tryCatch {R : Model α ε σ → Prop} {h : ModelError → ModelM α ε σ β}
    (hx : Ensures P x Q R) (hh : ∀ e, Ensures R (h e) Q X) :
    Ensures P (MonadExcept.tryCatch x h) Q X := Leads.tryCatch (X := fun _ => X) hx hh

/-- What follows a look at the model may use what is known of it. -/
theorem get_bind {f : Model α ε σ → ModelM α ε σ β}
    (h : ∀ M, P M → Ensures (· = M) (f M) Q X) : Ensures P (get >>= f) Q X :=
  Leads.get_bind (X := fun _ => X) h

theorem modify {f : Model α ε σ → Model α ε σ} {Q : PUnit → Model α ε σ → Prop}
    (h : ∀ M, P M → Q ⟨⟩ (f M)) : Ensures P (modify f) Q X := fun M hM => h M hM

theorem set {N : Model α ε σ} {Q : PUnit → Model α ε σ → Prop} (h : Q ⟨⟩ N) :
    Ensures P (MonadStateOf.set N : ModelM α ε σ PUnit) Q X := fun _ _ => h

/-- A computed result, which does not change the model. -/
theorem lift {r : Except ModelError β} (h : ∀ M b, P M → r = .ok b → Q b M)
    (hX : ∀ M, P M → X M) : Ensures P (ExceptT.mk (Pure.pure r)) Q X :=
  Leads.lift (X := fun _ => X) h fun M _ hM _ => hX M hM

/-- The model that a success leaves behind. -/
theorem of_ok (h : Ensures P x Q X) {M N : Model α ε σ} {b : β} (hM : P M)
    (hx : on x M = (.ok b, N)) : Q b N := Leads.of_ok (X := fun _ => X) h hM hx

/-- Nothing is said about the outcome. -/
theorem any : Ensures P x (fun _ _ => True) fun _ => True := by
  intro M _
  rcases on x M with ⟨_ | _, _⟩ <;> trivial

/-- What holds after every outcome. -/
theorem after {I : Model α ε σ → Prop} (h : Ensures P x (fun _ => I) I) {M : Model α ε σ}
    (hM : P M) : I (on x M).2 := by
  have := h M hM
  revert this
  rcases on x M with ⟨e | b, N⟩ <;> exact id

end Ensures
end ModelM

namespace Model

open ModelM

/-! ### The problem that a model describes -/

/-- The two models describe the same problem and ask for the same settings. -/
structure SameContents (M N : Model α ε σ) : Prop where
  varCount : N.varCount = M.varCount
  constraints : N.constraints = M.constraints
  objective : N.objective = M.objective
  settings : N.settings = M.settings

theorem SameContents.standardForm [Scalar α] {M N : Model α ε σ} (h : SameContents M N) :
    N.standardForm = M.standardForm := by
  unfold Model.standardForm
  rw [h.varCount, h.constraints, h.objective]

theorem requireLive_of_released {M : Model α ε σ} (h : M.state = .released) :
    M.requireLive = .error .released := by
  unfold requireLive
  rw [h]

theorem requireLive_of_unreleased {M : Model α ε σ} (h : M.state ≠ .released) :
    M.requireLive = .ok () := by
  unfold requireLive
  split
  · rename_i hreleased
    exact absurd hreleased h
  · rfl

/-! ### Phases of a solve -/

section Phases

variable (E : Engine α ε σ)

theorem discardSession_contents (M : Model α ε σ) : SameContents M (discardSession E M) := by
  unfold discardSession dropSession
  split <;> exact ⟨rfl, rfl, rfl, rfl⟩

@[simp]
theorem workspace_dropSession (M : Model α ε σ) : (dropSession E M).workspace = none := by
  unfold dropSession
  split
  · rfl
  · assumption

@[simp]
theorem workspace_discardSession (M : Model α ε σ) : (discardSession E M).workspace = none :=
  workspace_dropSession E M

@[simp]
theorem workspace_release (M : Model α ε σ) : (release E M).workspace = none :=
  workspace_dropSession E M

theorem dropSession_of_none {M : Model α ε σ} (hs : M.workspace = none) : dropSession E M = M := by
  unfold dropSession
  rw [hs]

theorem dropSession_of_some {M : Model α ε σ} {w : Workspace α σ} (hs : M.workspace = some w) :
    dropSession E M = { M with workspace := none, shared := E.drop w.session M.shared } := by
  unfold dropSession
  rw [hs]

theorem on_callSession (phase : EngineError → ModelError) (c : SessionCall α) {M : Model α ε σ}
    {w : Workspace α σ} {r : Except EngineError Unit} {S : σ} {e : ε} (hs : M.workspace = some w)
    (hc : E.call c w.session M.shared = (r, S, e)) :
    on (callSession E phase c) M =
      (r.mapError phase, { M with workspace := some { w with session := S }, shared := e }) := by
  unfold callSession
  rw [on_bind, on_get]
  simp only [hs, hc, on_bind, on_set]
  cases r <;> rfl

theorem on_callSession_of_none (phase : EngineError → ModelError) (c : SessionCall α)
    {M : Model α ε σ} (hs : M.workspace = none) :
    on (callSession E phase c) M = (.error .noSolution, M) := by
  unfold callSession
  rw [on_bind, on_get]
  simp only [hs, on_throw]

/-- A call changes nothing of a model but its session. -/
theorem callSession_leads (phase : EngineError → ModelError) (c : SessionCall α)
    {P Q : Model α ε σ → Prop} {X : ModelError → Model α ε σ → Prop}
    (hok : ∀ M w S e, P M → M.workspace = some w → E.call c w.session M.shared = (.ok (), S, e) →
      Q { M with workspace := some { w with session := S }, shared := e })
    (herror : ∀ M w f S e, P M → M.workspace = some w →
      E.call c w.session M.shared = (.error f, S, e) →
      X (phase f) { M with workspace := some { w with session := S }, shared := e })
    (hX : ∀ M, P M → M.workspace = none → X .noSolution M) :
    Leads P (callSession E phase c) (fun _ => Q) X := by
  intro M hM
  cases hs : M.workspace with
  | some w =>
    rcases hc : E.call c w.session M.shared with ⟨r, S, e⟩
    rw [on_callSession E phase c hs hc]
    cases r with
    | ok u => exact hok M w S e hM hs hc
    | error f => exact herror M w f S e hM hs hc
  | none =>
    rw [on_callSession_of_none E phase c hs]
    exact hX M hM hs

/-- A call changes nothing of a model but its session. -/
theorem callSession_ensures (phase : EngineError → ModelError) (c : SessionCall α)
    {P Q X : Model α ε σ → Prop}
    (h : ∀ M w r S e, P M → M.workspace = some w → E.call c w.session M.shared = (r, S, e) →
      (r = .ok () → Q { M with workspace := some { w with session := S }, shared := e }) ∧
      (r ≠ .ok () → X { M with workspace := some { w with session := S }, shared := e }))
    (hX : ∀ M, P M → M.workspace = none → X M) :
    Ensures P (callSession E phase c) (fun _ => Q) X :=
  callSession_leads E phase c (X := fun _ => X)
    (fun M w S e hM hs hc => (h M w _ S e hM hs hc).1 rfl)
    (fun M w _ S e hM hs hc => (h M w _ S e hM hs hc).2 nofun) hX

/-- A report changes nothing of a model but its output, and fails only if it was asked for. -/
theorem report_leads (lines : List String) {P : Model α ε σ → Prop}
    {X : ModelError → Model α ε σ → Prop} (h : ∀ M o, P M → P { M with output := o })
    (hX : ∀ M e, P M → M.settings.verbose = true → X (.output e) M) :
    Leads P (report lines) (fun _ => P) X := by
  refine Leads.get_bind fun M hM => ?_
  split
  · rename_i hverbose
    rcases M.output.writeLines lines with ⟨r, o⟩
    refine Leads.bind (R := fun _ N => N = _) (Leads.set rfl) fun _ => ?_
    cases r with
    | ok _ => exact Leads.pure fun N hN => hN ▸ h M o hM
    | error e => exact Leads.throw fun N hN => hN ▸ hX _ e (h M o hM) hverbose
  · exact Leads.pure fun N hN => hN ▸ hM

/-- A report changes nothing of a model but its output. -/
theorem report_ensures (lines : List String) {P : Model α ε σ → Prop}
    (h : ∀ M o, P M → P { M with output := o }) :
    Ensures P (report lines) (fun _ => P) P :=
  report_leads lines (X := fun _ => P) h fun _ _ hM _ => hM

section Approach

variable [Scalar α] [ScalarText α] (E : Engine α ε σ)

/-- A solve up to the start point: the problem is assembled and brought into a session. -/
def approach : ModelM α ε σ (StandardForm α × SolvePath) := do
  ExceptT.mk (pure (← get).requireLive)
  modify fun M => { M with solution := none }
  let M ← get
  let F ← ExceptT.mk (pure M.standardForm)
  let path := M.choosePath E F
  report (configurationReport F M.settings path)
  bring E F path
  return (F, path)

theorem prepare_eq : prepare E
    = approach E >>= fun b => passStartPoint E b.1 >>= fun _ => pure b := by
  simp only [prepare, approach, bind_assoc, pure_bind]

/-- A model that was released is not solved. -/
theorem prepare_of_released {M : Model α ε σ} (h : M.state = .released) :
    on (prepare E) M = (.error .released, M) := by
  unfold prepare
  simp only [on_bind, on_get, requireLive_of_released h, on_lift]

/-- The start point is passed on, and the session is run, once the problem is in the session. -/
theorem solve_eq : solve E
    = approach E >>= fun b => passStartPoint E b.1 >>= fun _ => runSession E b.1 b.2 := by
  simp only [solve, prepare_eq, bind_assoc, pure_bind]

theorem solve_of_released {M : Model α ε σ} (h : M.state = .released) :
    on (solve E) M = (.error .released, M) := by
  unfold solve
  simp only [on_bind, prepare_of_released E h]

end Approach

end Phases

end Model

/-! ### Runs -/

/-- What a caller does with a model. -/
inductive ModelOp (α : Type) where
  | addVariable
  | addVariables (count : Nat)
  | addConstraint (c : Constraint α)
  | setBounds (i : Nat) (lower upper : α)
  /-- a constraint is changed in place -/
  | setConstraint (i : Nat) (c : Constraint α)
  | setObjective (e : QuadExpr α)
  | setSettings (s : Settings α)
  | setStartPoint (p : StartPoint α)
  | printTo (kind : OutputKind)
  | solve
  | release

namespace Model

variable [Scalar α] [ScalarText α]

/-- The model after an operation. One that is refused changes nothing. -/
def perform (E : Engine α ε σ) (M : Model α ε σ) : ModelOp α → Model α ε σ
  | .addVariable => M.addVariable.2
  | .addVariables count => (M.addVariables count).2
  | .addConstraint c => (M.addConstraint c).2
  | .setBounds i lower upper => (M.setBounds i lower upper).toOption.getD M
  | .setConstraint i c => { M with constraints := M.constraints.setIfInBounds i c }
  | .setObjective e => { M with objective := e }
  | .setSettings s => { M with settings := s }
  | .setStartPoint p => (M.setStartPoint p).toOption.getD M
  | .printTo kind => M.printTo kind
  | .solve => ((solve E).on M).2
  | .release => M.release E

/-- The models that operations lead to from an empty one. -/
inductive Reachable (E : Engine α ε σ) : Model α ε σ → Prop where
  | new (shared : ε) : Reachable E (Model.new E shared)
  | perform {M : Model α ε σ} (op : ModelOp α) : Reachable E M → Reachable E (M.perform E op)

end Model
end QuadOpt
