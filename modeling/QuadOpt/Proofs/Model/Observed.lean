/-
# Sessions under observation

`Engine.observed` makes an engine that does what another one does, numbers the sessions in
the order in which they are created and notes what becomes of them. A model cannot tell the
two apart: an engine whose states are those of another one, seen through maps that commute
with everything it does, leads to the same models, seen through these maps. So what is noted
is what happens to the sessions of the engine itself.

Key definitions: `Engine.Maps`, `Model.map`, `SessionEvent`, `Engine.observed`,
`Model.history`.
Key theorems: `Engine.Maps.solve`, `Engine.Maps.run`, `Model.run_observed`.
-/
import QuadOpt.Proofs.Model.Protocol

namespace QuadOpt

open ModelM

variable {α ε σ ε' σ' : Type}

/-! ### Engines that are mapped to one another -/

/-- What `E'` does to the images of states is the image of what `E` does. -/
structure Engine.Maps (E : Engine α ε σ) (E' : Engine α ε' σ') (f : ε → ε') (g : σ → σ') :
    Prop where
  defaultSettings : E'.defaultSettings = E.defaultSettings
  setup : ∀ D s e, E'.setup D s (f e) = ((E.setup D s e).1.map g, f (E.setup D s e).2)
  call : ∀ c S e, E'.call c (g S) (f e)
    = ((E.call c S e).1, g (E.call c S e).2.1, f (E.call c S e).2.2)
  drop : ∀ S e, E'.drop (g S) (f e) = f (E.drop S e)
  solution : ∀ S, E'.solution (g S) = E.solution S
  info : ∀ S, E'.info (g S) = E.info S
  settings : ∀ S, E'.settings (g S) = E.settings S

/-- The image of a workspace. -/
def Workspace.map (g : σ → σ') (w : Workspace α σ) : Workspace α σ' := ⟨g w.session, w.P, w.A⟩

/-- The image of a model. -/
def Model.map (f : ε → ε') (g : σ → σ') (M : Model α ε σ) : Model α ε' σ' where
  shared := f M.shared
  varCount := M.varCount
  constraints := M.constraints
  objective := M.objective
  settings := M.settings
  workspace := M.workspace.map (Workspace.map g)
  state := M.state
  solution := M.solution
  startPoint := M.startPoint
  output := M.output

namespace ModelM

variable {β γ : Type} {f : ε → ε'} {g : σ → σ'}

/-- On the image of a model `y` does what `x` does on the model. -/
def Commutes (f : ε → ε') (g : σ → σ') (x : ModelM α ε σ β) (y : ModelM α ε' σ' β) : Prop :=
  ∀ M : Model α ε σ, on y (M.map f g) = ((on x M).1, (on x M).2.map f g)

namespace Commutes

theorem pure (b : β) : Commutes f g (Pure.pure b : ModelM α ε σ β) (Pure.pure b) := fun _ => rfl

theorem throw (e : ModelError) :
    Commutes f g (MonadExcept.throw e : ModelM α ε σ β) (MonadExcept.throw e) := fun _ => rfl

theorem lift (r : Except ModelError β) :
    Commutes f g (ExceptT.mk (Pure.pure r) : ModelM α ε σ β) (ExceptT.mk (Pure.pure r)) :=
  fun _ => rfl

theorem modify {k : Model α ε σ → Model α ε σ} {k' : Model α ε' σ' → Model α ε' σ'}
    (h : ∀ M, k' (M.map f g) = (k M).map f g) : Commutes f g (modify k) (modify k') :=
  fun M => congrArg (fun N => ((.ok ⟨⟩ : Except ModelError PUnit), N)) (h M)

theorem set (N : Model α ε σ) : Commutes f g (MonadStateOf.set N : ModelM α ε σ PUnit)
    (MonadStateOf.set (N.map f g)) := fun _ => rfl

theorem bind {x : ModelM α ε σ γ} {x' : ModelM α ε' σ' γ} {k : γ → ModelM α ε σ β}
    {k' : γ → ModelM α ε' σ' β} (hx : Commutes f g x x') (hk : ∀ c, Commutes f g (k c) (k' c)) :
    Commutes f g (x >>= k) (x' >>= k') := by
  intro M
  rw [on_bind, on_bind, hx M]
  rcases on x M with ⟨e | c, N⟩
  · rfl
  · exact hk c N

theorem tryCatch {x : ModelM α ε σ β} {x' : ModelM α ε' σ' β} {k : ModelError → ModelM α ε σ β}
    {k' : ModelError → ModelM α ε' σ' β} (hx : Commutes f g x x')
    (hk : ∀ e, Commutes f g (k e) (k' e)) :
    Commutes f g (MonadExcept.tryCatch x k) (MonadExcept.tryCatch x' k') := by
  intro M
  rw [on_tryCatch, on_tryCatch, hx M]
  rcases on x M with ⟨e | b, N⟩
  · exact hk e N
  · rfl

/-- The model and its image are looked at together. -/
theorem get_bind {k : Model α ε σ → ModelM α ε σ β} {k' : Model α ε' σ' → ModelM α ε' σ' β}
    (h : ∀ M, Commutes f g (k M) (k' (M.map f g))) :
    Commutes f g (get >>= k) (get >>= k') := by
  intro M
  rw [on_bind, on_bind, on_get, on_get]
  exact h M M

end Commutes
end ModelM

/-! ### Solves -/

namespace Engine.Maps

variable {E : Engine α ε σ} {E' : Engine α ε' σ'} {f : ε → ε'} {g : σ → σ'} (h : E.Maps E' f g)

include h

theorem dropSession (M : Model α ε σ) :
    (M.map f g).dropSession E' = (M.dropSession E).map f g := by
  unfold Model.dropSession
  cases hs : M.workspace with
  | some w => simp only [Model.map, hs, Option.map_some, Option.map_none, Workspace.map, h.drop]
  | none => simp only [Model.map, hs, Option.map_none]

theorem discardSession (M : Model α ε σ) :
    (M.map f g).discardSession E' = (M.discardSession E).map f g := by
  unfold Model.discardSession
  rw [h.dropSession]
  rfl

theorem callSession (phase : EngineError → ModelError) (c : SessionCall α) :
    Commutes f g (Model.callSession E phase c) (Model.callSession E' phase c) := by
  refine Commutes.get_bind fun M => ?_
  cases hs : M.workspace with
  | some w =>
    have hcall := h.call c w.session M.shared
    rcases hc : E.call c w.session M.shared with ⟨r, S, e⟩
    rw [hc] at hcall
    simp only [Model.map, hs, Option.map_some, Workspace.map, hc, hcall]
    refine Commutes.bind (Commutes.set _) fun _ => ?_
    cases r with
    | ok _ => exact Commutes.pure _
    | error f => exact Commutes.throw _
  | none =>
    simp only [Model.map, hs, Option.map_none]
    exact Commutes.throw _

omit h in
theorem report (lines : List String) : Commutes f g (Model.report lines : ModelM α ε σ Unit)
    (Model.report lines) := by
  refine Commutes.get_bind fun M => ?_
  by_cases hverbose : M.settings.verbose = true
  · rcases hlines : M.output.writeLines lines with ⟨r, o⟩
    simp only [Model.map, hverbose, if_true, hlines]
    refine Commutes.bind (Commutes.set { M with output := o }) fun _ => ?_
    cases r with
    | ok _ => exact Commutes.pure _
    | error e => exact Commutes.throw _
  · simp only [Model.map, hverbose]
    exact Commutes.pure _

omit h in
theorem session?_map (M : Model α ε σ) : (M.map f g).session? = M.session?.map g := by
  simp only [Model.session?, Model.map, Option.map_map]
  rfl

theorem startSession (F : StandardForm α) :
    Commutes f g (Model.startSession E F) (Model.startSession E' F) := by
  refine Commutes.bind (Commutes.modify h.discardSession) fun _ => Commutes.get_bind fun M => ?_
  have hsetup := h.setup F.toQpData M.settings M.shared
  rcases hs : E.setup F.toQpData M.settings M.shared with ⟨d | S, e⟩
  · rw [hs] at hsetup
    simp only [Model.map, hsetup]
    exact Commutes.bind (Commutes.set { M with shared := e }) fun _ => Commutes.throw _
  · rw [hs] at hsetup
    simp only [Model.map, hsetup]
    exact Commutes.set { M with workspace := some ⟨S, F.P, F.A⟩, state := .built, shared := e }

omit h in
theorem copyMatrices (F : StandardForm α) (M : Model α ε σ) :
    (M.map f g).copyMatrices F = (M.copyMatrices F).map f g := by
  unfold Model.copyMatrices
  cases hs : M.workspace <;> simp [Model.map, hs, Workspace.map]

omit h in
theorem requireLive (M : Model α ε σ) : (M.map f g).requireLive = M.requireLive := rfl

omit h in
theorem setStartPoint (M : Model α ε σ) (p : StartPoint α) :
    (M.map f g).setStartPoint p = (M.setStartPoint p).map (Model.map f g) := by
  unfold Model.setStartPoint
  rw [requireLive]
  cases M.requireLive with
  | error e => rfl
  | ok _ =>
    have hsize : Model.checkStartPoint (M.map f g).varCount (M.map f g).constraints.size p
        = Model.checkStartPoint M.varCount M.constraints.size p := rfl
    rw [hsize]
    cases Model.checkStartPoint M.varCount M.constraints.size p <;> rfl

theorem passStartPoint (F : StandardForm α) :
    Commutes f g (Model.passStartPoint E F) (Model.passStartPoint E' F) := by
  refine Commutes.get_bind fun M => ?_
  cases hp : M.startPoint with
  | none =>
    simp only [Model.map, hp]
    exact Commutes.pure _
  | some p =>
    simp only [Model.map, hp]
    exact Commutes.bind (Commutes.modify fun _ => rfl) fun _ =>
      Commutes.bind (Commutes.lift _) fun _ => h.callSession _ _

variable [Scalar α]

theorem pushSettings : Commutes f g (Model.pushSettings E) (Model.pushSettings E') := by
  refine Commutes.get_bind fun M => ?_
  cases hs : M.workspace with
  | some w =>
    simp only [Model.map, hs, Option.map_some, Workspace.map, h.settings]
    split
    · exact h.callSession _ _
    · exact Commutes.pure _
  | none =>
    simp only [Model.map, hs, Option.map_none]
    exact Commutes.pure _

theorem pushMatrices (F : StandardForm α) :
    Commutes f g (Model.pushMatrices E F) (Model.pushMatrices E' F) := by
  refine Commutes.get_bind fun M => ?_
  cases hs : M.workspace with
  | some w =>
    simp only [Model.map, hs, Option.map_some, Workspace.map]
    split
    · exact (h.callSession _ _).bind fun _ => Commutes.modify (copyMatrices F)
    · exact Commutes.pure _
  | none =>
    simp only [Model.map, hs, Option.map_none]
    exact Commutes.pure _

theorem pushChanges (F : StandardForm α) :
    Commutes f g (Model.pushChanges E F) (Model.pushChanges E' F) :=
  h.pushSettings.bind fun _ => (h.pushMatrices F).bind fun _ => h.callSession _ _

theorem bring (F : StandardForm α) (path : SolvePath) :
    Commutes f g (Model.bring E F path) (Model.bring E' F path) := by
  cases path with
  | setup | rebuild => exact h.startSession F
  | update =>
    exact (h.pushChanges F).tryCatch fun e =>
      Commutes.bind (Commutes.modify h.discardSession) fun _ => Commutes.throw e

theorem choosePath (M : Model α ε σ) (F : StandardForm α) :
    (M.map f g).choosePath E' F = M.choosePath E F := by
  unfold Model.choosePath
  cases hs : M.workspace <;> simp [Model.map, hs, Workspace.map, h.settings]

variable [ScalarText α]

theorem approach : Commutes f g (Model.approach E) (Model.approach E') := by
  refine Commutes.get_bind fun M => ?_
  rw [requireLive]
  refine Commutes.bind (Commutes.lift _) fun _ =>
    Commutes.bind (Commutes.modify fun _ => rfl) fun _ => Commutes.get_bind fun N => ?_
  refine Commutes.bind (Commutes.lift _) fun F => ?_
  rw [h.choosePath]
  exact Commutes.bind (report _) fun _ => (h.bring F _).bind fun _ => Commutes.pure _

theorem runSession (F : StandardForm α) (path : SolvePath) :
    Commutes f g (Model.runSession E F path) (Model.runSession E' F path) := by
  refine (h.callSession _ _).bind fun _ => Commutes.bind ?_ fun r =>
    Commutes.bind (report _) fun _ => Commutes.pure _
  refine Commutes.get_bind fun M => ?_
  rw [session?_map]
  cases M.session? with
  | none => exact Commutes.throw _
  | some S =>
    simp only [Option.map_some, h.info, h.solution]
    exact Commutes.bind (Commutes.modify fun _ => rfl) fun _ => Commutes.pure _

/-- On the image of a model a solve does what it does on the model. -/
theorem solve : Commutes f g (Model.solve E) (Model.solve E') := by
  rw [Model.solve_eq, Model.solve_eq]
  exact h.approach.bind fun b => (h.passStartPoint b.1).bind fun _ => h.runSession b.1 b.2

/-! ### Runs -/

theorem perform (M : Model α ε σ) (op : ModelOp α) :
    (M.map f g).perform E' op = (M.perform E op).map f g := by
  cases op with
  | solve => exact congrArg Prod.snd (h.solve M)
  | release =>
    simp only [Model.perform, Model.release, h.dropSession]
    rfl
  | setBounds i lower upper =>
    have hconstraint : (M.map f g).constraint i = M.constraint i := rfl
    simp only [Model.perform, Model.setBounds, hconstraint]
    cases M.constraint i <;> rfl
  | setStartPoint p =>
    simp only [Model.perform, setStartPoint]
    cases M.setStartPoint p <;> rfl
  | _ => rfl

theorem run (shared : ε) (ops : List (ModelOp α)) :
    Model.run E' (f shared) ops = (Model.run E shared ops).map f g := by
  induction ops using List.reverseRecOn with
  | nil =>
    show Model.new E' (f shared) = (Model.new E shared).map f g
    unfold Model.new
    rw [h.defaultSettings]
    rfl
  | append_singleton ops op ih => rw [Model.run_concat, Model.run_concat, ih, h.perform]

end Engine.Maps

/-! ### What becomes of sessions -/

/-- An event in the lives of the sessions of a model. -/
inductive SessionEvent (α : Type) where
  /-- a setup succeeded -/
  | created (k : Nat)
  /-- a setup failed -/
  | refused (e : EngineError)
  /-- a session was called, with this result -/
  | called (k : Nat) (c : SessionCall α) (r : Except EngineError Unit)
  /-- a session was dropped -/
  | dropped (k : Nat)

namespace SessionEvent

/-- The session that was created. -/
def created? : SessionEvent α → Option Nat
  | created k => some k
  | _ => none

/-- The session that was dropped. -/
def dropped? : SessionEvent α → Option Nat
  | dropped k => some k
  | _ => none

/-- The session that has to be there for the event to happen. -/
def target? : SessionEvent α → Option Nat
  | called k _ _ | dropped k => some k
  | _ => none

end SessionEvent

/-- The sessions that were created. -/
def createdSessions (es : List (SessionEvent α)) : List Nat := es.filterMap SessionEvent.created?

/-- The sessions that were dropped. -/
def droppedSessions (es : List (SessionEvent α)) : List Nat := es.filterMap SessionEvent.dropped?

theorem createdSessions_concat (es : List (SessionEvent α)) (e : SessionEvent α) :
    createdSessions (es ++ [e]) = createdSessions es ++ e.created?.toList := by
  cases h : e.created? <;> simp [createdSessions, h]

theorem droppedSessions_concat (es : List (SessionEvent α)) (e : SessionEvent α) :
    droppedSessions (es ++ [e]) = droppedSessions es ++ e.dropped?.toList := by
  cases h : e.dropped? <;> simp [droppedSessions, h]

/-- What the sessions of an observed engine share. -/
structure Observed (α ε : Type) where
  /-- what they share in the engine that is observed -/
  shared : ε
  /-- the events so far, the latest last -/
  events : List (SessionEvent α) := []

/-- What they share, with one more event. -/
def Observed.note (o : Observed α ε) (e : SessionEvent α) (shared : ε) : Observed α ε :=
  ⟨shared, o.events ++ [e]⟩

/-- The engine `E`, with numbered sessions and a list of what happens to them. -/
def Engine.observed (E : Engine α ε σ) : Engine α (Observed α ε) (Nat × σ) where
  defaultSettings := E.defaultSettings
  setup D settings o :=
    match E.setup D settings o.shared with
    | (.ok S, e) =>
      let k := (createdSessions o.events).length
      (.ok (k, S), o.note (.created k) e)
    | (.error f, e) => (.error f, o.note (.refused f) e)
  call c S o :=
    match E.call c S.2 o.shared with
    | (r, T, e) => (r, (S.1, T), o.note (.called S.1 c r) e)
  drop S o := o.note (.dropped S.1) (E.drop S.2 o.shared)
  solution S := E.solution S.2
  info S := E.info S.2
  settings S := E.settings S.2

section Events

variable {E : Engine α ε σ} {o o' : Observed α ε}

theorem Engine.observed_setup_ok {D : QpData α} {s : Settings α} {S : Nat × σ}
    (h : E.observed.setup D s o = (.ok S, o')) : S.1 = (createdSessions o.events).length ∧
      o'.events = o.events ++ [.created (createdSessions o.events).length] := by
  simp only [observed] at h
  split at h
  · cases h
    exact ⟨rfl, rfl⟩
  · cases h

theorem Engine.observed_setup_error {D : QpData α} {s : Settings α} {f : EngineError}
    (h : E.observed.setup D s o = (.error f, o')) : o'.events = o.events ++ [.refused f] := by
  simp only [observed] at h
  split at h
  · cases h
  · cases h
    rfl

theorem Engine.observed_call {c : SessionCall α} {S T : Nat × σ} {r : Except EngineError Unit}
    (h : E.observed.call c S o = (r, T, o')) :
    T.1 = S.1 ∧ o'.events = o.events ++ [.called S.1 c r] := by
  obtain ⟨hr, hT, ho⟩ := Prod.mk.inj h |>.imp_right Prod.mk.inj
  rw [← hT, ← ho, ← hr]
  exact ⟨rfl, rfl⟩

theorem Engine.observed_drop (S : Nat × σ) :
    (E.observed.drop S o).events = o.events ++ [.dropped S.1] := rfl

end Events

theorem Engine.observed_maps (E : Engine α ε σ) : E.observed.Maps E Observed.shared Prod.snd where
  defaultSettings := rfl
  setup D s o := by
    simp only [observed]
    rcases E.setup D s o.shared with ⟨f | S, e⟩ <;> rfl
  call c S o := by
    cases hc : E.call c S.2 o.shared with
    | mk r s =>
      simp only [observed, hc]
      rfl
  drop S o := rfl
  solution S := rfl
  info S := rfl
  settings S := rfl

namespace Model

variable [Scalar α] [ScalarText α] (E : Engine α ε σ) (shared : ε) (ops : List (ModelOp α))

/-- The run of a model whose sessions are observed. -/
def observedRun : Model α (Observed α ε) (Nat × σ) := run E.observed ⟨shared, []⟩ ops

/-- What becomes of the sessions of a model. -/
def history : List (SessionEvent α) := (observedRun E shared ops).shared.events

/-- The observation does not show in the model. -/
theorem run_observed :
    run E shared ops = (observedRun E shared ops).map Observed.shared Prod.snd :=
  E.observed_maps.run ⟨shared, []⟩ ops

/-- A solve has the result of the observed one. -/
theorem solve_observed : (on (solve E) (run E shared ops)).1
    = (on (solve E.observed) (observedRun E shared ops)).1 := by
  have h := congrArg Prod.fst (E.observed_maps.solve (observedRun E shared ops))
  rwa [← run_observed] at h

end Model
end QuadOpt
