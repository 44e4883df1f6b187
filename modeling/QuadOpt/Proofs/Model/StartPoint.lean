/-
# What becomes of a start point

A start point that a model accepts replaces the one before, and waits for a solve that gets
its problem into a session. Solves that fail on the way there, in assembly, in the report of
the configuration, in a setup or in an update, leave it alone, and so does every edit. The
first solve that gets there takes it, by whichever path: if it fits the problem that is in
the session now, it is passed on as it was given, and the session is run on it at once; if
variables or constraints were added and it has too few coordinates, the solve ends without
a call.

The way into the session is `Model.approach`; `Engine.Keeps` says that nothing on it touches
the start point, and `StartPoint.Consumed` lists what may happen behind it.

Key definitions: `StartPoint.Fits`, `StartPoint.Consumed`, `passedPoints`, `Model.Withheld`,
`Engine.Supplied`, `Model.acceptedPoints`, `Model.approachedRun`, `Model.Approached`.
Key theorems: `Model.solve_withheld`, `Model.solve_consumed`, `Model.startPoint_passed_once`.
-/
import QuadOpt.Proofs.Model.LifeCycle

namespace QuadOpt

open ModelM

variable {α ε σ : Type}

/-! ### Start points that fit -/

namespace StartPoint

/-- The point has coordinates for `n` variables and multipliers for `m` constraints, as far as
it has any. -/
structure Fits (p : StartPoint α) (n m : Nat) : Prop where
  x : ∀ v ∈ p.x, v.size = n
  y : ∀ v ∈ p.y, v.size = m

/-- The check of a point tells whether it fits, and names the first vector that does not. -/
theorem checkStartPoint_cases (n m : Nat) (p : StartPoint α) :
    (p.Fits n m ∧ Model.checkStartPoint n m p = .ok ()) ∨
    (∃ v, p.x = some v ∧ v.size ≠ n ∧
      Model.checkStartPoint n m p = .error (.dimensionMismatch "initial x" n v.size)) ∨
    ∃ v, (∀ u ∈ p.x, u.size = n) ∧ p.y = some v ∧ v.size ≠ m ∧
      Model.checkStartPoint n m p = .error (.dimensionMismatch "initial y" m v.size) := by
  have hlength : ∀ what expected (v : Option (Array α)),
      ((∀ u ∈ v, u.size = expected) ∧ Model.requireLength what expected v = .ok ()) ∨
      ∃ u, v = some u ∧ u.size ≠ expected ∧ Model.requireLength what expected v
        = .error (.dimensionMismatch what expected u.size) := by
    intro what expected v
    unfold Model.requireLength
    rcases v with _ | u
    · exact .inl ⟨by simp, rfl⟩
    · by_cases hu : u.size = expected
      · exact .inl ⟨by simpa using hu, if_pos hu⟩
      · exact .inr ⟨u, rfl, hu, if_neg hu⟩
  unfold Model.checkStartPoint
  rcases hlength "initial x" n p.x with ⟨hx, hxok⟩ | ⟨v, hv, hsize, herror⟩
  · rcases hlength "initial y" m p.y with ⟨hy, hyok⟩ | ⟨v, hv, hsize, herror⟩
    · exact .inl ⟨⟨hx, hy⟩, by rw [hxok, hyok]; rfl⟩
    · exact .inr (.inr ⟨v, hx, hv, hsize, by rw [hxok, herror]; rfl⟩)
  · exact .inr (.inl ⟨v, hv, hsize, by rw [herror]; rfl⟩)

/-- What becomes of a start point, if there is one, once a problem with `n` variables and `m`
constraints is in session `k`: the calls that are made then, and how the solve ends. -/
inductive Consumed (n m k : Nat) : Option (StartPoint α) → List (SessionEvent α) →
    Except ModelError SolverStatus → Prop where
  /-- there is none -/
  | absent (r : Except EngineError Unit) (result : Except ModelError SolverStatus) :
      Consumed n m k none [.called k .solve r] result
  /-- it is passed on, and the session is run -/
  | passed {p : StartPoint α} (hfits : p.Fits n m) (r : Except EngineError Unit)
      (result : Except ModelError SolverStatus) :
      Consumed n m k (some p) [.called k (.warmStart p.x p.y) (.ok ()), .called k .solve r] result
  /-- it is passed on, and the session refuses it -/
  | refused {p : StartPoint α} (hfits : p.Fits n m) (f : EngineError) :
      Consumed n m k (some p) [.called k (.warmStart p.x p.y) (.error f)] (.error (.update f))
  /-- its point has another number of coordinates -/
  | misfitX {p : StartPoint α} {v : Array α} (hx : p.x = some v) (hsize : v.size ≠ n) :
      Consumed n m k (some p) [] (.error (.dimensionMismatch "initial x" n v.size))
  /-- its multipliers are another number -/
  | misfitY {p : StartPoint α} {v : Array α} (hx : ∀ u ∈ p.x, u.size = n) (hy : p.y = some v)
      (hsize : v.size ≠ m) :
      Consumed n m k (some p) [] (.error (.dimensionMismatch "initial y" m v.size))

end StartPoint

/-! ### Start points that are passed on -/

/-- The start point that is passed on to a session. -/
def SessionEvent.passed? : SessionEvent α → Option (StartPoint α)
  | called _ (.warmStart x y) _ => some ⟨x, y⟩
  | _ => none

/-- The start points that were passed on, the latest last. -/
def passedPoints (es : List (SessionEvent α)) : List (StartPoint α) :=
  es.filterMap SessionEvent.passed?

theorem passedPoints_append (es fs : List (SessionEvent α)) :
    passedPoints (es ++ fs) = passedPoints es ++ passedPoints fs := List.filterMap_append

/-- An update passes no start point on. -/
theorem SessionEvent.passed?_called {k : Nat} {c : SessionCall α} {r : Except EngineError Unit}
    (hc : c.isUpdate = true) : (called k c r).passed? = none := by
  cases c <;> first | rfl | cases hc

/-- At most the start point is passed on, and it is passed on once. -/
theorem StartPoint.Consumed.passed_sublist {n m k : Nat} {p : Option (StartPoint α)}
    {calls : List (SessionEvent α)} {result : Except ModelError SolverStatus}
    (h : Consumed n m k p calls result) : (passedPoints calls).Sublist p.toList := by
  cases h with
  | absent | passed | refused => exact .refl _
  | misfitX | misfitY => exact List.nil_sublist _

namespace Model

/-! ### On the way into the session -/

/-- Since a model with the start point `p` and the history `es`, no start point was set, taken
or passed on. -/
structure Withheld (p : Option (StartPoint α)) (es : List (SessionEvent α))
    (M : Model α (Observed α ε) (Nat × σ)) : Prop where
  startPoint : M.startPoint = p
  events : ∃ new, M.shared.events = es ++ new ∧ passedPoints new = []

theorem Withheld.refl (M : Model α (Observed α ε) (Nat × σ)) :
    Withheld M.startPoint M.shared.events M := ⟨rfl, [], (List.append_nil _).symm, rfl⟩

section Withheld

variable {p : Option (StartPoint α)} {es : List (SessionEvent α)}
  {M N : Model α (Observed α ε) (Nat × σ)}

theorem Withheld.passedPoints_eq (h : Withheld p es M) :
    passedPoints M.shared.events = passedPoints es := by
  obtain ⟨new, hnew, hpassed⟩ := h.events
  rw [hnew, passedPoints_append, hpassed, List.append_nil]

/-- One more event is no matter, unless it passes a start point on. -/
theorem Withheld.note (h : Withheld p es M) {e : SessionEvent α} (he : e.passed? = none)
    (hstart : N.startPoint = M.startPoint) (hevents : N.shared.events = M.shared.events ++ [e]) :
    Withheld p es N := by
  obtain ⟨new, hnew, hpassed⟩ := h.events
  refine ⟨hstart.trans h.startPoint, new ++ [e], ?_, ?_⟩
  · rw [hevents, hnew, List.append_assoc]
  · rw [passedPoints_append, hpassed]
    simp [passedPoints, he]

theorem keeps_withheld (E : Engine α ε σ) (p : Option (StartPoint α))
    (es : List (SessionEvent α)) : E.observed.Keeps (Withheld p es) where
  output _ h := ⟨h.startPoint, h.events⟩
  drop h _ := h.note rfl rfl (Engine.observed_drop _)
  reset h _ := ⟨h.startPoint, h.events⟩
  setup h hsetup := h.note rfl rfl (Engine.observed_setup_ok hsetup).2
  setup_error h hsetup := h.note rfl rfl (Engine.observed_setup_error hsetup)
  update h _ hc hcall := h.note (SessionEvent.passed?_called hc) rfl (Engine.observed_call hcall).2
  copies _ _ h _ := ⟨h.startPoint, h.events⟩

end Withheld

end Model

/-- The last that the engine did was to bring the problem `F` into the session: it was set up
with it, or has taken over its vectors. -/
inductive Engine.Supplied (E : Engine α ε σ) (F : StandardForm α) (s : Settings α) :
    σ → ε → Prop where
  | created {e e' : ε} {S : σ} (h : E.setup F.toQpData s e = (.ok S, e')) : E.Supplied F s S e'
  | updated {e e' : ε} {S T : σ}
      (h : E.call (.updateVectors (some F.q) (some F.l) (some F.u)) S e = (.ok (), T, e')) :
      E.Supplied F s T e'

namespace Model

section Supplied

variable (E : Engine α ε σ)

theorem startSession_supplied (F : StandardForm α) (s : Settings α) :
    Ensures (fun M => M.settings = s) (startSession E F)
      (fun _ M => ∃ w, M.workspace = some w ∧ E.Supplied F s w.session M.shared) fun _ => True := by
  refine Ensures.bind (R := fun _ M => M.settings = s)
    (Ensures.modify fun M hM => (discardSession_contents E M).settings.trans hM) fun _ =>
      Ensures.get_bind fun M hM => ?_
  subst hM
  rcases hsetup : E.setup F.toQpData M.settings M.shared with ⟨f | S, e⟩
  · exact Ensures.bind (R := fun _ _ => True) (Ensures.set trivial) fun _ =>
      Ensures.throw fun _ => id
  · exact Ensures.set ⟨_, rfl, .created hsetup⟩

variable [Scalar α]

theorem bring_supplied (F : StandardForm α) (path : SolvePath) (s : Settings α) :
    Ensures (fun M => M.settings = s) (bring E F path)
      (fun _ M => ∃ w, M.workspace = some w ∧ E.Supplied F s w.session M.shared) fun _ => True := by
  cases path with
  | setup | rebuild => exact startSession_supplied E F s
  | update =>
    have hpush : Ensures (fun M => M.settings = s) (pushChanges E F)
        (fun _ M => ∃ w, M.workspace = some w ∧ E.Supplied F s w.session M.shared)
        fun _ => True := by
      refine Ensures.any.bind fun _ => Ensures.any.bind fun _ =>
        callSession_ensures E _ _ ?_ fun _ _ _ => trivial
      intro M w r S e _ _ hcall
      refine ⟨fun hr => ?_, fun _ => trivial⟩
      subst hr
      exact ⟨_, rfl, .updated hcall⟩
    exact hpush.tryCatch fun e => Ensures.bind (R := fun _ _ => True)
      (Ensures.modify fun _ _ => trivial) fun _ => Ensures.throw fun _ => id

variable [ScalarText α]

/-- A solve that gets into a session has a session with the problem of its model. -/
theorem approach_supplied (M₀ : Model α ε σ) :
    Ensures (· = M₀) (approach E)
      (fun b M => M₀.standardForm = .ok b.1 ∧
        ∃ w, M.workspace = some w ∧ E.Supplied b.1 M₀.settings w.session M.shared)
      fun _ => True := by
  refine Ensures.get_bind fun M hM => Ensures.bind (R := fun _ N => N = M₀)
    (Ensures.lift (fun N _ hN _ => hN.trans hM) fun _ _ => trivial) fun _ => ?_
  refine Ensures.bind (R := fun _ N => SameContents M₀ N)
    (Ensures.modify fun N hN => hN ▸ ⟨rfl, rfl, rfl, rfl⟩) fun _ => Ensures.get_bind fun N hN => ?_
  refine Ensures.bind (R := fun F L => M₀.standardForm = .ok F ∧ L.settings = M₀.settings)
    (Ensures.lift (fun L F hL hF => ⟨hN.standardForm.symm.trans hF, hL ▸ hN.settings⟩)
      fun _ _ => trivial) fun F => ?_
  refine Ensures.bind (R := fun _ L => M₀.standardForm = .ok F ∧ L.settings = M₀.settings)
    ((report_ensures _ fun _ _ => id).weaken (fun _ => id) (fun _ _ => id) fun _ _ => trivial)
    fun _ => ?_
  refine Ensures.bind (R := fun _ L => M₀.standardForm = .ok F ∧
    ∃ w, L.workspace = some w ∧ E.Supplied F M₀.settings w.session L.shared) ?_ fun _ =>
      Ensures.pure fun _ => id
  rintro L ⟨hF, hL⟩
  exact ((bring_supplied E F _ M₀.settings).weaken (fun _ => id) (fun _ _ h => ⟨hF, h⟩)
    fun _ => id) L hL

end Supplied

/-! ### The start point and the run -/

section Run

variable (E : Engine α ε σ)

theorem on_passStartPoint (F : StandardForm α) (M : Model α ε σ) :
    on (passStartPoint E F) M = match M.startPoint with
      | none => (.ok (), M)
      | some p =>
        match checkStartPoint F.varCount F.constraintCount p with
        | .error e => (.error e, { M with startPoint := none })
        | .ok () => on (callSession E .update (.warmStart p.x p.y))
            { M with startPoint := none } := by
  unfold passStartPoint
  rw [on_bind, on_get]
  cases hp : M.startPoint with
  | none => simp only [hp]; rfl
  | some p =>
    simp only [hp]
    show on (ExceptT.mk (pure (checkStartPoint F.varCount F.constraintCount p)) >>= fun _ =>
      callSession E .update (.warmStart p.x p.y)) { M with startPoint := none } = _
    rw [on_bind, on_lift]
    rcases checkStartPoint F.varCount F.constraintCount p with e | _ <;> rfl

/-- A call of the observed session is noted, whatever becomes of it. -/
theorem on_callSession_observed (phase : EngineError → ModelError) (c : SessionCall α)
    {M : Model α (Observed α ε) (Nat × σ)} {w : Workspace α (Nat × σ)}
    (hs : M.workspace = some w) : ∃ r v o,
    on (callSession E.observed phase c) M
      = (r.mapError phase, { M with workspace := some v, shared := o }) ∧
    v.session.1 = w.session.1 ∧ o.events = M.shared.events ++ [.called w.session.1 c r] := by
  rcases hcall : E.observed.call c w.session M.shared with ⟨r, S, o⟩
  obtain ⟨hS, ho⟩ := Engine.observed_call hcall
  exact ⟨r, _, o, on_callSession E.observed phase c hs hcall, hS, ho⟩

variable [Scalar α]

/-- The outcome is stored apart from the start point and from what the sessions share. -/
theorem recordOutcome_apart (F : StandardForm α) (path : SolvePath) (p : Option (StartPoint α))
    (e : ε) : Ensures (fun M => M.startPoint = p ∧ M.shared = e) (recordOutcome E F path)
      (fun _ M => M.startPoint = p ∧ M.shared = e) fun M => M.startPoint = p ∧ M.shared = e := by
  refine Ensures.get_bind fun M hM => ?_
  cases M.session? with
  | none => exact Ensures.throw fun N hN => hN ▸ hM
  | some S =>
    refine Ensures.bind (R := fun _ N => N.startPoint = p ∧ N.shared = e) (Ensures.modify ?_)
      fun _ => Ensures.pure fun _ => id
    rintro _ rfl
    exact hM

variable [ScalarText α]

/-- Behind the call that runs the session nothing reaches the engine, nor the start point. -/
theorem runSession_calls (F : StandardForm α) (path : SolvePath)
    {M : Model α (Observed α ε) (Nat × σ)} {w : Workspace α (Nat × σ)} (hs : M.workspace = some w) :
    (on (runSession E.observed F path) M).2.startPoint = M.startPoint ∧
    ∃ r, (on (runSession E.observed F path) M).2.shared.events
      = M.shared.events ++ [.called w.session.1 .solve r] := by
  obtain ⟨r, v, o, hcall, -, ho⟩ := on_callSession_observed E .solve .solve hs
  unfold runSession
  rw [on_bind, hcall]
  cases r with
  | error f => exact ⟨rfl, _, ho⟩
  | ok u =>
    have hrest : Ensures (fun N => N.startPoint = M.startPoint ∧ N.shared = o)
        (recordOutcome E.observed F path >>= fun r => report (outcomeReport r) >>= fun _ =>
          pure r.status)
        (fun _ N => N.startPoint = M.startPoint ∧ N.shared = o)
        fun N => N.startPoint = M.startPoint ∧ N.shared = o :=
      (recordOutcome_apart E.observed F path M.startPoint o).bind fun r =>
        (report_ensures _ fun _ _ => id).bind fun _ => Ensures.pure fun _ => id
    obtain ⟨hstart, hshared⟩ := hrest.after
      (M := { M with workspace := some v, shared := o }) ⟨rfl, rfl⟩
    exact ⟨hstart, _, (congrArg Observed.events hshared).trans ho⟩

/-- Once its problem is in the session, a solve takes the start point. -/
theorem passAndRun_consumed (F : StandardForm α) (path : SolvePath)
    {M : Model α (Observed α ε) (Nat × σ)} {w : Workspace α (Nat × σ)} (hs : M.workspace = some w)
    {after : Except ModelError SolverStatus × Model α (Observed α ε) (Nat × σ)}
    (hafter : on (passStartPoint E.observed F >>= fun _ => runSession E.observed F path) M
      = after) :
    after.2.startPoint = none ∧ ∃ calls, after.2.shared.events = M.shared.events ++ calls ∧
      StartPoint.Consumed F.varCount F.constraintCount w.session.1 M.startPoint calls after.1 := by
  subst hafter
  rw [on_bind, on_passStartPoint]
  cases hp : M.startPoint with
  | none =>
    obtain ⟨hstart, r, hevents⟩ := runSession_calls E F path hs
    exact ⟨hstart.trans hp, _, hevents, .absent r _⟩
  | some p =>
    rcases p.checkStartPoint_cases F.varCount F.constraintCount with
      ⟨hfits, hok⟩ | ⟨v, hx, hsize, herror⟩ | ⟨v, hx, hy, hsize, herror⟩
    · obtain ⟨r, v, o, hcall, hv, ho⟩ := on_callSession_observed E .update
        (.warmStart p.x p.y) (M := { M with startPoint := none }) hs
      simp only [hok, hcall]
      cases r with
      | error f => exact ⟨rfl, _, ho, .refused hfits f⟩
      | ok u =>
        obtain ⟨hstart, r, hevents⟩ := runSession_calls E F path
          (M := { M with workspace := some v, shared := o, startPoint := none }) rfl
        refine ⟨hstart, _, ?_, .passed hfits r _⟩
        simp only [Except.mapError]
        rw [hevents, ho, hv, List.append_assoc]
        rfl
    · simp only [herror]
      exact ⟨trivial, [], (List.append_nil _).symm, .misfitX hx hsize⟩
    · simp only [herror]
      exact ⟨trivial, [], (List.append_nil _).symm, .misfitY hx hy hsize⟩

end Run

/-! ### Whole runs -/

/-- The start point that the model accepts in an operation. -/
def acceptedPoint? (M : Model α ε σ) : ModelOp α → Option (StartPoint α)
  | .setStartPoint p => (M.setStartPoint p).toOption.map fun _ => p
  | _ => none

variable [Scalar α] [ScalarText α] (E : Engine α ε σ)

/-- The start points that a model accepts, the latest last. -/
def acceptedPoints : Model α ε σ → List (ModelOp α) → List (StartPoint α)
  | _, [] => []
  | M, op :: ops => (M.acceptedPoint? op).toList ++ acceptedPoints (M.perform E op) ops

theorem acceptedPoints_concat (M : Model α ε σ) (ops : List (ModelOp α)) (op : ModelOp α) :
    acceptedPoints E M (ops ++ [op])
      = acceptedPoints E M ops ++ ((ops.foldl (perform E) M).acceptedPoint? op).toList := by
  induction ops generalizing M with
  | nil => simp [acceptedPoints]
  | cons first ops ih => simp [acceptedPoints, ih]

/-- An edit replaces the start point by the one that it sets, if it sets one. -/
theorem perform_startPoint (M : Model α ε σ) {op : ModelOp α} (hsolve : op ≠ .solve)
    (hrelease : op ≠ .release) :
    (M.perform E op).startPoint = (M.acceptedPoint? op).or M.startPoint := by
  cases op with
  | solve => exact absurd rfl hsolve
  | release => exact absurd rfl hrelease
  | setBounds i lower upper =>
    simp only [perform, setBounds]
    cases M.constraint i <;> rfl
  | setStartPoint p =>
    simp only [perform, acceptedPoint?, setStartPoint]
    cases M.requireLive with
    | error e => rfl
    | ok _ => cases checkStartPoint M.varCount M.constraints.size p <;> rfl
  | _ => rfl

variable (shared : ε) (ops : List (ModelOp α))

/-- The way of the next solve into a session, with what is noted of it. -/
def approachedRun :
    Except ModelError (StandardForm α × SolvePath) × Model α (Observed α ε) (Nat × σ) :=
  on (approach E.observed) (observedRun E shared ops)

theorem run_startPoint : (run E shared ops).startPoint = (observedRun E shared ops).startPoint := by
  rw [run_observed]
  rfl

theorem approachedRun_withheld :
    Withheld (run E shared ops).startPoint (history E shared ops)
      (approachedRun E shared ops).2 := by
  rw [run_startPoint]
  exact ((keeps_withheld E _ _).approach fun _ h => ⟨h.startPoint, h.events⟩).after
    (.refl (observedRun E shared ops))

/-- Only a solve passes a start point on. -/
theorem history_edit {op : ModelOp α} (hsolve : op ≠ .solve) :
    passedPoints (history E shared (ops ++ [op])) = passedPoints (history E shared ops) := by
  unfold history observedRun
  rw [run_concat]
  by_cases hrelease : op = .release
  · subst hrelease
    exact ((keeps_withheld E _ _).discardSession (.refl _)).passedPoints_eq
  · rw [(perform_session E.observed hsolve hrelease).2.2]

/-- A solve that fails on the way into a session leaves the start point where it is. -/
theorem solve_withheld {e : ModelError} {N : Model α (Observed α ε) (Nat × σ)}
    (h : approachedRun E shared ops = (.error e, N)) :
    (on (solve E) (run E shared ops)).1 = .error e ∧
    (run E shared (ops ++ [.solve])).startPoint = (run E shared ops).startPoint ∧
    passedPoints (history E shared (ops ++ [.solve])) = passedPoints (history E shared ops) := by
  have hsolve : on (solve E.observed) (observedRun E shared ops) = (.error e, N) := by
    unfold approachedRun at h
    rw [solve_eq, on_bind, h]
  have hrun : observedRun E shared (ops ++ [.solve]) = N := by
    unfold observedRun at hsolve ⊢
    rw [run_concat]
    exact congrArg Prod.snd hsolve
  have hN := approachedRun_withheld E shared ops
  rw [h] at hN
  refine ⟨?_, ?_, ?_⟩
  · rw [solve_observed, hsolve]
  · rw [run_startPoint, hrun]
    exact hN.startPoint
  · rw [history, hrun]
    exact hN.passedPoints_eq

omit [ScalarText α] in
/-- The problem has the variables and the constraints of the model. -/
theorem standardForm_counts {M : Model α ε σ} {F : StandardForm α} (h : M.standardForm = .ok F) :
    F.varCount = M.varCount ∧ F.constraintCount = M.constraints.size := by
  unfold standardForm at h
  rcases StandardForm.assemble_cases M.varCount M.objective M.constraints.toList with
    ⟨-, i, hi⟩ | ⟨-, hassemble⟩
  · rw [hi] at h
    cases h
  · rw [hassemble] at h
    split at h
    · cases h
    · cases h
      exact ⟨rfl, rfl⟩

/-- The way of a solve into a session is that of the observed model. -/
theorem approachedRun_eq : on (approach E) (run E shared ops)
    = ((approachedRun E shared ops).1,
      (approachedRun E shared ops).2.map Observed.shared Prod.snd) := by
  rw [run_observed]
  exact E.observed_maps.approach (observedRun E shared ops)

/-- What holds when a solve gets to the start point: nothing was passed on yet, and the problem
was brought into the live session. The session of an engine that stores what it is given holds
the problem. -/
structure Approached (F : StandardForm α) (M : Model α ε σ) (es : List (SessionEvent α))
    (w : Workspace α (Nat × σ)) (N : Model α (Observed α ε) (Nat × σ)) : Prop where
  standardForm : M.standardForm = .ok F
  workspace : N.workspace = some w
  withheld : Withheld M.startPoint es N
  supplied : E.observed.Supplied F M.settings w.session N.shared
  holds : ∀ [PartialEquivBEq α] (data : σ → QpData α), E.Stores data →
    E.Holds data w.session.2 F.toQpData M.settings

theorem approachedRun_ok {F : StandardForm α} {path : SolvePath}
    {N : Model α (Observed α ε) (Nat × σ)} (h : approachedRun E shared ops = (.ok (F, path), N)) :
    ∃ w, Approached E F (run E shared ops) (history E shared ops) w N := by
  obtain ⟨hF, w, hw, hsupplied⟩ :=
    (approach_supplied E.observed (observedRun E shared ops)).of_ok rfl h
  have hplain := approachedRun_eq E shared ops
  have hwithheld := approachedRun_withheld E shared ops
  rw [h] at hplain hwithheld
  have hrun := run_observed E shared ops
  refine ⟨w, ?_, hw, hwithheld, ?_, fun data hE => ?_⟩
  · rw [hrun]
    exact hF
  · rw [hrun]
    exact hsupplied
  · obtain ⟨-, -, -, v, hv, hholds⟩ := (approach_ensures hE (run E shared ops)
      (copiesAgree_of_reachable hE (reachable_run E shared ops))).of_ok rfl hplain
    simp only [Model.map, hw, Option.map_some, Workspace.map, Option.some.injEq] at hv
    rw [← hv] at hholds
    exact hholds

/-- A solve that gets into a session takes the start point. -/
theorem solve_consumed {F : StandardForm α} {path : SolvePath}
    {N : Model α (Observed α ε) (Nat × σ)} {w : Workspace α (Nat × σ)}
    (h : approachedRun E shared ops = (.ok (F, path), N))
    (hN : Approached E F (run E shared ops) (history E shared ops) w N) :
    (run E shared (ops ++ [.solve])).startPoint = none ∧
    ∃ calls, history E shared (ops ++ [.solve]) = N.shared.events ++ calls ∧
      StartPoint.Consumed (run E shared ops).varCount (run E shared ops).constraints.size
        w.session.1 (run E shared ops).startPoint calls (on (solve E) (run E shared ops)).1 := by
  have hsolve : on (solve E.observed) (observedRun E shared ops)
      = on (passStartPoint E.observed F >>= fun _ => runSession E.observed F path) N := by
    unfold approachedRun at h
    rw [solve_eq, on_bind, h]
  have hrun : observedRun E shared (ops ++ [.solve])
      = (on (solve E.observed) (observedRun E shared ops)).2 := run_concat _ _ _ _
  obtain ⟨hnone, calls, hevents, hconsumed⟩ :=
    passAndRun_consumed E F path hN.workspace hsolve.symm
  obtain ⟨hn, hm⟩ := standardForm_counts hN.standardForm
  refine ⟨?_, calls, ?_, ?_⟩
  · rw [run_startPoint, hrun]
    exact hnone
  · rw [history, hrun]
    exact hevents
  · rwa [hn, hm, hN.withheld.startPoint, ← solve_observed] at hconsumed

/-- The start points that were accepted are those that wait, at most the latest one, and earlier
ones, some of which were passed on. -/
theorem acceptedPoints_eq : ∃ replaced, acceptedPoints E (Model.new E shared) ops
      = replaced ++ (run E shared ops).startPoint.toList ∧
    (passedPoints (history E shared ops)).Sublist replaced := by
  induction ops using List.reverseRecOn with
  | nil => exact ⟨[], rfl, .slnil⟩
  | append_singleton ops op ih =>
    obtain ⟨replaced, haccepted, hpassed⟩ := ih
    have hconcat : acceptedPoints E (Model.new E shared) (ops ++ [op])
        = replaced ++ (run E shared ops).startPoint.toList
          ++ ((run E shared ops).acceptedPoint? op).toList := by
      rw [acceptedPoints_concat, haccepted]
      rfl
    rw [hconcat]
    by_cases hsolve : op = .solve
    · subst hsolve
      have hno : (run E shared ops).acceptedPoint? .solve = none := rfl
      rw [hno, Option.toList_none, List.append_nil]
      rcases h : approachedRun E shared ops with ⟨e | ⟨F, path⟩, N⟩
      · obtain ⟨-, hstart, hevents⟩ := solve_withheld E shared ops h
        exact ⟨replaced, by rw [hstart], by rwa [hevents]⟩
      · obtain ⟨w, hN⟩ := approachedRun_ok E shared ops h
        obtain ⟨hnone, calls, hevents, hconsumed⟩ := solve_consumed E shared ops h hN
        refine ⟨_, by rw [hnone, Option.toList_none, List.append_nil], ?_⟩
        rw [hevents, passedPoints_append, hN.withheld.passedPoints_eq]
        exact hpassed.append hconsumed.passed_sublist
    · rw [history_edit E shared ops hsolve]
      have hbefore : (passedPoints (history E shared ops)).Sublist
          (replaced ++ (run E shared ops).startPoint.toList) :=
        List.sublist_append_of_sublist_left hpassed
      by_cases hrelease : op = .release
      · subst hrelease
        exact ⟨_, by rw [run_concat]; simp [acceptedPoint?, perform, release], hbefore⟩
      · rw [run_concat, perform_startPoint E _ hsolve hrelease]
        cases (run E shared ops).acceptedPoint? op with
        | none => exact ⟨replaced, by simp, hpassed⟩
        | some p => exact ⟨_, rfl, hbefore⟩

/-- For every engine and all operations on a model: every start point that is accepted is passed
on at most once, and only as long as no other one was accepted. Only a solve passes it on or
takes it, apart from a release. A solve that fails on the way into its session, be it in
assembly, in the report, in a setup or in an update, leaves it where it is. A solve that gets
there, by whichever path, takes it: if it fits the variables and constraints that there are
now, it is passed on, with the problem of the model in the session, and the run of the session
is the next call, unless the session refuses the point; if it does not fit, the solve ends
without a call, and its error names the vector. -/
theorem startPoint_passed_once :
    (∃ replaced, acceptedPoints E (Model.new E shared) ops
        = replaced ++ (run E shared ops).startPoint.toList ∧
      (passedPoints (history E shared ops)).Sublist replaced) ∧
    (∀ op, op ≠ .solve →
      passedPoints (history E shared (ops ++ [op])) = passedPoints (history E shared ops) ∧
      (op ≠ .release → (run E shared (ops ++ [op])).startPoint
        = ((run E shared ops).acceptedPoint? op).or (run E shared ops).startPoint)) ∧
    (∀ e N, approachedRun E shared ops = (.error e, N) →
      (on (solve E) (run E shared ops)).1 = .error e ∧
      (run E shared (ops ++ [.solve])).startPoint = (run E shared ops).startPoint ∧
      passedPoints (history E shared (ops ++ [.solve])) = passedPoints (history E shared ops)) ∧
    ∀ F path N, approachedRun E shared ops = (.ok (F, path), N) → ∃ w,
      Approached E F (run E shared ops) (history E shared ops) w N ∧
      (run E shared (ops ++ [.solve])).startPoint = none ∧
      ∃ calls, history E shared (ops ++ [.solve]) = N.shared.events ++ calls ∧
        StartPoint.Consumed (run E shared ops).varCount (run E shared ops).constraints.size
          w.session.1 (run E shared ops).startPoint calls (on (solve E) (run E shared ops)).1 := by
  refine ⟨acceptedPoints_eq E shared ops, fun op hsolve => ⟨history_edit E shared ops hsolve,
    fun hrelease => ?_⟩, fun e N h => solve_withheld E shared ops h, fun F path N h => ?_⟩
  · rw [run_concat]
    exact perform_startPoint E _ hsolve hrelease
  · obtain ⟨w, hN⟩ := approachedRun_ok E shared ops h
    exact ⟨w, hN, solve_consumed E shared ops h hN⟩

/-- A model of one variable with a start point, and with an objective over another one. -/
def misnamed : List (ModelOp ℚ) :=
  [.addVariable, .setStartPoint ⟨some #[1], none⟩,
    .setObjective (QuadExpr.empty.addLinExpr (LinExpr.empty.addTerm ⟨1⟩ 1))]

/-- The same model with its variable in the objective, after a solve that failed. -/
def renamed : List (ModelOp ℚ) :=
  misnamed ++ [.solve, .setObjective (QuadExpr.empty.addLinExpr (LinExpr.empty.addTerm ⟨0⟩ 1))]

/-- The same model after a solve, with the start point set once more, and one more variable. -/
def extended : List (ModelOp ℚ) :=
  renamed ++ [.solve, .setStartPoint ⟨some #[1], none⟩, .addVariable]

/-- The start point waits until the objective is corrected, and is passed on then. The one after
it is one coordinate short. -/
theorem startPoint_passed_once_misnamed :
    (run storingEngine () (misnamed ++ [.solve])).startPoint = some ⟨some #[1], none⟩ ∧
    (∃ (F : StandardForm ℚ) (w : Workspace ℚ (Nat × QpData ℚ × Settings ℚ))
      (before calls : List (SessionEvent ℚ)),
      history storingEngine () (renamed ++ [.solve]) = before ++ calls ∧
      storingEngine.Holds Prod.fst w.session.2 F.toQpData (run storingEngine () renamed).settings ∧
      StartPoint.Consumed 1 0 w.session.1 (some ⟨some #[1], none⟩) calls (.ok .solved)) ∧
    ∃ k before calls, history storingEngine () (extended ++ [.solve]) = before ++ calls ∧
      StartPoint.Consumed 2 0 k (some ⟨some #[1], none⟩) calls
        (.error (.dimensionMismatch "initial x" 2 1)) := by
  have hstays : (approachedRun storingEngine () misnamed).1.isOk = false := by decide +kernel
  have hruns : ∀ ops ∈ [renamed, extended],
      (approachedRun storingEngine () ops).1.isOk = true := by decide +kernel
  have hpoint : ∀ ops ∈ [misnamed, renamed, extended],
      (run storingEngine () ops).startPoint = some ⟨some #[1], none⟩ := by
    simp only [List.mem_cons, List.not_mem_nil, or_false]
    rintro ops (rfl | rfl | rfl) <;> rfl
  refine ⟨?_, ?_, ?_⟩
  · obtain ⟨-, -, hwithheld, -⟩ := startPoint_passed_once storingEngine () misnamed
    rcases h : approachedRun storingEngine () misnamed with ⟨e | b, N⟩
    · rw [(hwithheld e N h).2.1]
      exact hpoint _ (by simp)
    · rw [h] at hstays
      cases hstays
  · obtain ⟨-, -, -, htaken⟩ := startPoint_passed_once storingEngine () renamed
    rcases h : approachedRun storingEngine () renamed with ⟨e | ⟨F, path⟩, N⟩
    · have := hruns renamed (by simp)
      rw [h] at this
      cases this
    · obtain ⟨w, hN, -, calls, hevents, hconsumed⟩ := htaken F path N h
      have hresult : (on (solve storingEngine) (run storingEngine () renamed)).1 = .ok .solved := by
        decide +kernel
      rw [hpoint _ (by simp), hresult] at hconsumed
      exact ⟨F, w, _, calls, hevents, hN.holds Prod.fst storingEngine_stores, hconsumed⟩
  · obtain ⟨-, -, -, htaken⟩ := startPoint_passed_once storingEngine () extended
    rcases h : approachedRun storingEngine () extended with ⟨e | ⟨F, path⟩, N⟩
    · have := hruns extended (by simp)
      rw [h] at this
      cases this
    · obtain ⟨w, hN, -, calls, hevents, hconsumed⟩ := htaken F path N h
      have hresult : (on (solve storingEngine) (run storingEngine () extended)).1
          = .error (.dimensionMismatch "initial x" 2 1) := by
        decide +kernel
      rw [hpoint _ (by simp), hresult] at hconsumed
      exact ⟨_, _, calls, hevents, hconsumed⟩

end Model
end QuadOpt
