/-
# What becomes of a session after a call that failed

A call that fails is the last one of its solve, whose error it is. If it was to bring new
data or settings into the session, the session is dropped right after it, and nothing
happens to it any more: the next that reaches the engine is a setup. If the start point was
refused or the run itself failed, the session stays, and whatever happens next happens to it.

So what a run that failed leaves behind in a session is what the next solve goes on with.

Key definitions: `SessionEvent.failure?`, `Untroubled`, `Discards`.
Key theorems: `Engine.observed_ending`, `Engine.observed_discards`, `Model.failed_calls`,
`Model.exists_reused_after_failure`.
-/
import QuadOpt.Admm.Engine
import QuadOpt.Proofs.Admm.Accuracy
import QuadOpt.Proofs.Model.LifeCycle

namespace QuadOpt

open ModelM

variable {α ε σ : Type}

/-- The call that failed, with its session and its error. -/
def SessionEvent.failure? : SessionEvent α → Option (Nat × SessionCall α × EngineError)
  | called k c (.error f) => some (k, c, f)
  | _ => none

theorem SessionEvent.eq_called_of_failure? {e : SessionEvent α} {k : Nat} {c : SessionCall α}
    {f : EngineError} (h : e.failure? = some (k, c, f)) : e = .called k c (.error f) := by
  unfold failure? at h
  split at h
  · cases h
    rfl
  · cases h

/-- No call has failed. -/
def Untroubled (es : List (SessionEvent α)) : Prop := ∀ e ∈ es, e.failure? = none

theorem Untroubled.concat {es : List (SessionEvent α)} (h : Untroubled es) {e : SessionEvent α}
    (he : e.failure? = none) : Untroubled (es ++ [e]) := by
  intro e' he'
  rcases List.mem_append.mp he' with hmem | hmem
  · exact h e' hmem
  · rwa [List.mem_singleton.mp hmem]

/-! ### One solve -/

/-- What follows a call that failed in the solve that made it. -/
def aftermath (k : Nat) (c : SessionCall α) : List (SessionEvent α) :=
  if c.isUpdate then [.dropped k] else []

/-- The session that a call that failed leaves. -/
def survivor (k : Nat) (c : SessionCall α) : Option Nat := if c.isUpdate then none else some k

/-- Since the events `es` no call has failed. -/
def Since (es : List (SessionEvent α)) (o : Observed α ε) : Prop :=
  ∃ new, o.events = es ++ new ∧ Untroubled new

theorem Since.refl (o : Observed α ε) : Since o.events o :=
  ⟨[], (List.append_nil _).symm, fun _ he => absurd he List.not_mem_nil⟩

/-- Since the events `es` no call has failed but the last one, with what followed it. -/
structure EndsAt (es : List (SessionEvent α)) (k : Nat) (c : SessionCall α) (f : EngineError)
    (live : Option Nat) (o : Observed α ε) : Prop where
  events : ∃ new, Untroubled new ∧ o.events = es ++ new ++ .called k c (.error f) :: aftermath k c
  live : live = survivor k c

theorem Engine.observed_ending (E : Engine α ε σ) (es : List (SessionEvent α)) :
    E.observed.Protocol (fun _ o => Since es o) fun e S o => Since es o ∨
      ∃ k c f, e = c.phase f ∧ EndsAt es k c f (S.map Prod.fst) o where
  drop {S o} := by
    rintro ⟨new, ho, hnew⟩
    exact ⟨new ++ [.dropped S.1], by simp [observed_drop, ho], hnew.concat rfl⟩
  setup {D s o S o'} := by
    rintro ⟨new, ho, hnew⟩ hsetup
    refine ⟨new ++ [.created (createdSessions o.events).length], ?_, hnew.concat rfl⟩
    rw [(observed_setup_ok hsetup).2, ho, List.append_assoc]
  setup_error {D s o f o'} := by
    rintro ⟨new, ho, hnew⟩ hsetup
    refine .inl ⟨new ++ [.refused f], ?_, hnew.concat rfl⟩
    rw [observed_setup_error hsetup, ho, List.append_assoc]
  call {c S o T o'} := by
    rintro ⟨new, ho, hnew⟩ hcall
    refine ⟨new ++ [.called S.1 c (.ok ())], ?_, hnew.concat rfl⟩
    rw [(observed_call hcall).2, ho, List.append_assoc]
  update_error {c S o f T o'} := by
    rintro ⟨new, ho, hnew⟩ hc hcall
    obtain ⟨hT, ho'⟩ := observed_call hcall
    have hphase : c.phase f = .update f := by cases c <;> first | rfl | cases hc
    refine .inr ⟨T.1, c, f, hphase.symm, ⟨new, hnew, ?_⟩, by simp [survivor, hc]⟩
    simp [observed_drop, ho', ho, hT, aftermath, hc]
  call_error {c S o f T o'} := by
    rintro ⟨new, ho, hnew⟩ hc hcall
    obtain ⟨hT, ho'⟩ := observed_call hcall
    refine .inr ⟨T.1, c, f, rfl, ⟨new, hnew, ?_⟩, by simp [survivor, hc]⟩
    simp [ho', ho, hT, aftermath, hc]
  other_error h _ := .inl h

/-! ### Whole histories -/

/-- A session is dropped right after an update that failed. -/
def Discards (es : List (SessionEvent α)) : Prop :=
  ∀ before k c f after, es = before ++ .called k c (.error f) :: after → c.isUpdate = true →
    after.head? = some (.dropped k)

/-- Where a list with one more element can be split. -/
theorem concat_eq_append_cons {β : Type} {xs before after : List β} {x y : β}
    (h : xs ++ [x] = before ++ y :: after) : (after = [] ∧ x = y) ∨
      ∃ rest, after = rest ++ [x] ∧ xs = before ++ y :: rest := by
  rcases List.eq_nil_or_concat' after with rfl | ⟨rest, z, rfl⟩
  · exact .inl ⟨rfl, (List.append_singleton_inj.mp h).2⟩
  · rw [← List.cons_append, ← List.append_assoc] at h
    obtain ⟨hxs, rfl⟩ := List.append_singleton_inj.mp h
    exact .inr ⟨rest, rfl, hxs⟩

namespace Discards

variable {es : List (SessionEvent α)}

theorem nil : Discards ([] : List (SessionEvent α)) := by
  intro before k c f after h
  simp at h

theorem concat (h : Discards es) {e : SessionEvent α}
    (he : ∀ k c f, e = .called k c (.error f) → c.isUpdate = false) : Discards (es ++ [e]) := by
  intro before k c f after hes hc
  rcases concat_eq_append_cons hes with ⟨-, rfl⟩ | ⟨rest, rfl, hinit⟩
  · rw [he k c f rfl] at hc
    cases hc
  · rw [List.head?_append, h before k c f rest hinit hc]
    rfl

/-- What a call does is not held against a session that is dropped then. -/
theorem concat_dropped (h : Discards es) (k : Nat) (c : SessionCall α)
    (r : Except EngineError Unit) : Discards (es ++ [.called k c r] ++ [.dropped k]) := by
  intro before k' c' f after hes hc
  rcases concat_eq_append_cons hes with ⟨-, hlast⟩ | ⟨rest, rfl, hinit⟩
  · cases hlast
  · rcases concat_eq_append_cons hinit with ⟨rfl, hcall⟩ | ⟨rest, rfl, hbefore⟩
    · cases hcall
      rfl
    · rw [List.head?_append, List.head?_append, h before k' c' f rest hbefore hc]
      rfl

end Discards

theorem Engine.observed_discards (E : Engine α ε σ) :
    E.observed.Protocol (fun _ o => Discards o.events) fun _ _ o => Discards o.events where
  drop h := by
    rw [observed_drop]
    exact h.concat fun _ _ _ he => by cases he
  setup h hsetup := by
    rw [(observed_setup_ok hsetup).2]
    exact h.concat fun _ _ _ he => by cases he
  setup_error h hsetup := by
    rw [observed_setup_error hsetup]
    exact h.concat fun _ _ _ he => by cases he
  call h hcall := by
    rw [(observed_call hcall).2]
    exact h.concat fun _ _ _ he => by cases he
  update_error {c S o f T o'} h _ hcall := by
    obtain ⟨hT, ho⟩ := observed_call hcall
    rw [observed_drop, ho, hT]
    exact h.concat_dropped _ _ _
  call_error h hc hcall := by
    rw [(observed_call hcall).2]
    refine h.concat fun k c' f' he => ?_
    cases he
    exact hc
  other_error h _ := h

namespace Model

variable [Scalar α] [ScalarText α] (E : Engine α ε σ) (shared : ε) (ops : List (ModelOp α))

/-- A solve in which a call fails ends with it. -/
theorem solve_ending :
    Since (history E shared ops) (observedRun E shared (ops ++ [.solve])).shared ∨
      ∃ k c f, (on (solve E) (run E shared ops)).1 = .error (c.phase f) ∧
        EndsAt (history E shared ops) k c f
          ((observedRun E shared (ops ++ [.solve])).session?.map Prod.fst)
          (observedRun E shared (ops ++ [.solve])).shared := by
  have hstart : (observedRun E shared ops).At fun _ o => Since (history E shared ops) o :=
    .refl (observedRun E shared ops).shared
  have hsolve := (E.observed_ending (history E shared ops)).solve _ hstart
  have hrun : observedRun E shared (ops ++ [.solve])
      = (on (solve E.observed) (observedRun E shared ops)).2 := run_concat _ _ _ _
  rw [solve_observed, hrun]
  rcases hon : on (solve E.observed) (observedRun E shared ops) with ⟨e | status, N⟩
  · rw [hon] at hsolve
    rcases hsolve with hsince | ⟨k, c, f, rfl, hends⟩
    · exact .inl hsince
    · exact .inr ⟨k, c, f, rfl, hends⟩
  · rw [hon] at hsolve
    exact .inl hsolve

/-- What is known after a call that failed. It is the last call of its solve, which fails with
its error. If it was an update, its session is dropped at once, nothing happens to the session
any more, and a setup is the next that reaches the engine; else the session stays alive and
is what the next event is about. -/
theorem failed_calls :
    (∃ new, history E shared (ops ++ [ModelOp.solve]) = history E shared ops ++ new ∧
      (Untroubled new ∨ ∃ (calls : List (SessionEvent α)) (k : Nat) (c : SessionCall α)
        (f : EngineError), Untroubled calls ∧
        new = calls ++ SessionEvent.called k c (.error f) :: aftermath k c ∧
        (on (solve E) (run E shared ops)).1 = .error (c.phase f) ∧
        aliveSessions (history E shared (ops ++ [ModelOp.solve])) = (survivor k c).toList)) ∧
    ∀ before k c f after,
      history E shared ops = before ++ SessionEvent.called k c (.error f) :: after →
      (c.isUpdate = true → ∃ rest, after = SessionEvent.dropped k :: rest ∧
        (∀ e ∈ rest, e.target? ≠ some k) ∧ ∀ e ∈ rest.head?, e.isSetup = true) ∧
      (c.isUpdate = false → ∀ e ∈ after.head?, e.target? = some k) := by
  have horderly := history_orderly E shared ops
  refine ⟨?_, fun before k c f after h => ⟨fun hc => ?_, fun hc e he => ?_⟩⟩
  · rcases solve_ending E shared ops with ⟨new, hevents, hnew⟩ | ⟨k, c, f, hresult, hends⟩
    · exact ⟨new, hevents, .inl hnew⟩
    · obtain ⟨calls, hcalls, hevents⟩ := hends.events
      have hafter := history_orderly E shared (ops ++ [ModelOp.solve])
      have halive : aliveSessions (history E shared (ops ++ [.solve])) = (survivor k c).toList := by
        rw [hafter.aliveSessions_eq, hends.live]
      rw [List.append_assoc] at hevents
      exact ⟨_, hevents, .inr ⟨calls, k, c, f, hcalls, rfl, hresult, halive⟩⟩
  · have hdiscards : Discards (history E shared ops) :=
      E.observed_discards.run Discards.nil ops
    obtain ⟨rest, rfl⟩ := List.head?_eq_some_iff.mp (hdiscards before k c f after h hc)
    have hdropped : history E shared ops
        = (before ++ [.called k c (.error f)]) ++ .dropped k :: rest := by simp [h]
    refine ⟨rest, rfl, horderly.target_ne_of_dropped hdropped, fun e he => ?_⟩
    obtain ⟨rest, rfl⟩ := List.head?_eq_some_iff.mp he
    rcases horderly.next hdropped with ⟨-, hsetup⟩ | ⟨_, hlive, -⟩
    · exact hsetup
    · cases hlive
  · obtain ⟨rest, rfl⟩ := List.head?_eq_some_iff.mp he
    rcases horderly.next h with ⟨hlive, -⟩ | ⟨_, hlive, htarget⟩
    · cases hlive
    · cases hlive
      exact htarget

/-- What the sessions share of an engine whose next update of the vectors fails. -/
def updateFault : Recorder Unit := Recorder.plan ⟨(), [], none⟩ .updateVectors .nonConvex

/-- A model is solved three times, and its session fails to take over the vectors the second
time. -/
theorem failed_calls_updateFault : ∃ before k c f rest,
    history storingEngine.recorded updateFault [.solve, .solve, .solve]
      = before ++ SessionEvent.called k c (.error f) :: .dropped k :: rest ∧
    c.isUpdate = true ∧ (∀ e ∈ rest, e.target? ≠ some k) ∧ ∀ e ∈ rest.head?, e.isSetup = true := by
  have hfailed : ((history storingEngine.recorded updateFault [.solve, .solve, .solve]).any fun e =>
      e.failure?.any fun t => t.2.1.isUpdate) = true := by
    decide +kernel
  obtain ⟨e, hmem, he⟩ := List.any_eq_true.mp hfailed
  obtain ⟨⟨k, c, f⟩, hfailure, hc⟩ := (Option.any_eq_true _ _).mp he
  obtain ⟨before, after, h⟩ := List.append_of_mem hmem
  rw [SessionEvent.eq_called_of_failure? hfailure] at h
  obtain ⟨-, hall⟩ := failed_calls storingEngine.recorded updateFault [.solve, .solve, .solve]
  obtain ⟨rest, rfl, hgone, hsetup⟩ := (hall before k c f after h).1 hc
  exact ⟨before, k, c, f, rest, h, hc, hgone, hsetup⟩

/-- Minimise `0.1 x - 0.5 x²` between `-1` and `1`. The first step size makes up for the
curvature, and the one that it is adapted to after an iteration does not. -/
def adapting : List (ModelOp Float) :=
  [.addVariable,
    .setObjective ((QuadExpr.empty.addProduct ⟨0⟩ ⟨0⟩ (-0.5)).addLinExpr
      (LinExpr.empty.addTerm ⟨0⟩ 0.1)),
    .addConstraint (.between (.ofVariable ⟨0⟩) (-1) 1),
    .setSettings { Settings.default with
      rho := 1.5, adaptiveRhoInterval := 1, adaptiveRhoTolerance := 1, scaling := 0
      epsAbs := 0.05, epsRel := 0.05 }]

theorem adapting_run :
    (match
        (observedRun (admmEngine (.still Float)) ()
          (adapting ++ [ModelOp.solve, ModelOp.solve])).shared.events,
        (observedRun (admmEngine (.still Float)) ()
          (adapting ++ [ModelOp.solve, ModelOp.solve])).status with
      | [.created 0, .called 0 .solve (.error .nonConvex),
          .called 0 (.updateVectors _ _ _) (.ok ()), .called 0 .solve (.ok ())], .solved => true
      | _, _ => false) = true := by
  decide +kernel

/-- A solve fails as its system cannot be factored for a new step size. The next one updates
the session and goes on with the factors that were refused, without a setup, and ends as
solved at a point that is no minimum. -/
theorem exists_reused_after_failure : ∃ before after : List (SessionEvent Float),
    history (admmEngine (.still Float)) () (adapting ++ [ModelOp.solve, ModelOp.solve])
      = before ++ SessionEvent.called 0 .solve (.error .nonConvex) :: after ∧
    SessionEvent.called 0 .solve (.ok ()) ∈ after ∧ (∀ e ∈ after, e.isSetup = false) ∧
    (run (admmEngine (.still Float)) () (adapting ++ [ModelOp.solve, ModelOp.solve])).status
      = .solved := by
  have hrun := adapting_run
  rw [run_observed]
  unfold history
  generalize observedRun (admmEngine (.still Float)) ()
    (adapting ++ [ModelOp.solve, ModelOp.solve]) = M at hrun
  split at hrun
  · rename_i q l u h hstatus
    exact ⟨[_], _, h, by simp, by simp [SessionEvent.isSetup], hstatus⟩
  · cases hrun

end Model
end QuadOpt
