/-
# The lives of sessions

Whatever is done with a model, and whatever its engine does, its sessions live one after the
other: a session is set up while there is none, every call and every end is one of the live
session, and the model is built as long as there is one. A release ends the live session,
and nothing reaches the engine from then on.

The histories in which sessions live one after the other are built event by event
(`Orderly`), each with the session that is live at its end. The engine keeps to them as it
is called by the model (`observed_orderly`); what they say is read off by induction.

Key definitions: `aliveSessions`, `LifeCycle`, `Orderly`, `Model.IsReleased`.
Key theorems: `Orderly.lifeCycle`, `Engine.observed_orderly`, `Model.sessions_lifeCycle`.
-/
import QuadOpt.Engine.Recorder
import QuadOpt.Proofs.Model.Held
import QuadOpt.Proofs.Model.Observed

namespace QuadOpt

open ModelM

variable {α ε σ : Type}

/-- The sessions that were created and not dropped. -/
def aliveSessions (es : List (SessionEvent α)) : List Nat :=
  (createdSessions es).filter fun k => k ∉ droppedSessions es

/-- The event is that of a setup. -/
def SessionEvent.isSetup : SessionEvent α → Bool
  | created _ | refused _ => true
  | _ => false

/-- The session that is live after the event. -/
def SessionEvent.live? : SessionEvent α → Option Nat
  | created k | called k _ _ => some k
  | refused _ | dropped _ => none

/-- Sessions live one after the other. -/
structure LifeCycle (es : List (SessionEvent α)) : Prop where
  created_once : (createdSessions es).Nodup
  dropped_once : (droppedSessions es).Nodup
  dropped_created : droppedSessions es ⊆ createdSessions es
  /-- there is at most one live session at any time -/
  one_alive : ∀ before, before <+: es → (aliveSessions before).length ≤ 1
  /-- at a setup there is no live session -/
  setup_alone : ∀ before e, before ++ [e] <+: es → e.isSetup = true → aliveSessions before = []
  /-- what happens to a session happens to the live one -/
  target_alive : ∀ before e k, before ++ [e] <+: es → e.target? = some k →
    aliveSessions before = [k]

/-! ### Orderly histories -/

/-- The histories in which sessions live one after the other, with the session that is live
at the end. -/
inductive Orderly : List (SessionEvent α) → Option Nat → Prop where
  | nil : Orderly [] none
  | created {es : List (SessionEvent α)} : Orderly es none →
      Orderly (es ++ [.created (createdSessions es).length]) (some (createdSessions es).length)
  | refused {es : List (SessionEvent α)} (f : EngineError) : Orderly es none →
      Orderly (es ++ [.refused f]) none
  | called {es : List (SessionEvent α)} {k : Nat} (c : SessionCall α)
      (r : Except EngineError Unit) : Orderly es (some k) →
      Orderly (es ++ [.called k c r]) (some k)
  | dropped {es : List (SessionEvent α)} {k : Nat} : Orderly es (some k) →
      Orderly (es ++ [.dropped k]) none

namespace Orderly

variable {es : List (SessionEvent α)} {live : Option Nat}

/-- Sessions are numbered in the order in which they are created. -/
theorem createdSessions_eq (h : Orderly es live) :
    createdSessions es = List.range (createdSessions es).length := by
  induction h with
  | nil => rfl
  | created _ ih =>
    rw [createdSessions_concat]
    simp only [SessionEvent.created?, Option.toList_some, List.length_append,
      List.length_singleton, List.range_succ, ← ih]
  | refused _ _ ih | called _ _ _ ih | dropped _ ih =>
    rw [createdSessions_concat]
    simpa [SessionEvent.created?] using ih

/-- What is dropped was created, and once: the sessions that are dropped are those that were
created and are not live. -/
theorem dropped_perm (h : Orderly es live) :
    (droppedSessions es ++ live.toList).Perm (createdSessions es) := by
  induction h with
  | nil => exact .nil
  | created _ ih =>
    rw [createdSessions_concat, droppedSessions_concat]
    simpa [SessionEvent.created?, SessionEvent.dropped?] using ih.append_right _
  | refused _ _ ih | called _ _ _ ih | dropped _ ih =>
    rw [createdSessions_concat, droppedSessions_concat]
    simpa [SessionEvent.created?, SessionEvent.dropped?] using ih

theorem created_nodup (h : Orderly es live) : (createdSessions es).Nodup := by
  rw [h.createdSessions_eq]
  exact List.nodup_range

theorem dropped_nodup (h : Orderly es live) : (droppedSessions es ++ live.toList).Nodup :=
  h.dropped_perm.nodup_iff.mpr h.created_nodup

theorem aliveSessions_eq (h : Orderly es live) : aliveSessions es = live.toList := by
  have hperm : (aliveSessions es).Perm live.toList := by
    have hfilter := h.dropped_perm.symm.filter fun k => decide (k ∉ droppedSessions es)
    rw [List.filter_append] at hfilter
    have hdropped : (droppedSessions es).filter (fun k => decide (k ∉ droppedSessions es)) = [] :=
      List.filter_eq_nil_iff.mpr fun k hk => by simp [hk]
    have hlive : live.toList.filter (fun k => decide (k ∉ droppedSessions es)) = live.toList :=
      List.filter_eq_self.mpr fun k hk => by
        simpa using fun hd => List.disjoint_of_nodup_append h.dropped_nodup hd hk
    rwa [hdropped, hlive, List.nil_append] at hfilter
  cases live with
  | none => exact hperm.eq_nil
  | some k => exact List.perm_singleton.mp hperm

/-- The last event of an orderly history says which session is live after it, and which one
was before. -/
theorem of_concat {e : SessionEvent α} (h : Orderly (es ++ [e]) live) : live = e.live? ∧
    ∃ before, Orderly es before ∧ (e.isSetup = true → before = none) ∧
      ∀ k, e.target? = some k → before = some k := by
  generalize hes : es ++ [e] = fs at h
  cases h with
  | nil => simp at hes
  | created h | refused _ h | called _ _ h | dropped h =>
    obtain ⟨rfl, rfl⟩ := List.append_singleton_inj.mp hes
    refine ⟨rfl, _, h, ?_, ?_⟩ <;> simp [SessionEvent.isSetup, SessionEvent.target?]

/-- A part of an orderly history from its start is orderly. -/
theorem of_prefix (h : Orderly es live) {before : List (SessionEvent α)} (hb : before <+: es) :
    ∃ live', Orderly before live' := by
  induction es using List.reverseRecOn generalizing live with
  | nil =>
    rw [List.prefix_nil.mp hb]
    exact ⟨_, h⟩
  | append_singleton es e ih =>
    rcases List.prefix_concat_iff.mp hb with rfl | hb
    · exact ⟨_, h⟩
    · obtain ⟨-, live', h', -⟩ := h.of_concat
      exact ih h' hb

/-- An event after another one is a setup if no session is live in between, and is one of the
live session otherwise. -/
theorem next (h : Orderly es live) {before after : List (SessionEvent α)} {e e' : SessionEvent α}
    (hes : es = before ++ e :: e' :: after) :
    (e.live? = none ∧ e'.isSetup = true) ∨ ∃ k, e.live? = some k ∧ e'.target? = some k := by
  have hpair : (before ++ [e]) ++ [e'] <+: es := ⟨after, by simp [hes]⟩
  obtain ⟨_, hpair⟩ := h.of_prefix hpair
  obtain ⟨-, between, hfirst, hsetup, htarget⟩ := hpair.of_concat
  obtain ⟨hlive, -⟩ := hfirst.of_concat
  cases e' with
  | created | refused => exact .inl ⟨hlive.symm.trans (hsetup rfl), rfl⟩
  | called | dropped => exact .inr ⟨_, hlive.symm.trans (htarget _ rfl), rfl⟩

/-- Nothing happens to a session after it was dropped. -/
theorem target_ne_of_dropped (h : Orderly es live) {before after : List (SessionEvent α)} {k : Nat}
    (hes : es = before ++ .dropped k :: after) : ∀ e ∈ after, e.target? ≠ some k := by
  intro e he htarget
  obtain ⟨between, rest, rfl⟩ := List.append_of_mem he
  have hprefix : (before ++ .dropped k :: between) ++ [e] <+: es := ⟨rest, by simp [hes]⟩
  obtain ⟨_, h'⟩ := h.of_prefix hprefix
  obtain ⟨-, _, hbefore, -, hlive⟩ := h'.of_concat
  have hnodup := hbefore.dropped_nodup
  rw [hlive k htarget] at hnodup
  have hdropped : k ∈ droppedSessions (before ++ .dropped k :: between) := by
    simp [droppedSessions, SessionEvent.dropped?]
  exact List.disjoint_of_nodup_append hnodup hdropped (by simp)

theorem lifeCycle (h : Orderly es live) : LifeCycle es where
  created_once := h.created_nodup
  dropped_once := (List.nodup_append.mp h.dropped_nodup).1
  dropped_created k hk := h.dropped_perm.subset (List.mem_append_left _ hk)
  one_alive before hb := by
    obtain ⟨live', h'⟩ := h.of_prefix hb
    rw [h'.aliveSessions_eq]
    cases live' <;> simp
  setup_alone before e hb he := by
    obtain ⟨_, h'⟩ := h.of_prefix hb
    obtain ⟨-, live', hbefore, hsetup, -⟩ := h'.of_concat
    rw [hbefore.aliveSessions_eq, hsetup he]
    rfl
  target_alive before e k hb he := by
    obtain ⟨_, h'⟩ := h.of_prefix hb
    obtain ⟨-, live', hbefore, -, htarget⟩ := h'.of_concat
    rw [hbefore.aliveSessions_eq, htarget k he]
    rfl

end Orderly

/-! ### Models keep to it -/

/-- Whatever the engine does, it is called such that its sessions live one after the other. -/
theorem Engine.observed_orderly (E : Engine α ε σ) : E.observed.Protocol
    (fun S o => Orderly o.events (S.map Prod.fst)) fun _ S o => Orderly o.events (S.map Prod.fst)
    where
  drop h := h.dropped
  setup h hsetup := by
    obtain ⟨hS, ho⟩ := observed_setup_ok hsetup
    rw [ho, Option.map_some, hS]
    exact h.created
  setup_error {D s o f o'} h hsetup := by
    rw [observed_setup_error hsetup]
    exact h.refused f
  call {c S o T o'} h hcall := by
    obtain ⟨hT, ho⟩ := observed_call hcall
    rw [ho, Option.map_some, hT]
    exact h.called c _
  update_error {c S o f T o'} h _ hcall := by
    obtain ⟨hT, ho⟩ := observed_call hcall
    have hcalled : Orderly o'.events (some T.1) := by
      rw [ho, hT]
      exact h.called c _
    exact hcalled.dropped
  call_error {c S o f T o'} h _ hcall := by
    obtain ⟨hT, ho⟩ := observed_call hcall
    rw [ho, Option.map_some, hT]
    exact h.called c _
  other_error h _ := h

/-- A setup that fails leaves no session. -/
theorem Engine.setup_error_alone (E : Engine α ε σ) :
    E.Protocol (fun _ _ => True) fun e S _ => ∀ f, e = .setup f → S = none where
  drop _ := trivial
  setup _ _ := trivial
  setup_error _ _ _ _ := rfl
  call _ _ := trivial
  update_error _ _ _ _ _ := rfl
  call_error {c S e f T e'} _ _ _ g h := by cases c <;> cases h
  other_error _ hf g h := by
    subst h
    cases hf

namespace Model

/-- There is no session, no solution and no start point, nor will there be. -/
structure IsReleased (M : Model α ε σ) : Prop where
  state : M.state = .released
  workspace : M.workspace = none
  solution : M.solution = none
  startPoint : M.startPoint = none

variable [Scalar α] [ScalarText α] (E : Engine α ε σ)

/-- A setup that failed leaves a model that can be set up again. -/
theorem solve_setup_error {M N : Model α ε σ} {e : EngineError} (hM : M.InStep)
    (h : on (solve E) M = (.error (.setup e), N)) :
    N.workspace = none ∧ N.state = .uninitialized := by
  have hnone : N.workspace = none :=
    Option.map_eq_none_iff.mp ((E.setup_error_alone.solve).of_error trivial h e rfl)
  have hlive : M.state ≠ .released := by
    intro hreleased
    rw [solve_of_released E hreleased] at h
    cases h
  have hinStep : N.InStep := by
    have hafter := ((keeps_inStep E).solve fun _ _ => id).after hM
    rwa [h] at hafter
  have hunreleased : N.state ≠ .released := by
    have hafter := ((keeps_unreleased E).solve fun _ _ => id).after hlive
    rwa [h] at hafter
  refine ⟨hnone, ?_⟩
  cases hstate : N.state with
  | uninitialized => rfl
  | built =>
    obtain ⟨w, hw⟩ := hinStep.mp hstate
    cases hnone.symm.trans hw
  | released => exact absurd hstate hunreleased

/-- No operation changes that a model is released, nor does it reach the engine. -/
theorem IsReleased.perform {M : Model α ε σ} (h : M.IsReleased) (op : ModelOp α) :
    (M.perform E op).IsReleased ∧ (M.perform E op).shared = M.shared := by
  cases op with
  | setBounds i lower upper =>
    simp only [Model.perform, setBounds]
    cases M.constraint i <;> exact ⟨⟨h.state, h.workspace, h.solution, h.startPoint⟩, rfl⟩
  | setStartPoint p =>
    have hrefused : M.setStartPoint p = .error .released := by
      unfold setStartPoint
      rw [requireLive_of_released h.state]
      rfl
    simp only [Model.perform, hrefused]
    exact ⟨h, rfl⟩
  | solve =>
    simp only [Model.perform, solve_of_released E h.state]
    exact ⟨h, trivial⟩
  | release =>
    simp only [Model.perform, release, dropSession_of_none E h.workspace]
    exact ⟨⟨rfl, h.workspace, rfl, rfl⟩, trivial⟩
  | _ => exact ⟨⟨h.state, h.workspace, h.solution, h.startPoint⟩, rfl⟩

theorem IsReleased.run {shared : ε} (before later : List (ModelOp α)) :
    (Model.run E shared (before ++ .release :: later)).IsReleased ∧
      (Model.run E shared (before ++ .release :: later)).shared
        = (Model.run E shared (before ++ [.release])).shared := by
  induction later using List.reverseRecOn with
  | nil =>
    rw [run_concat]
    exact ⟨⟨rfl, workspace_release E _, rfl, rfl⟩, rfl⟩
  | append_singleton later op ih =>
    rw [← List.cons_append, ← List.append_assoc, run_concat]
    obtain ⟨hreleased, hshared⟩ := ih
    obtain ⟨h, hop⟩ := hreleased.perform E op
    exact ⟨h, hop.trans hshared⟩

variable (shared : ε) (ops : List (ModelOp α))

theorem history_orderly :
    Orderly (history E shared ops) ((observedRun E shared ops).session?.map Prod.fst) :=
  E.observed_orderly.run Orderly.nil ops

/-- The session of a model is the one that is live. -/
theorem workspace_run : (∃ w, (run E shared ops).workspace = some w)
    ↔ ∃ k, aliveSessions (history E shared ops) = [k] := by
  rw [run_observed, (history_orderly E shared ops).aliveSessions_eq]
  unfold session? Model.map
  cases (observedRun E shared ops).workspace <;> simp

/-- For every engine and all operations on a model, failing ones included, sessions live one
after the other, and the state of the model is built exactly as long as the model owns one. A
setup that fails leaves none. After a release every session that was created has been dropped;
the model stays released, without a session, a solution or a start point, and does not reach
the engine again. -/
theorem sessions_lifeCycle :
    LifeCycle (history E shared ops) ∧
    ((run E shared ops).state = .built ↔ ∃ w, (run E shared ops).workspace = some w) ∧
    ((run E shared ops).state = .built ↔ ∃ k, aliveSessions (history E shared ops) = [k]) ∧
    (∀ e N, on (solve E) (run E shared ops) = (.error (.setup e), N) →
      N.workspace = none ∧ N.state = .uninitialized) ∧
    (droppedSessions (history E shared (ops ++ [.release]))).Perm
      (createdSessions (history E shared (ops ++ [.release]))) ∧
    ∀ later, (run E shared (ops ++ .release :: later)).IsReleased ∧
      (run E shared (ops ++ .release :: later)).shared
        = (run E shared (ops ++ [.release])).shared ∧
      history E shared (ops ++ .release :: later) = history E shared (ops ++ [.release]) := by
  have hinStep : (run E shared ops).InStep := inStep_run E shared ops
  refine ⟨(history_orderly E shared ops).lifeCycle, hinStep,
    Iff.trans hinStep (workspace_run E shared ops), fun e N h => solve_setup_error E hinStep h, ?_,
    fun later => ?_⟩
  · have hall := (history_orderly E shared (ops ++ [.release])).dropped_perm
    have hnone : (observedRun E shared (ops ++ [.release])).session? = none := by
      unfold observedRun session?
      rw [(IsReleased.run E.observed ops []).1.workspace]
      rfl
    rwa [hnone, Option.map_none, Option.toList_none, List.append_nil] at hall
  · exact ⟨(IsReleased.run E ops later).1, (IsReleased.run E ops later).2,
      congrArg Observed.events (IsReleased.run E.observed ops later).2⟩

/-- What the sessions share of an engine whose next setup fails. -/
def setupFault : Recorder Unit := Recorder.plan ⟨(), [], none⟩ .setup .nonConvex

/-- A setup that fails, one that succeeds, and a release. -/
theorem sessions_lifeCycle_setupFault :
    (∃ N, on (solve storingEngine.recorded) (run storingEngine.recorded setupFault [])
        = (.error (.setup .nonConvex), N) ∧ N.workspace = none ∧ N.state = .uninitialized) ∧
    LifeCycle (history storingEngine.recorded setupFault [.solve, .solve, .release]) ∧
    createdSessions (history storingEngine.recorded setupFault [.solve, .solve, .release])
      = [0] ∧
    droppedSessions (history storingEngine.recorded setupFault [.solve, .solve, .release])
      = [0] := by
  have hfails : (on (solve storingEngine.recorded) (run storingEngine.recorded setupFault [])).1
      = .error (.setup .nonConvex) := by
    decide +kernel
  obtain ⟨-, -, -, halone, -⟩ := sessions_lifeCycle storingEngine.recorded setupFault []
  obtain ⟨hlives, -⟩ :=
    sessions_lifeCycle storingEngine.recorded setupFault [.solve, .solve, .release]
  exact ⟨⟨_, Prod.ext hfails rfl, halone _ _ (Prod.ext hfails rfl)⟩, hlives, by decide +kernel,
    by decide +kernel⟩

end Model
end QuadOpt
