/-
# Solves that fail

A solve discards the outcome of the one before as its first act, and stores its own when
the session has come to an end. In between no phase touches what is stored. So a solve
that fails leaves nothing to ask for, and neither status nor values come back until
another one ends, with one exception: the report of an outcome is written after the
outcome was stored, and if that fails, the solve does too, with its outcome in place.

Key definitions: `Model.Unanswered`, `Model.Live`, `Model.answer`, `Model.Unreported`,
`Model.FailsEarly`, `Model.SolvesFailEarly`.
Key theorems: `Model.answer_leads`, `Model.solve_error_cases`, `Model.run_settled`,
`Model.failed_solves`.
-/
import QuadOpt.Proofs.Model.LifeCycle

namespace QuadOpt.Model

open ModelM

variable {α ε σ : Type}

/-! ### Nothing to ask for -/

/-- The error of a question about an outcome that there is not. -/
def refusal (M : Model α ε σ) : ModelError :=
  match M.state with
  | .released => .released
  | _ => .noSolution

/-- The model has no outcome, and every question about one is refused. -/
structure Unanswered (M : Model α ε σ) : Prop where
  solution : M.solution = none
  status : M.status = .unsolved
  value : ∀ v, M.value v = .error M.refusal
  values : M.values = .error M.refusal
  dualValue : ∀ i, M.dualValue i = .error M.refusal
  objectiveValue : M.objectiveValue = .error M.refusal

theorem unanswered_iff {M : Model α ε σ} : M.Unanswered ↔ M.solution = none := by
  constructor
  · exact Unanswered.solution
  · intro h
    have hpoint : M.solutionWithPoint = .error M.refusal := by
      unfold solutionWithPoint requireLive refusal
      rw [h]
      cases M.state <;> rfl
    constructor
    · exact h
    · simp only [status, h]
    · intro v
      simp only [value, hpoint]
      rfl
    · simp only [values, hpoint]
      rfl
    · intro i
      simp only [dualValue, hpoint]
      rfl
    · simp only [objectiveValue, hpoint]
      rfl

/-! ### The phases of a solve -/

/-- The model was not released, and the stored outcome is `s`. -/
structure Live (s : Option (ModelSolution α)) (M : Model α ε σ) : Prop where
  state : M.state ≠ .released
  solution : M.solution = s

section Phases

variable (E : Engine α ε σ) {s : Option (ModelSolution α)}

theorem keeps_live : E.KeepsThroughout (Live s) where
  output _ h := ⟨h.state, h.solution⟩
  drop h _ := ⟨nofun, h.solution⟩
  reset h _ := ⟨nofun, h.solution⟩
  setup h _ := ⟨nofun, h.solution⟩
  setup_error h _ := ⟨h.state, h.solution⟩
  update h _ _ _ := ⟨h.state, h.solution⟩
  copies _ _ h _ := ⟨h.state, h.solution⟩
  call h _ _ := ⟨h.state, h.solution⟩
  startPoint h := ⟨h.state, h.solution⟩

variable [Scalar α]

/-- The end of a session is stored; if there is no session, nothing is. -/
theorem recordOutcome_live (F : StandardForm α) (path : SolvePath) :
    Ensures (Live none) (recordOutcome E F path) (fun r => Live (some r)) (Live none) := by
  refine Ensures.get_bind fun M hM => ?_
  cases M.session? with
  | none => exact Ensures.throw fun N hN => hN ▸ hM
  | some S =>
    refine Ensures.bind (R := fun _ => Live (some _)) (Ensures.modify ?_) fun _ =>
      Ensures.pure fun _ => id
    rintro _ rfl
    exact ⟨hM.state, rfl⟩

variable [ScalarText α]

/-- The part of a solve that ends with its outcome. -/
def answer : ModelM α ε σ (ModelSolution α) := do
  let (F, path) ← prepare E
  callSession E .solve .solve
  recordOutcome E F path

/-- What is left of a solve is to report its outcome. -/
theorem on_solve (M : Model α ε σ) : on (solve E) M =
    match on (answer E) M with
    | (.error e, N) => (.error e, N)
    | (.ok r, N) =>
      match on (report (outcomeReport r)) N with
      | (.error e, N) => (.error e, N)
      | (.ok (), N) => (.ok r.status, N) := by
  unfold solve answer runSession
  simp only [on_bind]
  rcases on (prepare E) M with ⟨e | ⟨F, path⟩, N⟩
  · rfl
  · simp only
    rcases on (callSession E ModelError.solve SessionCall.solve) N with ⟨e | ⟨⟩, N⟩
    · rfl
    · simp only
      rcases on (recordOutcome E F path) N with ⟨e | r, N⟩
      · rfl
      · simp only
        rcases on (report (outcomeReport r)) N with ⟨e | ⟨⟩, N⟩ <;> rfl

/-- A solve of a model that was not released discards the former outcome, and stores its own
if it gets that far. -/
theorem answer_live :
    Ensures (fun M => M.state ≠ .released) (answer E) (fun r => Live (some r)) (Live none) := by
  have hprepare : Ensures (fun M => M.state ≠ .released) (prepare E) (fun _ => Live none)
      (Live none) := by
    refine Ensures.get_bind fun M hM => ?_
    rw [requireLive_of_unreleased hM]
    refine Ensures.bind (R := fun _ N => N = M) (fun N hN => hN) fun _ =>
      Ensures.bind (R := fun _ => Live none) (Ensures.modify ?_) fun _ =>
        Ensures.get_bind fun N hN => ?_
    · rintro _ rfl
      exact ⟨hM, rfl⟩
    · refine Ensures.bind (R := fun _ => Live none) (Ensures.lift ?_ ?_) fun F =>
        ((keeps_live E).report _).bind fun _ => ((keeps_live E).bring F _).bind fun _ =>
          ((keeps_live E).passStartPoint F).bind fun _ => Ensures.pure fun _ => id
      · rintro _ _ rfl -
        exact hN
      · rintro _ rfl
        exact hN
  exact hprepare.bind fun b => ((keeps_live E).callSession _ _).bind fun _ =>
    recordOutcome_live E b.1 b.2

theorem answer_of_released {M : Model α ε σ} (h : M.state = .released) :
    on (answer E) M = (.error .released, M) := by
  unfold answer
  simp only [on_bind, prepare_of_released E h]

/-! ### Solves that fail -/

omit [Scalar α] [ScalarText α] in
/-- A report is written as far as the output takes it. -/
theorem on_report (lines : List String) (M : Model α ε σ) : on (report lines) M =
    if M.settings.verbose then
      ((M.output.writeLines lines).1.mapError .output,
        { M with output := (M.output.writeLines lines).2 })
    else (.ok (), M) := by
  unfold report
  rw [on_bind, on_get]
  simp only
  split
  · rcases M.output.writeLines lines with ⟨_ | _, o⟩ <;> rfl
  · rfl

/-- A solve gets to the outcome `r`, but the output refuses its report. -/
def Unreported (M : Model α ε σ) (r : ModelSolution α) (f : OutputError) : Prop :=
  ∃ N, on (answer E) M = (.ok r, N) ∧ N.settings.verbose = true ∧
    (N.output.writeLines (outcomeReport r)).1 = .error f

/-- A solve fails, and not for the report of its outcome. -/
def FailsEarly (M : Model α ε σ) : Prop :=
  (∃ e N, on (solve E) M = (.error e, N)) ∧ ∀ r f, ¬Unreported E M r f

/-- What a solve that fails leaves behind: no outcome, or the one that it could not report. -/
theorem solve_error_cases {M N : Model α ε σ} {e : ModelError}
    (hreleased : M.state = .released → M.solution = none)
    (h : on (solve E) M = (.error e, N)) :
    (N.solution = none ∧ ∀ r f, ¬Unreported E M r f) ∨
    ∃ r f, Unreported E M r f ∧ e = .output f ∧ N.solution = some r := by
  by_cases hstate : M.state = .released
  · have hfails := solve_of_released E hstate
    rw [h] at hfails
    cases hfails
    refine .inl ⟨hreleased hstate, fun r f ⟨L, hanswer, _⟩ => ?_⟩
    rw [answer_of_released E hstate] at hanswer
    cases hanswer
  · have hlive := answer_live E M hstate
    rw [on_solve] at h
    rcases hanswer : on (answer E) M with ⟨e' | r, L⟩
    · rw [hanswer] at h hlive
      cases h
      refine .inl ⟨hlive.solution, fun r f ⟨L, hother, _⟩ => ?_⟩
      rw [hanswer] at hother
      cases hother
    · rw [hanswer] at h hlive
      simp only [on_report] at h
      by_cases hverbose : L.settings.verbose = true
      · rw [if_pos hverbose] at h
        cases hwrite : (L.output.writeLines (outcomeReport r)).1 with
        | ok _ =>
          rw [hwrite] at h
          cases h
        | error f =>
          rw [hwrite] at h
          cases h
          exact .inr ⟨r, f, ⟨L, hanswer, hverbose, hwrite⟩, rfl, hlive.solution⟩
      · rw [if_neg hverbose] at h
        cases h

/-- All solves among the operations fail, and not for the report of an outcome. -/
def SolvesFailEarly : Model α ε σ → List (ModelOp α) → Prop
  | _, [] => True
  | M, op :: ops => (op = .solve → FailsEarly E M) ∧ SolvesFailEarly (M.perform E op) ops

/-! ### Runs -/

/-- Only a solve and a release touch the stored outcome. -/
theorem perform_solution {M : Model α ε σ} {op : ModelOp α} (hsolve : op ≠ .solve)
    (hrelease : op ≠ .release) : (M.perform E op).solution = M.solution := by
  cases op with
  | solve => exact absurd rfl hsolve
  | release => exact absurd rfl hrelease
  | setBounds i lower upper =>
    simp only [perform, setBounds]
    cases M.constraint i <;> rfl
  | setStartPoint p =>
    simp only [perform, setStartPoint]
    cases M.requireLive with
    | error e => rfl
    | ok _ => cases checkStartPoint M.varCount M.constraints.size p <;> rfl
  | _ => rfl

/-- A model that was released has no outcome. -/
theorem run_settled (shared : ε) (ops : List (ModelOp α)) :
    (run E shared ops).state = .released → (run E shared ops).solution = none := by
  induction ops using List.reverseRecOn with
  | nil => exact fun _ => rfl
  | append_singleton ops op ih =>
    rw [run_concat]
    by_cases hsolve : op = .solve
    · subst hsolve
      intro hstate
      by_cases hbefore : (run E shared ops).state = .released
      · simp only [perform, solve_of_released E hbefore]
        exact ih hbefore
      · exact absurd hstate (((keeps_unreleased E).solve fun _ _ => id).after hbefore)
    · by_cases hrelease : op = .release
      · subst hrelease
        exact fun _ => rfl
      · rw [(perform_session E hsolve hrelease).2.1, perform_solution E hsolve hrelease]
        exact ih

/-- Nothing but a solve that succeeds or cannot be reported brings an outcome. -/
theorem run_unanswered (shared : ε) {ops later : List (ModelOp α)}
    (hbefore : .solve ∈ later ∨ (run E shared ops).solution = none)
    (hlater : SolvesFailEarly E (run E shared ops) later) :
    (run E shared (ops ++ later)).solution = none := by
  induction later generalizing ops with
  | nil =>
    rw [List.append_nil]
    exact hbefore.resolve_left (List.not_mem_nil)
  | cons op later ih =>
    obtain ⟨hfirst, hrest⟩ := hlater
    rw [← run_concat] at hrest
    rw [List.append_cons]
    refine ih ?_ hrest
    rw [run_concat]
    by_cases hsolve : op = .solve
    · obtain ⟨⟨e, N, h⟩, hreported⟩ := hfirst hsolve
      subst hsolve
      refine .inr ?_
      simp only [perform, h]
      rcases solve_error_cases E (run_settled E shared ops) h with ⟨hnone, -⟩ | ⟨r, f, hr, -⟩
      · exact hnone
      · exact absurd hr (hreported r f)
    · refine hbefore.imp (fun hmem => ?_) fun hnone => ?_
      · exact (List.mem_cons.mp hmem).resolve_left (Ne.symm hsolve)
      · by_cases hrelease : op = .release
        · subst hrelease
          rfl
        · rw [perform_solution E hsolve hrelease]
          exact hnone

/-- For every engine, every output and all operations: a solve that fails leaves a model
without an outcome, of which nothing can be asked, unless it was the report of its outcome
that failed; then that outcome stays in place. The model stays without one as long as all
solves that follow fail too, and for another reason than their last report. -/
theorem failed_solves (shared : ε) (ops : List (ModelOp α)) :
    (∀ e N, on (solve E) (run E shared ops) = (.error e, N) →
      (N.Unanswered ↔ ∀ r f, ¬Unreported E (run E shared ops) r f) ∧
      ∀ r f, Unreported E (run E shared ops) r f → e = .output f ∧ N.solution = some r) ∧
    ∀ later, SolvesFailEarly E (run E shared ops) (.solve :: later) →
      (run E shared (ops ++ .solve :: later)).Unanswered := by
  refine ⟨fun e N h => ?_, fun later hlater =>
    unanswered_iff.mpr (run_unanswered E shared (.inl List.mem_cons_self) hlater)⟩
  rw [unanswered_iff]
  rcases solve_error_cases E (run_settled E shared ops) h with ⟨hnone, hno⟩ | ⟨r, f, hr, he, hsome⟩
  · exact ⟨iff_of_true hnone hno, fun r f hr => absurd hr (hno r f)⟩
  · refine ⟨iff_of_false (by rw [hsome]; exact nofun) fun hno => hno r f hr, fun r' f' hr' => ?_⟩
    -- the outcome and the reason are determined by the model
    obtain ⟨L, hL, -, hf⟩ := hr
    obtain ⟨L', hL', -, hf'⟩ := hr'
    rw [hL] at hL'
    cases hL'
    rw [hf] at hf'
    cases hf'
    exact ⟨he, hsome⟩

end Phases

/-- A model that was solved, and is to report its next solve to a stream that takes the given
number of lines. -/
def narrowed (lines : Nat) : List (ModelOp ℚ) :=
  [.addVariable, .solve, .setSettings { Settings.default with verbose := true },
    .printTo (.stream (some lines))]

/-- A stream closes in the report before the next solve, which leaves no outcome, nor does the
one after it. -/
theorem failed_solves_narrowed :
    (run storingEngine () (narrowed 3)).status = .solved ∧
    (∃ N, on (solve storingEngine) (run storingEngine () (narrowed 3))
        = (.error (.output .streamClosed), N) ∧ N.Unanswered) ∧
    (run storingEngine () (narrowed 3 ++ [.solve, .addVariable, .solve])).Unanswered := by
  have hsolved : (run storingEngine () (narrowed 3)).status = .solved := by decide +kernel
  have hfails : ∀ before ∈ [[], [ModelOp.solve, .addVariable]],
      (on (solve storingEngine) (run storingEngine () (narrowed 3 ++ before))).1
        = .error (.output .streamClosed) ∧
      (on (solve storingEngine) (run storingEngine () (narrowed 3 ++ before))).2.solution
        = none := by
    decide +kernel
  have hearly : ∀ before ∈ [[], [ModelOp.solve, .addVariable]],
      FailsEarly storingEngine (run storingEngine () (narrowed 3 ++ before)) := by
    intro before hb
    obtain ⟨herror, hnone⟩ := hfails before hb
    rcases h : on (solve storingEngine) (run storingEngine () (narrowed 3 ++ before)) with ⟨r, N⟩
    rw [h] at herror hnone
    subst herror
    exact ⟨⟨_, _, h⟩, ((failed_solves storingEngine () (narrowed 3 ++ before)).1 _ _ h).1.mp
      (unanswered_iff.mpr hnone)⟩
  obtain ⟨herror, hnone⟩ := hfails [] List.mem_cons_self
  refine ⟨hsolved, ⟨_, Prod.ext herror rfl, unanswered_iff.mpr hnone⟩, ?_⟩
  refine (failed_solves storingEngine () (narrowed 3)).2 [.addVariable, .solve]
    ⟨fun _ => hearly [] (by simp), nofun, fun _ => ?_, trivial⟩
  exact hearly [.solve, .addVariable] (by simp)

/-- A stream closes at the first line after a solve. That solve fails, and its outcome can be
asked for. -/
theorem exists_unreported_answer : ∃ N,
    on (solve storingEngine) (run storingEngine () (narrowed 16))
      = (.error (.output .streamClosed), N) ∧
    N.solution.isSome = true ∧ N.status = .solved ∧ N.objectiveValue = .ok 0 := by
  have hrun : (on (solve storingEngine) (run storingEngine () (narrowed 16))).1
        = .error (.output .streamClosed) ∧
      (on (solve storingEngine) (run storingEngine () (narrowed 16))).2.solution.isSome = true ∧
      (on (solve storingEngine) (run storingEngine () (narrowed 16))).2.status = .solved ∧
      (on (solve storingEngine) (run storingEngine () (narrowed 16))).2.objectiveValue = .ok 0 := by
    decide +kernel
  exact ⟨_, Prod.ext hrun.1 rfl, hrun.2⟩

end QuadOpt.Model
