/-
# Where a status comes from

A solve ends with the verdict on a session whose residuals were just computed, or
with the limit that was reached. Polishing moves the iterate but measures it anew,
so in any arithmetic the residuals that a solve leaves behind are those of the
iterate that it publishes, and the certificates are those of the verdict.

Key definitions: `Session.Judged`, `Session.Closed`.
Key theorems: `Session.iterate_closed`, `Session.solve_judged`,
`Session.solve_measured`, `Session.solve_published`.
-/
import QuadOpt.Proofs.Admm.Course

namespace QuadOpt.Session

variable {α : Type} [Scalar α] {n m : Nat} {S T : Session α n m} {env : Environment α}
  {settings : Settings α}

/-- The status is the verdict on a session with the data of `T`, and what `T` holds
for certificates are those that came with it. -/
def Judged (settings : Settings α) (status : SolverStatus) (T : Session α n m) : Prop :=
  ∃ (U : Session α n m) (approximate : Bool), U.data = T.data ∧
    (U.verdict settings approximate).1 = some status ∧
    (U.verdict settings approximate).2.solution.primInfCert = T.solution.primInfCert ∧
    (U.verdict settings approximate).2.solution.dualInfCert = T.solution.dualInfCert

theorem Judged.congr {status : SolverStatus} (h : S.Judged settings status)
    (hdata : T.data = S.data) (hprim : T.solution.primInfCert = S.solution.primInfCert)
    (hdual : T.solution.dualInfCert = S.solution.dualInfCert) : T.Judged settings status := by
  obtain ⟨U, approximate, hU, hstatus, hUprim, hUdual⟩ := h
  exact ⟨U, approximate, hU.trans hdata.symm, hstatus, hUprim.trans hprim.symm,
    hUdual.trans hdual.symm⟩

/-! ### Verdicts -/

/-- A verdict records a certificate, and leaves the rest as it was. -/
theorem verdict_judged {approximate : Bool} {status : SolverStatus}
    (h : (S.verdict settings approximate).1 = some status) :
    (S.verdict settings approximate).2.Judged settings status :=
  ⟨S, approximate, (verdict_sameCore S settings approximate).data.symm, h, rfl, rfl⟩

theorem verdict_measured (settings : Settings α) (approximate : Bool)
    (h : S.res = residuals S.data S.vars) :
    (S.verdict settings approximate).2.res
      = residuals (S.verdict settings approximate).2.data
          (S.verdict settings approximate).2.vars := by
  obtain ⟨solution, hsolution⟩ := verdict_keeps S settings approximate
  rw [hsolution]
  exact h

/-- An infeasible problem is one for which a certificate was found. -/
theorem Judged.primalCertificate {status : SolverStatus} (h : T.Judged settings status)
    (hstatus : status = .primalInfeasible ∨ status = .primalInfeasibleInaccurate) :
    ∃ (U : Session α n m) (v : Vec α m), U.data = T.data ∧
      U.primalCertificate? (settings.epsPrimInf *
        if status.isInaccurate then Limits.approximateFactor else 1) = some v ∧
      T.solution.primInfCert = v.toArray := by
  obtain ⟨U, approximate, hdata, hfound, hprim, -⟩ := h
  refine ⟨U, ?_⟩
  rcases verdict_cases U settings approximate with
    ⟨-, hU⟩ | ⟨-, v, hv, hU⟩ | ⟨-, v, -, hU⟩ | ⟨-, hU⟩
  all_goals rw [hU] at hfound hprim
  · cases approximate <;> rcases hstatus with rfl | rfl <;> cases hfound
  · refine ⟨v, hdata, ?_, hprim.symm⟩
    cases approximate <;> cases hfound <;> exact hv
  · cases approximate <;> rcases hstatus with rfl | rfl <;> cases hfound
  · cases hfound

theorem Judged.dualCertificate {status : SolverStatus} (h : T.Judged settings status)
    (hstatus : status = .dualInfeasible ∨ status = .dualInfeasibleInaccurate) :
    ∃ (U : Session α n m) (v : Vec α n), U.data = T.data ∧
      U.dualCertificate? (settings.epsDualInf *
        if status.isInaccurate then Limits.approximateFactor else 1) = some v ∧
      T.solution.dualInfCert = v.toArray := by
  obtain ⟨U, approximate, hdata, hfound, -, hdual⟩ := h
  refine ⟨U, ?_⟩
  rcases verdict_cases U settings approximate with
    ⟨-, hU⟩ | ⟨-, v, -, hU⟩ | ⟨-, v, hv, hU⟩ | ⟨-, hU⟩
  all_goals rw [hU] at hfound hdual
  · cases approximate <;> rcases hstatus with rfl | rfl <;> cases hfound
  · cases approximate <;> rcases hstatus with rfl | rfl <;> cases hfound
  · refine ⟨v, hdata, ?_, hdual.symm⟩
    cases approximate <;> cases hfound <;> exact hv
  · cases hfound

/-! ### Iterations -/

/-- What holds when iterations have come to an end, however they started. -/
structure Closed (settings : Settings α) (r : LoopEnd) (T : Session α n m) : Prop where
  found : ∀ status, r.found = some status → T.Judged settings status
  measured : r.current = true → T.res = residuals T.data T.vars
  /-- a status is found where the residuals were computed -/
  current : r.found.isSome = true → r.current = true
  limit : r.limit = .maxIterReached ∨ r.limit = .timeLimitReached

/-- The adoption of a step size leaves the iterate and its residuals as they are. -/
theorem retune_vars (S : Session α n m) (tolerance : α) :
    (S.retune tolerance).2.data = S.data ∧ (S.retune tolerance).2.vars = S.vars ∧
      (S.retune tolerance).2.res = S.res := by
  have hfactor := (S.adopt S.estimateRho).factorSystem_vars
  have hdata := (S.adopt S.estimateRho).factorSystem_sameCore.data
  unfold adopt at hfactor hdata
  unfold retune
  simp only
  split
  · split
    · rename_i T hT
      rw [hT] at hfactor hdata
      exact ⟨hdata, hfactor⟩
    · rename_i e T hT
      rw [hT] at hfactor hdata
      exact ⟨hdata, hfactor⟩
  · exact ⟨rfl, rfl, rfl⟩

theorem retune_measured (h : S.res = residuals S.data S.vars) (tolerance : α) :
    (S.retune tolerance).2.res
      = residuals (S.retune tolerance).2.data (S.retune tolerance).2.vars := by
  obtain ⟨hdata, hvars, hres⟩ := retune_vars S tolerance
  rw [hdata, hvars, hres]
  exact h

/-- What the rest of an iteration answers: residuals that are said to be current are
so, and a status comes with them and from a verdict. -/
theorem inspect_closed (settings : Settings α) (iter : Nat) (S : Session α n m)
    {found : Option SolverStatus} {current : Bool}
    (h : S.inspect settings iter = (.ok (found, current), T)) :
    Closed settings ⟨found, .maxIterReached, current⟩ T := by
  unfold inspect at h
  cases htests : isDue iter settings.checkTermination with
  | false =>
    simp only [htests, Bool.false_eq_true, if_false, Option.isSome_none] at h
    split at h
    · have hretuned := retune_measured (S := S.measure) rfl settings.adaptiveRhoTolerance
      split at h
      · rename_i U hU
        rw [hU] at hretuned
        cases h
        exact ⟨fun _ he => (by cases he), fun _ => hretuned, fun he => (by cases he), .inl rfl⟩
      · cases h
    · cases h
      exact ⟨fun _ he => (by cases he), fun he => (by cases he), fun he => (by cases he), .inl rfl⟩
  | true =>
    have hmeasured := verdict_measured (S := S.measure) settings false rfl
    have hjudged : ∀ status, (S.measure.verdict settings false).1 = some status →
        (S.measure.verdict settings false).2.Judged settings status :=
      fun _ => verdict_judged
    simp only [htests, if_true] at h
    generalize S.measure.verdict settings false = p at h hmeasured hjudged
    obtain ⟨answer, U⟩ := p
    cases answer with
    | some status =>
      simp only [Option.isSome_some, if_true] at h
      cases h
      exact ⟨fun status he => hjudged status he, fun _ => hmeasured, fun _ => rfl, .inl rfl⟩
    | none =>
      simp only [Option.isSome_none, Bool.false_eq_true, if_false] at h
      split at h
      · have hretuned := retune_measured hmeasured settings.adaptiveRhoTolerance
        split at h
        · rename_i V hV
          rw [hV] at hretuned
          cases h
          exact ⟨fun _ he => (by cases he), fun _ => hretuned, fun he => (by cases he), .inl rfl⟩
        · cases h
      · cases h
        exact ⟨fun _ he => (by cases he), fun _ => hmeasured, fun he => (by cases he), .inl rfl⟩

/-- However many iterations are taken, they end with a verdict or at a limit, and the
flag tells whether the residuals are those of the last iterate. -/
theorem iterate_closed {remaining iter : Nat} {current : Bool} {r : LoopEnd}
    (hcurrent : current = true → S.res = residuals S.data S.vars)
    (hiterate : iterate env settings remaining iter current S = (.ok r, T)) :
    Closed settings r T := by
  induction remaining generalizing iter current S with
  | zero =>
    cases hiterate
    exact ⟨fun _ he => (by cases he), hcurrent, fun he => (by cases he), .inl rfl⟩
  | succ remaining ih =>
    rw [iterate] at hiterate
    split at hiterate
    · cases hiterate
    · rename_i U _
      split at hiterate
      · cases hiterate
      · rename_i status current V hV
        cases hiterate
        exact inspect_closed settings iter U hV
      · rename_i current V hV
        have hclosed := inspect_closed settings iter U hV
        split at hiterate
        · cases hiterate
          exact ⟨fun _ he => (by cases he), hclosed.measured, fun he => (by cases he), .inr rfl⟩
        · exact ih hclosed.measured hiterate

/-! ### Solves -/

/-- The residuals at the end of a solve are current, and its status is a limit that
was reached or comes from a verdict. -/
theorem finish_closed {r : LoopEnd} (h : Closed settings r S) :
    (S.finish settings r).2.res
        = residuals (S.finish settings r).2.data (S.finish settings r).2.vars ∧
      ((S.finish settings r).2.Judged settings (S.finish settings r).1 ∨
        (S.finish settings r).1 = .maxIterReached ∨
        (S.finish settings r).1 = .timeLimitReached) := by
  unfold finish
  split
  · rename_i status hfound
    have hcurrent : r.current = true := h.current (by rw [hfound]; rfl)
    exact ⟨h.measured hcurrent, .inl (h.found status hfound)⟩
  · have hmeasured : (if r.current then S else S.measure).res
        = residuals (if r.current then S else S.measure).data
            (if r.current then S else S.measure).vars := by
      by_cases hcurrent : r.current = true
      · rw [if_pos hcurrent]
        exact h.measured hcurrent
      · rw [if_neg hcurrent]
        rfl
    simp only
    generalize (if r.current then S else S.measure) = U at hmeasured
    refine ⟨verdict_measured settings true hmeasured, ?_⟩
    cases hfound : (U.verdict settings true).1 with
    | some status => exact .inl (verdict_judged hfound)
    | none => exact .inr h.limit

/-- Polishing measures the point it moves to, and has no part in certificates nor
in the status. -/
theorem polish_keeps (env : Environment α) (h : S.res = residuals S.data S.vars) :
    (S.polish env).res = residuals (S.polish env).data (S.polish env).vars ∧
      (S.polish env).solution = S.solution := by
  unfold polish
  split
  · exact ⟨h, rfl⟩
  · simp only
    split
    · exact ⟨rfl, rfl⟩
    · exact ⟨h, rfl⟩

theorem publish_certificates (S : Session α n m) :
    S.publish.solution.primInfCert = S.solution.primInfCert ∧
      S.publish.solution.dualInfCert = S.solution.dualInfCert := by
  unfold publish
  simp only
  split <;> exact ⟨rfl, rfl⟩

theorem solve_data (env : Environment α) (S : Session α n m) : (S.solve env).2.data = S.data :=
  solve_preserves (p := fun U => U.data = S.data) (fun hsame hU => hsame.data.trans hU)
    (fun {U} hU => (factorSystem_sameCore (U.adopt U.estimateRho)).data.trans hU) env rfl

/-- What is published is the last session of a solve: it is measured, and judged
unless a limit was reached. -/
theorem solve_closed (hsolve : S.solve env = (.ok (), T)) :
    ∃ U : Session α n m, T = U.publish ∧ U.data = S.data ∧ U.res = residuals U.data U.vars ∧
      (U.Judged S.settings U.info.status ∨ U.info.status = .maxIterReached ∨
        U.info.status = .timeLimitReached) := by
  have hdata := solve_data env S
  rw [hsolve] at hdata
  obtain ⟨r, V, hV, -, hT⟩ := solve_eq_ok hsolve
  have hclosed : Closed S.settings r V := iterate_closed (fun he => by cases he) hV
  obtain ⟨hmeasured, hstatus⟩ := finish_closed hclosed
  have hconclude : (V.conclude env S.settings r).Judged S.settings
        (V.conclude env S.settings r).info.status ∨
      (V.conclude env S.settings r).info.status = .maxIterReached ∨
      (V.conclude env S.settings r).info.status = .timeLimitReached :=
    hstatus.imp_left fun hjudged => hjudged.congr rfl rfl rfl
  rw [hT, (publish_keeps _).2.2.1] at hdata
  refine ⟨_, hT, hdata, ?_⟩
  split
  · obtain ⟨hpolished, hsolution⟩ := polish_keeps (S := V.conclude env S.settings r) env hmeasured
    have hcore := polish_sameCore env (V.conclude env S.settings r)
    refine ⟨hpolished, ?_⟩
    rw [(polish_iter env _).2]
    exact hconclude.imp_left fun hjudged =>
      hjudged.congr hcore.data (by rw [hsolution]) (by rw [hsolution])
  · exact ⟨hmeasured, hconclude⟩

/-- A solve that ends with an infeasible problem has come to a verdict on its data, and
reports the certificate that came with it. -/
theorem solve_judged (hsolve : S.solve env = (.ok (), T))
    (hstatus : T.info.status.isInfeasible = true) :
    T.data = S.data ∧ T.Judged S.settings T.info.status := by
  obtain ⟨U, rfl, hdata, -, hjudged⟩ := solve_closed hsolve
  obtain ⟨-, -, hpublish, hkept⟩ := publish_keeps U
  obtain ⟨hprim, hdual⟩ := publish_certificates U
  rw [hkept] at hstatus ⊢
  refine ⟨hpublish.trans hdata, ?_⟩
  rcases hjudged with hjudged | hlimit | hlimit
  · exact hjudged.congr hpublish hprim hdual
  · rw [hlimit] at hstatus
    cases hstatus
  · rw [hlimit] at hstatus
    cases hstatus

/-- The residuals that a solve leaves behind are those of its last iterate. -/
theorem solve_measured (hsolve : S.solve env = (.ok (), T)) :
    T.res = residuals T.data T.vars := by
  obtain ⟨U, rfl, -, hmeasured, -⟩ := solve_closed hsolve
  obtain ⟨hvars, hres, hdata, -⟩ := publish_keeps U
  rw [hvars, hres, hdata]
  exact hmeasured

/-- What a solve reports of a problem that it did not find infeasible: its last
iterate, with the objective and the residuals there. -/
theorem solve_published (hsolve : S.solve env = (.ok (), T))
    (hstatus : T.info.status.isInfeasible = false) :
    T.solution.x = T.userPoint.1.toArray ∧ T.solution.y = T.userPoint.2.toArray ∧
      T.info.objVal = T.res.objective ∧ T.info.primRes = T.res.prim ∧
      T.info.dualRes = T.res.dual := by
  obtain ⟨U, rfl, -, -, -⟩ := solve_closed hsolve
  obtain ⟨hvars, hres, hdata, hkept⟩ := publish_keeps U
  rw [hkept] at hstatus
  obtain ⟨hx, hy⟩ := publish_solution hstatus
  have huser : U.publish.userPoint = U.userPoint := by
    unfold userPoint
    rw [hvars, hdata]
  rw [huser, hres]
  refine ⟨hx, hy, ?_⟩
  unfold publish
  simp [hstatus]

end QuadOpt.Session
