/-
# The user's data along a history

A session holds the data that it was set up with, overwritten in turn by the updates that
it admitted, with bounds of limited magnitude. It does not matter what else has happened
to it, or whether the system could be factored for the new data. A setup would accept
these data again, unless limited bounds are crossed, and leave them as they are. In exact
arithmetic the working data are the scaled data of the user all along.

Key definitions: `QpData.overwrite`, `QpData.Limited`, `Session.after`.
Key theorems: `QpData.Limited.overwrite`, `Session.call_userData`, `Session.after_userData`,
`Session.after_limited`, `Session.data_after`.
-/
import QuadOpt.Proofs.Admm.Admission

namespace QuadOpt

open Scalar

variable {α : Type} [Scalar α] {n m : Nat}

/-! ### Data -/

/-- The problem after a call, which changes it only if its data are acceptable. -/
def QpData.overwrite (D : QpData α) (c : SessionCall α) : QpData α :=
  if D.admits c then D.requested c else D

omit [Scalar α] in
theorem size_overwritten {old : Array α} {values : Option (Array α)} {indices : Option (Array Nat)}
    (h : valuesFit old.size values indices = true) :
    (overwritten old values indices).size = old.size := by
  cases values with
  | none => rfl
  | some v =>
    cases indices with
    | none => exact of_decide_eq_true h
    | some idx => exact Array.size_ofFn

namespace QpData

/-- The data could be set up, and a setup would leave them as they are. -/
structure Limited (D : QpData α) : Prop extends D.Numeric where
  lower_eq : D.clamped.l = D.l
  upper_eq : D.clamped.u = D.u

variable [LawfulComparison α] {D : QpData α}

theorem Numeric.clamped (h : D.Numeric) : D.clamped.Limited where
  formatP := h.formatP
  formatA := h.formatA
  finiteP := h.finiteP
  finiteA := h.finiteA
  finiteq := h.finiteq
  lower := by
    have hl := h.lower
    rw [Array.any_eq_false'] at hl ⊢
    intro x hx
    obtain ⟨y, hy, rfl⟩ := Array.mem_map.mp hx
    rw [LawfulComparison.isNaN_maxNum (Bool.eq_false_iff.mpr (hl y hy))]
    exact Bool.false_ne_true
  upper := by
    have hu := h.upper
    rw [Array.any_eq_false'] at hu ⊢
    intro x hx
    obtain ⟨y, hy, rfl⟩ := Array.mem_map.mp hx
    rw [LawfulComparison.isNaN_minNum (Bool.eq_false_iff.mpr (hu y hy))]
    exact Bool.false_ne_true
  lower_eq := by
    unfold QpData.clamped
    simp only [Array.map_map, Function.comp_def, LawfulComparison.maxNum_maxNum]
  upper_eq := by
    unfold QpData.clamped
    simp only [Array.map_map, Function.comp_def, LawfulComparison.minNum_minNum]

theorem Limited.overwrite (h : D.Limited) (c : SessionCall α) : (D.overwrite c).Limited := by
  unfold QpData.overwrite
  split
  · rename_i hadmits
    cases c with
    | solve => exact h
    | warmStart x y => exact h
    | updateSettings settings => exact h
    | updateVectors q l u =>
      simp only [QpData.admits, admitsVectors, Bool.and_eq_true] at hadmits
      obtain ⟨⟨⟨⟨-, hq⟩, hl⟩, hu⟩, -⟩ := hadmits
      refine Numeric.clamped { h.toNumeric with finiteq := ?_, lower := ?_, upper := ?_ }
      · cases q with
        | none => exact h.finiteq
        | some q => exact hq
      · cases l with
        | none => exact h.lower
        | some l => simpa using hl
      · cases u with
        | none => exact h.upper
        | some u => simpa using hu
    | updateMatrices Px PxIdx Ax AxIdx =>
      cases hnothing : Px.isNone && PxIdx.isNone && Ax.isNone && AxIdx.isNone with
      | true =>
        simp only [Bool.and_eq_true, Option.isNone_iff_eq_none] at hnothing
        obtain ⟨⟨⟨rfl, rfl⟩, rfl⟩, rfl⟩ := hnothing
        exact h
      | false =>
        simp only [QpData.admits, hnothing, Bool.false_or, admitsValues, Bool.and_eq_true]
          at hadmits
        obtain ⟨⟨hP, hA⟩, hfiniteP, hfiniteA⟩ := hadmits
        exact {
          formatP := (Csc.validate_withValues _ (size_overwritten hP)).trans h.formatP
          formatA := (Csc.validate_withValues _ (size_overwritten hA)).trans h.formatA
          finiteP := hfiniteP
          finiteA := hfiniteA
          finiteq := h.finiteq
          lower := h.lower
          upper := h.upper
          lower_eq := h.lower_eq
          upper_eq := h.upper_eq }
  · exact h

omit [LawfulComparison α] in
theorem Limited.ofInstance_user {I : Instance α n m} (h : I.toQpData.Limited) :
    (Problem.ofInstance I).user = I := by
  have hl : clampLower I.l = I.l := Vector.toArray_inj.mp h.lower_eq
  have hu : clampUpper I.u = I.u := Vector.toArray_inj.mp h.upper_eq
  show ({ I with l := clampLower I.l, u := clampUpper I.u } : Instance α n m) = I
  rw [hl, hu]

end QpData

namespace Session

/-- The session after some calls, whether they fail or not, each in its environment. -/
def after (S : Session α n m) (history : List (Environment α × SessionCall α)) :
    Session α n m :=
  history.foldl (fun S e => (S.call e.1 e.2).2) S

variable {S : Session α n m}

theorem Reachable.after (h : S.Reachable) (history : List (Environment α × SessionCall α)) :
    (S.after history).Reachable := by
  induction history generalizing S with
  | nil => exact h
  | cons e history ih => exact ih (h.call e.1 e.2)

/-! ### Calls -/

theorem call_userData (S : Session α n m) (env : Environment α) (c : SessionCall α) :
    (S.call env c).2.data.user.toQpData = S.data.user.toQpData.overwrite c := by
  have hanswer := S.call_answer env c
  unfold QpData.overwrite
  cases hcall : S.call env c with
  | mk r T =>
    rw [hcall] at hanswer
    cases hanswer with
    | admitted hc _ hdata => rw [if_pos hc.1, hdata]
    | refused hc _ _ =>
      cases hadmits : S.data.user.toQpData.admits c with
      | false => rfl
      | true =>
        -- Only a start point or settings are refused along with acceptable data, which are
        -- then those of the session.
        cases c with
        | warmStart x y => rfl
        | updateSettings settings => rfl
        | solve => exact absurd ⟨hadmits, trivial⟩ hc
        | updateVectors q l u => exact absurd ⟨hadmits, trivial⟩ hc
        | updateMatrices Px PxIdx Ax AxIdx => exact absurd ⟨hadmits, trivial⟩ hc

/-- New data are refused iff they are not acceptable. -/
theorem call_dataUpdate_iff (S : Session α n m) (env : Environment α) (c : SessionCall α) :
    (∃ f, (S.call env c).1 = .error (.dataUpdate f)) ↔
      S.data.user.toQpData.admits c = false := by
  have hanswer := S.call_answer env c
  cases hcall : S.call env c with
  | mk r T =>
    rw [hcall] at hanswer
    cases hanswer with
    | admitted hc hresult _ =>
      refine ⟨fun ⟨f, hf⟩ => ?_, fun hadmits => ?_⟩
      · exact absurd (hresult _ hf).symm Bool.false_ne_true
      · exact absurd (hadmits.symm.trans hc.1) Bool.false_ne_true
    | refused _ _ hiff => simpa using hiff

/-! ### Histories -/

theorem after_userData (S : Session α n m) (history : List (Environment α × SessionCall α)) :
    (S.after history).data.user.toQpData
      = (history.map Prod.snd).foldl QpData.overwrite S.data.user.toQpData := by
  induction history generalizing S with
  | nil => rfl
  | cons e history ih =>
    rw [List.map_cons, List.foldl_cons, ← S.call_userData e.1 e.2]
    exact ih _

/-- A setup equilibrates the problem that it is given. -/
theorem setup_data {env : Environment α} {D : QpData α} {settings : Settings α}
    {S : AdmmSession α} (h : AdmmSession.setup env D settings = .ok S) :
    ∃ I : Instance α S.n S.m, I.toQpData = D ∧ I.Acceptable ∧
      S.session.data = (Problem.ofInstance I).equilibrate settings.scaling.toNat := by
  obtain ⟨-, I, hdata, hacceptable, hI⟩ := AdmmSession.setup_eq_ok h
  obtain ⟨U, hU, hfactor⟩ := setup_eq_ok_iff.mp hI
  have hsame := U.factorSystem_sameCore.data
  rw [hfactor] at hsame
  exact ⟨I, hdata, hacceptable, hsame.trans (unfactored_eq_ok hU).1⟩

theorem setup_userData {env : Environment α} {D : QpData α} {settings : Settings α}
    {S : AdmmSession α} (h : AdmmSession.setup env D settings = .ok S) :
    S.session.data.user.toQpData = D.clamped := by
  obtain ⟨I, rfl, -, hdata⟩ := setup_data h
  rw [hdata]
  rfl

theorem after_limited [LawfulComparison α] (h : S.data.user.toQpData.Limited)
    (history : List (Environment α × SessionCall α)) :
    (S.after history).data.user.toQpData.Limited := by
  induction history generalizing S with
  | nil => exact h
  | cons e history ih =>
    refine ih ?_
    rw [S.call_userData e.1 e.2]
    exact h.overwrite e.2

theorem setup_limited [LawfulComparison α] {env : Environment α} {D : QpData α}
    {settings : Settings α} {S : AdmmSession α} (h : AdmmSession.setup env D settings = .ok S) :
    S.session.data.user.toQpData.Limited := by
  obtain ⟨I, hdata, hacceptable, -⟩ := setup_data h
  rw [setup_userData h, ← hdata]
  exact hacceptable.toNumeric.clamped

variable {K : Type} [Field K] [LinearOrder K] [IsStrictOrderedRing K] [ExactScalar K]

/-- Whatever calls a session has seen, accepted or not, the data of its user are those of
the setup, overwritten in turn by the updates that were not refused, and it works on
their scaled values. -/
theorem data_after {env : Environment K} {D : QpData K} {settings : Settings K}
    {S : AdmmSession K} (h : AdmmSession.setup env D settings = .ok S)
    (history : List (Environment K × SessionCall K)) :
    let T := S.session.after history
    T.data.user.toQpData = (history.map Prod.snd).foldl QpData.overwrite D.clamped ∧
      (∀ env' c, (∃ f, (T.call env' c).1 = .error (.dataUpdate f)) ↔
        T.data.user.toQpData.admits c = false) ∧
      T.data.Scaled := by
  intro T
  have hreachable : T.Reachable := (Reachable.setup h).after history
  refine ⟨?_, T.call_dataUpdate_iff, hreachable.sound.scaled⟩
  rw [← setup_userData h]
  exact S.session.after_userData history

/-- After an update that makes the objective non-convex, which fails and is kept, and one
that is refused. -/
theorem data_after_unitProblem : ∃ S : AdmmSession ℚ,
    AdmmSession.setup (.still ℚ) unitProblem plainSettings = .ok S ∧
    (S.session.call (.still ℚ) (.updateMatrices (some #[-2]) none none none)).1
      = .error .nonConvex ∧
    let T := S.session.after [(.still ℚ, .updateMatrices (some #[-2]) none none none),
      (.still ℚ, .updateVectors (some #[5]) (some #[3]) (some #[2]))]
    T.data.user.toQpData = { unitProblem.clamped with P := ⟨1, 1, #[0, 1], #[0], #[-2]⟩ } ∧
      T.data.Scaled := by
  have hrun : (match AdmmSession.setup (.still ℚ) unitProblem plainSettings with
      | .error _ => false
      | .ok S => decide ((S.session.call (.still ℚ)
          (.updateMatrices (some #[-2]) none none none)).1 = .error .nonConvex)) = true := by
    decide +kernel
  have hadmits : unitProblem.clamped.admits (.updateMatrices (some #[-2]) none none none) = true ∧
      QpData.admits { unitProblem.clamped with P := ⟨1, 1, #[0, 1], #[0], #[-2]⟩ }
        (.updateVectors (some #[5]) (some #[3]) (some #[2])) = false := by
    decide +kernel
  split at hrun
  · cases hrun
  · rename_i S hsetup
    obtain ⟨hdata, -, hscaled⟩ := data_after hsetup
      [(.still ℚ, .updateMatrices (some #[-2]) none none none),
        (.still ℚ, .updateVectors (some #[5]) (some #[3]) (some #[2]))]
    refine ⟨S, hsetup, of_decide_eq_true hrun, ?_, hscaled⟩
    rw [hdata]
    show (unitProblem.clamped.overwrite _).overwrite _ = _
    unfold QpData.overwrite
    rw [if_pos hadmits.1]
    exact if_neg (Bool.eq_false_iff.mp hadmits.2)

end Session
end QuadOpt
