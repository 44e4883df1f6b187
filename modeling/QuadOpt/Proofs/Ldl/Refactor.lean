/-
# A factorisation that is used again

After any history of new values, factorisations that succeed or fail and solves, the
arrays still hold the analysis of the matrix, and its values have their places. So
factoring new values gives what a fresh analysis of the same pattern with these values
gives, whatever was left in the workspace.

Key definitions: `LdlStorage.call`, `LdlStorage.calls`.
Key theorems: `LdlStorage.Represents.calls`, `Ldl.Holds.factor_congr`,
`LdlStorage.refactor_eq_fresh`.
-/
import QuadOpt.Proofs.Ldl.Fresh
import QuadOpt.Proofs.Ldl.Solve
import QuadOpt.Proofs.Ldl.StoredElimination

namespace QuadOpt

variable {α : Type} [Scalar α] {n : Nat} {A : Csc α}

/-! ### Factors of the same values -/

namespace Ldl

theorem analyse_getD (A : Csc α) (n : Nat) (order : Option (Array Nat)) :
    analyse A n order = analyse A n (some (order.getD (Array.range n))) := rfl

namespace Holds

variable {F G : Ldl α n}

/-- What factoring gives is decided by the matrix and the order, and so are the factors
if there are any. -/
theorem factor_congr (hF : F.Holds A) (hG : G.Holds A) (hgiven : G.givenOrder = F.givenOrder) :
    G.factor.2 = F.factor.2 ∧ ∀ p, F.factor.2 = .ok p → G.factor.1 = F.factor.1 := by
  have hanalysis := hG.analyse_eq
  rw [hgiven, hF.analyse_eq, Except.ok.injEq, Ldl.mk.injEq] at hanalysis
  obtain ⟨-, horder, hupper, hforest, hcounts, hvalues, -⟩ := hanalysis
  have hupperValues : G.upperValues = F.upperValues := by
    rw [upperValues, upperValues, hupper, hvalues]
  cases hcompute : Factors.compute F.forest F.upperValues with
  | ok f =>
    have hcompute' : Factors.compute G.forest G.upperValues = .ok f := by
      rwa [hupperValues, ← hforest]
    rw [hF.analysed.factor_of_ok hcompute, hG.analysed.factor_of_ok hcompute']
    exact ⟨rfl, fun p _ => by rw [hgiven, horder, hupper, hforest, hcounts, hvalues]⟩
  | error e =>
    obtain ⟨k, f⟩ := e
    have hcompute' : Factors.compute G.forest G.upperValues = .error (k, f) := by
      rwa [hupperValues, ← hforest]
    rw [Analysed.factor_of_error hcompute, Analysed.factor_of_error hcompute']
    exact ⟨rfl, fun p hp => by cases hp⟩

/-- A call keeps the pattern and the order. -/
theorem call (hF : F.Holds A) (c : Call α n) : ∃ v : Array α, v.size = A.nzval.size ∧
    (F.call c).Holds { A with nzval := v } ∧ (F.call c).givenOrder = F.givenOrder := by
  cases c with
  | setValues values =>
    by_cases hsize : values.size = A.nzval.size
    · obtain ⟨hwith, hholds⟩ := hF.replace hsize
      rw [Ldl.call, hwith]
      exact ⟨values, hsize, hholds, rfl⟩
    · have hnone : F.withValues? values = none := if_neg (by rwa [hF.size_values])
      rw [Ldl.call, hnone]
      exact ⟨A.nzval, rfl, hF, rfl⟩
  | refactor => exact ⟨A.nzval, rfl, hF.factor, F.factor_order.1⟩
  | solve b => exact ⟨A.nzval, rfl, hF, rfl⟩

theorem calls (hF : F.Holds A) (history : List (Call α n)) : ∃ v : Array α,
    v.size = A.nzval.size ∧ (F.calls history).Holds { A with nzval := v } ∧
      (F.calls history).givenOrder = F.givenOrder := by
  induction history generalizing F A with
  | nil => exact ⟨A.nzval, rfl, hF, rfl⟩
  | cons c history ih =>
    obtain ⟨v, hv, hcall, hgiven⟩ := hF.call c
    obtain ⟨w, hw, hcalls, hrest⟩ := ih hcall
    exact ⟨w, hw.trans hv, hcalls, hrest.trans hgiven⟩

end Holds
end Ldl

/-! ### Histories in place -/

namespace LdlStorage

/-- What a call leaves. A call that is refused leaves everything as it was. -/
def call (S : LdlStorage α n) : Ldl.Call α n → LdlStorage α n
  | .setValues values => (S.setValues? values).getD S
  | .refactor => (S.refactor?.map Prod.fst).getD S
  | .solve b => ((S.solve? b).map Prod.fst).getD S

/-- What a history of calls leaves. -/
def calls (S : LdlStorage α n) (history : List (Ldl.Call α n)) : LdlStorage α n :=
  history.foldl call S

namespace Represents

variable {S : LdlStorage α n} {F : Ldl α n}

theorem call (h : S.Represents F) (hF : F.Analysed A) (c : Ldl.Call α n) :
    (S.call c).Represents (F.call c) := by
  cases c with
  | setValues values =>
    rcases h.setValues values with ⟨T, G, hT, hG, hnext⟩ | ⟨hT, hG⟩
    · rw [LdlStorage.call, Ldl.call, hT, hG]
      exact hnext
    · rw [LdlStorage.call, Ldl.call, hT, hG]
      exact h
  | refactor =>
    obtain ⟨T, hT, hnext⟩ := h.refactor hF
    rw [LdlStorage.call, hT]
    exact hnext
  | solve b =>
    rcases h.solve b with ⟨T, x, hT, -, hnext⟩ | ⟨hT, -⟩
    · rw [LdlStorage.call, hT]
      exact hnext
    · rw [LdlStorage.call, hT]
      exact h

/-- A history of calls in place is one of the factorisation. -/
theorem calls (h : S.Represents F) (hF : F.Analysed A) (history : List (Ldl.Call α n)) :
    (S.calls history).Represents (F.calls history) := by
  induction history generalizing S F with
  | nil => exact h
  | cons c history ih => exact ih (h.call hF c) (hF.call c)

end Represents

/-- After any history, new values are factored as by a fresh analysis of the same
pattern with these values: with the same result, and if there are factors, with the
same. It is so on lists, and in place whatever the workspaces held at first. -/
theorem refactor_eq_fresh {order : Option (Array Nat)} {F : Ldl α n}
    (h : Ldl.analyse A n order = .ok F) (history : List (Ldl.Call α n)) {values : Array α}
    (hsize : values.size = A.nzval.size) (W V : LdlWorkspace α n) :
    ∃ (F₁ F₂ G₁ G₂ : Ldl α n) (S S₁ S₂ T₁ T₂ : LdlStorage α n) (result : Except LdlError Nat),
      ((F.calls history).withValues? values = some F₁ ∧ F₁.factor = (F₂, result) ∧
        Ldl.analyse { A with nzval := values } n order = .ok G₁ ∧ G₁.factor = (G₂, result)) ∧
      (analyse A n order W = .ok S ∧ (S.calls history).setValues? values = some S₁ ∧
        S₁.refactor? = some (S₂, result) ∧
        analyse { A with nzval := values } n order V = .ok T₁ ∧
        T₁.refactor? = some (T₂, result)) ∧
      (S₂.Represents F₂ ∧ T₂.Represents G₂) ∧
      ∀ p, result = .ok p → F₂ = G₂ ∧ S₂.lower = T₂.lower ∧ S₂.D = T₂.D ∧ S₂.Dinv = T₂.Dinv ∧
        S₂.positive = T₂.positive := by
  have hholds := Ldl.holds_of_analyse h
  have hgivenOrder := (Ldl.analyse_order h).1
  -- The values that the history leaves do not matter, but there are as many as before.
  obtain ⟨v, hv, hcalls, hgiven⟩ := hholds.calls history
  obtain ⟨hwith, hused⟩ := hcalls.replace (hsize.trans hv.symm)
  obtain ⟨S, hS, hrep⟩ := exists_analyse h W
  obtain ⟨S₁, F₁, hS₁, hF₁, hrepUsed⟩ :=
    ((hrep.calls hholds.analysed history).setValues values).resolve_right fun ⟨_, hnone⟩ => by
      rw [hwith] at hnone
      cases hnone
  obtain rfl := Option.some.inj (hwith.symm.trans hF₁)
  obtain ⟨S₂, hS₂, hrepLast⟩ := hrepUsed.refactor hused.analysed
  -- The fresh analysis is accepted, as the pattern is.
  obtain ⟨G₁, hG₁⟩ : ∃ G₁, Ldl.analyse { A with nzval := values } n order = .ok G₁ := by
    rw [Ldl.analyse_getD, ← hgivenOrder]
    exact ⟨_, (hholds.replace hsize).2.analyse_eq⟩
  obtain ⟨T₁, hT₁, hrepFresh⟩ := exists_analyse hG₁ V
  have hfresh := Ldl.holds_of_analyse hG₁
  obtain ⟨T₂, hT₂, hrepFirst⟩ := hrepFresh.refactor hfresh.analysed
  obtain ⟨hresult, hfactors⟩ := hfresh.factor_congr hused
    (hgiven.trans (hgivenOrder.trans (Ldl.analyse_order hG₁).1.symm))
  rw [hresult] at hS₂
  refine ⟨_, _, G₁, _, S, S₁, S₂, T₁, T₂, G₁.factor.2, ⟨hF₁, Prod.ext rfl hresult, hG₁, rfl⟩,
    ⟨hS, hS₁, hS₂, hT₁, hT₂⟩, ⟨hrepLast, hrepFirst⟩, fun p hp => ?_⟩
  have heq := hfactors p hp
  rw [heq] at hrepLast
  exact ⟨heq, hrepLast.lower.trans hrepFirst.lower.symm, hrepLast.D.trans hrepFirst.D.symm,
    hrepLast.Dinv.trans hrepFirst.Dinv.symm, hrepLast.positive.trans hrepFirst.positive.symm⟩

/-- A workspace in which nothing is as a factorisation leaves it. -/
def usedWorkspace : LdlWorkspace ℚ 3 where
  visited := Vector.replicate 3 true
  pending := Vector.replicate 3 2
  path := Vector.replicate 3 1
  next := Vector.replicate 3 9
  work := .fill 3 5

/-- A factorisation that finds no pivot, then one that succeeds, and a solve. -/
def hollowUse : List (Ldl.Call ℚ 3) := Ldl.hollowHistory ++ [.refactor, .solve (.fill 3 1)]

theorem refactor_eq_fresh_hollow : ∃ (F F₁ F₂ G₁ : Ldl ℚ 3) (S S₁ S₂ T₁ T₂ : LdlStorage ℚ 3),
    Ldl.analyse Ldl.hollowMatrix 3 (some #[2, 0, 1]) = .ok F ∧
    (F.calls hollowUse).withValues? #[4, 1, 3, 1] = some F₁ ∧ F₁.factor = (F₂, .ok 2) ∧
    Ldl.analyse { Ldl.hollowMatrix with nzval := (#[4, 1, 3, 1] : Array ℚ) } 3 (some #[2, 0, 1])
      = .ok G₁ ∧ G₁.factor = (F₂, .ok 2) ∧
    analyse Ldl.hollowMatrix 3 (some #[2, 0, 1]) usedWorkspace = .ok S ∧
    (S.calls hollowUse).setValues? #[4, 1, 3, 1] = some S₁ ∧ S₁.refactor? = some (S₂, .ok 2) ∧
    T₁.refactor? = some (T₂, .ok 2) ∧ S₂.lower = T₂.lower ∧ S₂.D = T₂.D ∧ S₂.Dinv = T₂.Dinv := by
  have hrun : (Ldl.analyse Ldl.hollowMatrix 3 (some #[2, 0, 1])).toOption.any (fun F =>
      ((F.calls hollowUse).withValues? #[4, 1, 3, 1]).any fun F₁ =>
        F₁.factor.2.toOption == some 2) = true := by
    decide +kernel
  cases hanalyse : Ldl.analyse Ldl.hollowMatrix 3 (some #[2, 0, 1]) with
  | error e =>
    rw [hanalyse] at hrun
    cases hrun
  | ok F =>
    obtain ⟨F₁, F₂, G₁, G₂, S, S₁, S₂, T₁, T₂, result, ⟨hset, hfactor, hfresh, hfirst⟩,
        ⟨hS, hS₁, hS₂, -, hT₂⟩, -, hsame⟩ := refactor_eq_fresh hanalyse hollowUse
      (show (#[4, 1, 3, 1] : Array ℚ).size = Ldl.hollowMatrix.nzval.size from rfl)
      usedWorkspace usedWorkspace
    have hresult : result.toOption = some 2 := by
      rw [hanalyse] at hrun
      simp only [Except.toOption, Option.any_some, hset, hfactor] at hrun
      exact eq_of_beq hrun
    cases result with
    | error e => cases hresult
    | ok p =>
      obtain rfl : p = 2 := Option.some.inj hresult
      obtain ⟨rfl, hlower, hD, hDinv, -⟩ := hsame 2 rfl
      exact ⟨F, F₁, F₂, G₁, S, S₁, S₂, T₁, T₂, rfl, hset, hfactor, hfresh, hfirst, hS, hS₁, hS₂,
        hT₂, hlower, hD, hDinv⟩

end LdlStorage
end QuadOpt
