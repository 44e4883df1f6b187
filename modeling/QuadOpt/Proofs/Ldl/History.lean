/-
# Histories of a factorisation

New values, factorisations that succeed or fail and solves may follow each other
in any order. All along, the triangle and the forest are those that the analysis
has found, every column of the factor has as many entries as the analysis has
counted, and factors that are said to be valid are those of the current values.

Key definitions: `Ldl.Call`, `Ldl.calls`, `Ldl.latestValues`, `Ldl.Analysed`,
`Ldl.Ready`.
Key theorems: `Ldl.analysed_of_analyse`, `Ldl.Analysed.call`,
`Ldl.Ready.factored`.
-/
import QuadOpt.Ldl.Factorisation
import QuadOpt.Proofs.Ldl.Shape
import QuadOpt.Proofs.Vec

namespace QuadOpt.Ldl

variable {α : Type} [Scalar α] {n : Nat}

/-! ### Calls -/

/-- What can be asked of a factorisation. -/
inductive Call (α : Type) (n : Nat) where
  | setValues (values : Array α)
  | refactor
  | solve (b : Vec α n)

/-- What a call leaves. A wrong number of values is refused. -/
def call (F : Ldl α n) : Call α n → Ldl α n
  | .setValues values => (F.withValues? values).getD F
  | .refactor => F.factor.1
  | .solve _ => F

/-- What a history of calls leaves. -/
def calls (F : Ldl α n) (history : List (Call α n)) : Ldl α n := history.foldl call F

/-- The values after a history of calls, if they were `values` before. -/
def latestValues (values : Array α) (history : List (Call α n)) : Array α :=
  history.foldl (fun values c =>
    match c with
    | .setValues new => if new.size = values.size then new else values
    | _ => values) values

/-- `F` is what a history leaves of an analysis of `A` in some order: its last
factorisation succeeded, the values were `values` then, and nothing but solves
came after it. -/
def Ready (A : Csc α) (values : Array α) (F : Ldl α n) : Prop :=
  ∃ (order : Option (Array Nat)) (F₀ : Ldl α n) (before : List (Call α n)) (k : Nat)
    (solves : List (Vec α n)),
    analyse A n order = .ok F₀ ∧ latestValues A.nzval before = values ∧
    (F₀.calls before).factor.2 = .ok k ∧
    F = F₀.calls (before ++ .refactor :: solves.map .solve)

/-! ### What calls preserve -/

/-- `F` is an analysis of `A`, with factors of its current values if it has any. -/
structure Analysed (A : Csc α) (F : Ldl α n) : Prop where
  valid : A.Valid
  rows_eq : A.m = n
  cols_eq : A.n = n
  isUpper : A.isUpper = true
  upper_eq : F.upper = F.order.permuted (A.entries.map fun e => (e.1, e.2.1))
  forest_eq : F.forest = (Analysis.run (Factors.rowsOf F.upperValues)).forest
  counts_eq : F.counts = (Analysis.run (Factors.rowsOf F.upperValues)).counts
  values_size : F.values.size = A.nzval.size
  lengths : ∀ c, (F.lower.get c).length = F.counts.get c
  factored : F.isFactored = true → ∃ f, Factors.compute F.forest F.upperValues = .ok f ∧
    F.lower = f.lower ∧ F.D = f.D ∧ F.Dinv = f.Dinv ∧ F.positive = f.positive

omit [Scalar α] in
/-- Complete columns take the place of all that was stored. -/
theorem store_eq {F : Ldl α n} {lower : Vector (List (Fin n × α)) n}
    (h : ∀ c, (lower.get c).length = (F.lower.get c).length) : F.store lower = lower := by
  apply Vec.ext_get
  intro c
  rw [store, Vec.get_ofFn, h c, List.drop_length, List.append_nil]

/-- The rows of the triangle do not depend on the values. -/
theorem rowsOf_upperValues (F : Ldl α n) :
    Factors.rowsOf F.upperValues = F.upper.map fun col => col.map Prod.fst := by
  rw [Factors.rowsOf, upperValues, Vector.map_map]
  congr 1
  funext col
  exact List.map_map

omit [Scalar α] in
theorem requireUpper_eq_ok {A : Csc α} (h : requireUpper A n = .ok ()) :
    A.Valid ∧ A.m = n ∧ A.n = n ∧ A.isUpper = true := by
  unfold requireUpper at h
  split at h
  · cases h
  · rename_i hdims
    split at h
    · cases h
    · cases h
    · rename_i hvalid
      split at h
      · cases h
      · rename_i hupper
        exact ⟨Csc.valid_of_validate hvalid, by omega, by omega, by simpa using hupper⟩

/-- What an analysis starts with. -/
theorem analyse_eq_ok {A : Csc α} {order : Option (Array Nat)} {F : Ldl α n}
    (h : analyse A n order = .ok F) : requireUpper A n = .ok () ∧
      F.upper = F.order.permuted (A.entries.map fun e => (e.1, e.2.1)) ∧
      F.forest = (Analysis.run (F.upper.map fun col => col.map Prod.fst)).forest ∧
      F.counts = (Analysis.run (F.upper.map fun col => col.map Prod.fst)).counts ∧
      F.values = A.nzval ∧ (∀ c, (F.lower.get c).length = F.counts.get c) ∧
      F.isFactored = false := by
  unfold analyse at h
  cases hrequire : requireUpper A n with
  | error e =>
    rw [hrequire] at h
    cases h
  | ok u =>
    simp only [hrequire, bind, Except.bind] at h
    cases horder : Order.ofArray n (order.getD (Array.range n)) with
    | error e =>
      rw [horder] at h
      cases h
    | ok o =>
      rw [horder] at h
      cases h
      exact ⟨rfl, rfl, rfl, rfl, rfl, fun c => by simp, rfl⟩

theorem analysed_of_analyse {A : Csc α} {order : Option (Array Nat)} {F : Ldl α n}
    (h : analyse A n order = .ok F) : F.Analysed A := by
  obtain ⟨hrequire, hupper, hforest, hcounts, hvalues, hlengths, hfactored⟩ := analyse_eq_ok h
  obtain ⟨hvalid, hm, hn, htriangle⟩ := requireUpper_eq_ok hrequire
  exact {
    valid := hvalid
    rows_eq := hm
    cols_eq := hn
    isUpper := htriangle
    upper_eq := hupper
    forest_eq := by rw [rowsOf_upperValues, hforest]
    counts_eq := by rw [rowsOf_upperValues, hcounts]
    values_size := congrArg Array.size hvalues
    lengths := hlengths
    factored := fun h => by simp [hfactored] at h }

namespace Analysed

variable {A : Csc α} {F : Ldl α n}

theorem withValues (h : F.Analysed A) {values : Array α} {G : Ldl α n}
    (hG : F.withValues? values = some G) : G.Analysed A ∧ G.values = values := by
  unfold withValues? at hG
  by_cases hsize : values.size = F.values.size
  · rw [if_pos hsize] at hG
    cases hG
    refine ⟨{ h with
      forest_eq := ?_
      counts_eq := ?_
      values_size := hsize.trans h.values_size
      factored := fun hfactored => by cases hfactored }, rfl⟩
    · rw [h.forest_eq, rowsOf_upperValues, rowsOf_upperValues]
    · rw [h.counts_eq, rowsOf_upperValues, rowsOf_upperValues]
  · rw [if_neg hsize] at hG
    cases hG

theorem shaped_of_ok (h : F.Analysed A) {f : Factors α n}
    (hf : Factors.compute F.forest F.upperValues = .ok f) :
    f.Shaped (Analysis.run (Factors.rowsOf F.upperValues)).forest F.upperValues n := by
  rw [← h.forest_eq]
  exact (Factors.compute_shaped F.forest F.upperValues).1 f hf

/-- A complete factor takes the place of all that was stored. -/
theorem store_of_ok (h : F.Analysed A) {f : Factors α n}
    (hf : Factors.compute F.forest F.upperValues = .ok f) : F.store f.lower = f.lower := by
  refine store_eq fun c => ?_
  rw [(h.shaped_of_ok hf).length_eq_counts, ← h.counts_eq, h.lengths]

theorem length_store (h : F.Analysed A) {lower : Vector (List (Fin n × α)) n} {c : Fin n}
    (hle : (lower.get c).length ≤ F.counts.get c) :
    ((F.store lower).get c).length = F.counts.get c := by
  have := h.lengths c
  rw [store, Vec.get_ofFn, List.length_append, List.length_drop]
  omega

theorem factor_of_ok (h : F.Analysed A) {f : Factors α n}
    (hf : Factors.compute F.forest F.upperValues = .ok f) :
    F.factor = ({ F with
      lower := f.lower, D := f.D, Dinv := f.Dinv, positive := f.positive,
      isFactored := true }, .ok f.positive) := by
  rw [factor, hf]
  simp only [h.store_of_ok hf]

theorem factor_of_error {k : Fin n} {f : Factors α n}
    (hf : Factors.compute F.forest F.upperValues = .error (k, f)) :
    F.factor = ({ F with
      lower := F.store f.lower, D := f.D,
      Dinv := Vector.ofFn fun i => if i < k then f.Dinv.get i else F.Dinv.get i,
      isFactored := false }, .error (.zeroPivot k)) := by
  rw [factor, hf]

/-- Factoring keeps the analysis, whether it succeeds or not. -/
theorem factor (h : F.Analysed A) : F.factor.1.Analysed A := by
  cases hf : Factors.compute F.forest F.upperValues with
  | ok f =>
    rw [h.factor_of_ok hf]
    refine { h with
      lengths := fun c => ?_
      factored := fun _ => ⟨f, hf, rfl, rfl, rfl, rfl⟩ }
    have := (h.shaped_of_ok hf).length_eq_counts c
    rwa [← h.counts_eq] at this
  | error e =>
    obtain ⟨k, f⟩ := e
    rw [factor_of_error hf]
    refine { h with
      lengths := fun c => h.length_store ?_
      factored := fun hfactored => by cases hfactored }
    have hshaped := (Factors.compute_shaped F.forest F.upperValues).2 (k, f) hf
    rw [h.forest_eq] at hshaped
    rw [h.counts_eq]
    exact hshaped.length_le_counts c

theorem call (h : F.Analysed A) (c : Call α n) : (F.call c).Analysed A := by
  cases c with
  | setValues values =>
    cases hG : F.withValues? values with
    | none =>
      rw [Ldl.call, hG]
      exact h
    | some G =>
      rw [Ldl.call, hG]
      exact (h.withValues hG).1
  | refactor => exact h.factor
  | solve b => exact h

theorem calls (h : F.Analysed A) (history : List (Call α n)) : (F.calls history).Analysed A := by
  induction history generalizing F with
  | nil => exact h
  | cons c history ih => exact ih (h.call c)

end Analysed

/-! ### The latest values -/

theorem factor_values (F : Ldl α n) : F.factor.1.values = F.values := by
  unfold Ldl.factor
  cases Factors.compute F.forest F.upperValues <;> rfl

theorem calls_values (F : Ldl α n) (history : List (Call α n)) :
    (F.calls history).values = latestValues F.values history := by
  induction history generalizing F with
  | nil => rfl
  | cons c history ih =>
    rw [calls, List.foldl_cons, ← calls, ih, latestValues, latestValues, List.foldl_cons]
    congr 1
    cases c with
    | setValues values =>
      by_cases hsize : values.size = F.values.size <;> simp [call, withValues?, hsize]
    | refactor => exact factor_values F
    | solve b => rfl

/-- After a history of an analysis the values are the latest that were given. -/
theorem values_of_analyse {A : Csc α} {order : Option (Array Nat)} {F : Ldl α n}
    (h : analyse A n order = .ok F) (history : List (Call α n)) :
    (F.calls history).values = latestValues A.nzval history := by
  rw [calls_values, (analyse_eq_ok h).2.2.2.2.1]

theorem calls_solves (F : Ldl α n) (solves : List (Vec α n)) :
    F.calls (solves.map .solve) = F := by
  induction solves with
  | nil => rfl
  | cons b solves ih => exact ih

theorem factor_of_eq_ok {F : Ldl α n} {k : Nat} (h : F.factor.2 = .ok k) :
    F.factor.1.isFactored = true ∧ F.factor.1.positive = k := by
  unfold Ldl.factor at h ⊢
  cases hrun : Factors.compute F.forest F.upperValues with
  | ok f =>
    rw [hrun] at h
    cases h
    exact ⟨rfl, rfl⟩
  | error e =>
    rw [hrun] at h
    cases h

theorem factor_of_eq_error {F : Ldl α n} {e : LdlError} (h : F.factor.2 = .error e) :
    F.factor.1.isFactored = false := by
  unfold Ldl.factor at h ⊢
  cases hrun : Factors.compute F.forest F.upperValues with
  | ok f =>
    rw [hrun] at h
    cases h
  | error e => rfl

/-- After a successful factorisation that no new values followed, the factors are
those of the latest values. -/
theorem Ready.factored {A : Csc α} {values : Array α} {F : Ldl α n} (h : Ready A values F) :
    F.Analysed A ∧ F.values = values ∧ F.isFactored = true := by
  obtain ⟨order, F₀, before, k, solves, hanalyse, hvalues, hok, rfl⟩ := h
  have hbefore := (analysed_of_analyse hanalyse).calls before
  have heq : F₀.calls (before ++ .refactor :: solves.map .solve)
      = (F₀.calls before).factor.1 := by
    rw [calls, List.foldl_append, List.foldl_cons]
    exact calls_solves _ solves
  rw [heq]
  refine ⟨hbefore.factor, ?_, (factor_of_eq_ok hok).1⟩
  rw [factor_values, values_of_analyse hanalyse, hvalues]

end QuadOpt.Ldl
