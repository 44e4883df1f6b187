/-
# Leading minors

As far as elimination has come, the leading minors of the matrix are the products of the
first pivots. So elimination finds all pivots iff no leading minor is zero, and otherwise it
stops at the first one that is. When it is through, the factors that are stored multiply to
the matrix.

Key definitions: `leadingMinor`, `Ldl.inOrder`, `Ldl.Stores`.
Key theorems: `leadingMinor_eq_prod`, `Factors.compute_leadingMinor`,
`Ldl.toMatrix_lowerMatrix`, `Ldl.factor_iff_leadingMinor`.
-/
import Mathlib.LinearAlgebra.Matrix.Block
import QuadOpt.Proofs.Ldl.Fresh
import QuadOpt.Proofs.Ldl.Pivots
import QuadOpt.Proofs.Sparse.Columns

namespace QuadOpt

open Matrix

/-! ### Minors of a product -/

section Minors

variable {K : Type} [Field K] {n : Nat}

/-- The determinant of the first `k + 1` rows and columns of `M`. -/
def leadingMinor (M : Matrix (Fin n) (Fin n) K) (k : Fin n) : K :=
  (M.submatrix (Fin.castLE k.isLt) (Fin.castLE k.isLt)).det

/-- What is zero after row `k` is summed up over the rows up to it. -/
theorem sum_eq_sum_castLE (k : Fin n) (g : Fin n → K) (hg : ∀ c, k < c → g c = 0) :
    ∑ c, g c = ∑ c, g (Fin.castLE k.isLt c) := by
  symm
  refine Fintype.sum_of_injective _ (Fin.castLE_injective k.isLt) _ _ (fun c hc => ?_)
    fun _ => rfl
  refine hg c ?_
  by_contra hle
  exact hc ⟨⟨c.val, by omega⟩, rfl⟩

/-- A matrix whose first rows are those of a product `(I + L) D (I + L)ᵀ`. -/
theorem leadingMinor_eq_prod {M L : Matrix (Fin n) (Fin n) K} {d : Fin n → K} {k : Fin n}
    (hL : ∀ i c, i ≤ c → L i c = 0)
    (hM : ∀ i j, i ≤ k → j ≤ k → M i j = ∑ c, (1 + L) i c * d c * (1 + L) j c) :
    leadingMinor M k = ∏ c, d (Fin.castLE k.isLt c) := by
  let ι : Fin (k.val + 1) → Fin n := Fin.castLE k.isLt
  let U := (1 + L).submatrix ι ι
  have hle : ∀ i, ι i ≤ k := fun i => Nat.le_of_lt_succ i.isLt
  have hafter : ∀ i c : Fin n, i < c → (1 + L) i c = 0 := by
    intro i c hic
    rw [Matrix.add_apply, hL i c hic.le, Matrix.one_apply_ne hic.ne, add_zero]
  have hproduct : M.submatrix ι ι = U * diagonal (d ∘ ι) * Uᵀ := by
    ext i j
    rw [Matrix.mul_apply]
    simp only [mul_diagonal]
    rw [submatrix_apply, hM _ _ (hle i) (hle j)]
    refine sum_eq_sum_castLE k _ fun c hc => ?_
    rw [hafter (ι i) c (lt_of_le_of_lt (hle i) hc), zero_mul, zero_mul]
  have hdet : U.det = 1 := by
    rw [det_of_isLowerTriangular U fun i j hij => hafter _ _ hij]
    refine Finset.prod_eq_one fun i _ => ?_
    show (1 + L) (ι i) (ι i) = 1
    rw [Matrix.add_apply, Matrix.one_apply_eq, hL _ _ (le_refl _), add_zero]
  show (M.submatrix ι ι).det = _
  rw [hproduct, det_mul, det_mul, det_transpose, hdet, det_diagonal, one_mul, mul_one]
  rfl

end Minors

/-! ### Minors and pivots -/

namespace Factors

variable {K : Type} [Field K] [LinearOrder K] [ExactScalar K] {n : Nat} {forest : Forest n}
  {upper : Vector (List (Fin n × K)) n} {f : Factors K n} {M : Matrix (Fin n) (Fin n) K}

omit [LinearOrder K] [ExactScalar K] in
theorem Expands.leadingMinor_eq {j : Nat} {k : Fin n} (hlower : StrictlyLower f.lower)
    (h : f.Expands upper j) (hk : k.val < j)
    (hM : ∀ r c, c ≤ r → coefficient (upper.get r) c = M c r) (hsymm : ∀ r c, M r c = M c r) :
    leadingMinor M k = ∏ c, f.D.get (Fin.castLE k.isLt c) :=
  leadingMinor_eq_prod (fun _ _ hic => hlower.columnMatrix_eq_zero hic)
    fun i r hi hr => h.apply_eq hM hsymm (by omega) (by omega)

omit [ExactScalar K] in
theorem Expands.leadingMinor_ne_zero {j j' : Nat} {k : Fin n} (hlower : StrictlyLower f.lower)
    (h : f.Expands upper j) (hpivots : f.Pivoted j') (hk : k.val < j) (hk' : k.val < j')
    (hM : ∀ r c, c ≤ r → coefficient (upper.get r) c = M c r) (hsymm : ∀ r c, M r c = M c r) :
    leadingMinor M k ≠ 0 := by
  rw [h.leadingMinor_eq hlower hk hM hsymm, Finset.prod_ne_zero_iff]
  intro c _
  refine hpivots.ne_zero _ ?_
  show c.val < j'
  omega

/-- No leading minor is zero where elimination finds all pivots, and where it stops is the
first that is. -/
theorem compute_leadingMinor (hfits : Fits forest upper)
    (hM : ∀ r c, c ≤ r → coefficient (upper.get r) c = M c r) (hsymm : ∀ r c, M r c = M c r) :
    (∀ f, compute forest upper = .ok f → ∀ k, leadingMinor M k ≠ 0) ∧
      ∀ e, compute forest upper = .error e →
        leadingMinor M e.1 = 0 ∧ ∀ k < e.1, leadingMinor M k ≠ 0 := by
  obtain ⟨hshaped, hstuck⟩ := compute_shaped forest upper
  obtain ⟨hexpands, hzero⟩ := compute_expands hfits
  refine ⟨fun f hf k => ?_, fun e he => ?_⟩
  · obtain ⟨hrows, hpivots⟩ := hexpands f hf
    exact hrows.leadingMinor_ne_zero (hshaped f hf).strictlyLower hpivots k.isLt k.isLt hM hsymm
  · obtain ⟨hrows, hpivots, hpivot⟩ := hzero e he
    have hlower := (hstuck e he).strictlyLower
    refine ⟨?_, fun k hk => ?_⟩
    · rw [hrows.leadingMinor_eq hlower (Nat.lt_succ_self _) hM hsymm]
      exact Finset.prod_eq_zero (Finset.mem_univ (Fin.last e.1.val)) hpivot
    · exact hrows.leadingMinor_ne_zero hlower hpivots (Nat.lt_succ_of_lt hk) hk hM hsymm

end Factors

/-! ### Stored factors -/

namespace Ldl

section Stored

variable {α : Type} {n : Nat} {F : Ldl α n}

/-- The stored factor has the columns that have been computed. -/
theorem lowerMatrix_eq_ofColumns (h : ∀ c, (F.lower.get c).length = F.counts.get c) :
    F.lowerMatrix
      = .ofColumns n (F.lower.toList.map fun col => col.map fun e => (e.1.val, e.2)) := by
  have hcounts : F.counts.toList
      = (F.lower.toList.map fun col => col.map fun e => (e.1.val, e.2)).map List.length := by
    rw [Vec.toList_eq_map_get, Vec.toList_eq_map_get, List.map_map, List.map_map]
    refine List.map_congr_left fun c _ => ?_
    simp [h]
  simp [lowerMatrix, Csc.ofColumns, hcounts, List.flatMap_def, List.map_flatten, Function.comp_def]

theorem column_lowerMatrix (h : ∀ c, (F.lower.get c).length = F.counts.get c) (c : Fin n) :
    F.lowerMatrix.column c = (F.lower.get c).map fun e => (e.1.val, e.2) := by
  rw [lowerMatrix_eq_ofColumns h, Csc.column_ofColumns (by simp)]
  simp [Vec.get_eq_getElem]

theorem mem_entries_lowerMatrix (h : ∀ c, (F.lower.get c).length = F.counts.get c)
    {e : Nat × Nat × α} (he : e ∈ F.lowerMatrix.entries) :
    ∃ c : Fin n, e.2.1 = c ∧ ∃ d ∈ F.lower.get c, e.1 = d.1 := by
  obtain ⟨hc, he⟩ := Csc.mem_entries.mp he
  obtain ⟨d, hd, heq⟩ := List.mem_map.mp ((column_lowerMatrix h ⟨e.2.1, hc⟩) ▸ he)
  exact ⟨⟨e.2.1, hc⟩, rfl, d, hd, (congrArg Prod.fst heq).symm⟩

end Stored

variable {K : Type} [Field K] {n : Nat} {F : Ldl K n}

theorem toMatrix_lowerMatrix (h : ∀ c, (F.lower.get c).length = F.counts.get c) :
    F.lowerMatrix.toMatrix n n = columnMatrix F.lower := by
  ext i c
  show F.lowerMatrix.entry i c = coefficient (F.lower.get c) i
  rw [Csc.entry_eq_sum_column _ _ c.isLt, column_lowerMatrix h, List.map_map]
  simp only [coefficient, Function.comp_def, Fin.val_inj]

/-! ### Factorisations -/

/-- The symmetric matrix of the pattern of `A` and the given values, with its rows and
columns in elimination order. -/
def inOrder (F : Ldl K n) (A : Csc K) (values : Array K) : Matrix (Fin n) (Fin n) K :=
  (symmetric A n values).submatrix F.order.toEquiv F.order.toEquiv

/-- What is stored are factors of `S`: an `L` with all its entries below the diagonal, the
pivots and their reciprocals. -/
structure Stores (F : Ldl K n) (S : Matrix (Fin n) (Fin n) K) : Prop where
  product : S = (1 + F.lowerMatrix.toMatrix n n) * diagonal F.D.get
    * (1 + F.lowerMatrix.toMatrix n n)ᵀ
  below : ∀ e ∈ F.lowerMatrix.entries, e.2.1 < e.1
  ne_zero : ∀ k, F.D.get k ≠ 0
  recip : ∀ k, F.Dinv.get k = (F.D.get k)⁻¹

variable [LinearOrder K] [ExactScalar K] {A : Csc K}

omit [ExactScalar K] in
theorem Factorises.stores {M : Matrix (Fin n) (Fin n) K} (h : F.Factorises M)
    (hlengths : ∀ c, (F.lower.get c).length = F.counts.get c) :
    F.Stores (M.submatrix F.order.toEquiv F.order.toEquiv) := by
  refine ⟨?_, fun e he => ?_, h.ne_zero, h.recip⟩
  · rw [toMatrix_lowerMatrix hlengths]
    exact h.product
  · obtain ⟨c, hc, d, hd, hi⟩ := mem_entries_lowerMatrix hlengths he
    rw [hc, hi]
    exact h.strictlyLower c d hd

/-- A factorisation succeeds iff no leading minor is zero, and it fails at the first that
is. -/
theorem Analysed.factor_leadingMinor (h : F.Analysed A) :
    ((∃ p, F.factor.2 = .ok p) ↔ ∀ k, leadingMinor (F.inOrder A F.values) k ≠ 0) ∧
    ∀ e, F.factor.2 = .error e ↔ ∃ k : Fin n, e = .zeroPivot k ∧
      leadingMinor (F.inOrder A F.values) k = 0 ∧
      ∀ j < k, leadingMinor (F.inOrder A F.values) j ≠ 0 := by
  obtain ⟨hall, hfirst⟩ := Factors.compute_leadingMinor (M := F.inOrder A F.values) h.fits
    (fun r c hcr => h.coefficient_upperValues hcr) fun r c => symmetric_comm A F.values _ _
  cases hf : Factors.compute F.forest F.upperValues with
  | ok f =>
    rw [h.factor_of_ok hf]
    refine ⟨iff_of_true ⟨_, rfl⟩ (hall f hf), fun e => ?_⟩
    simp only [reduceCtorEq, false_iff, not_exists, not_and]
    exact fun k _ hk => absurd hk (hall f hf k)
  | error e =>
    obtain ⟨k, f⟩ := e
    obtain ⟨hzero, hbefore⟩ := hfirst _ hf
    rw [factor_of_error hf]
    refine ⟨iff_of_false (by simp) fun hne => hne k hzero, fun e => ?_⟩
    simp only [Except.error.injEq]
    constructor
    · rintro rfl
      exact ⟨k, rfl, hzero, hbefore⟩
    · rintro ⟨j, rfl, hj, hjbefore⟩
      -- There is only one first.
      rcases lt_trichotomy j k with hlt | rfl | hlt
      · exact absurd hj (hbefore j hlt)
      · rfl
      · exact absurd hzero (hjbefore k hlt)

/-- After any history of an analysis in any order, a factorisation of the latest values
succeeds iff no leading minor of the matrix in this order is zero, and otherwise it fails at
the first that is. If it succeeds, the factors of this matrix are stored, and the number of
positive pivots is returned. -/
theorem factor_iff_leadingMinor {order : Option (Array Nat)} {F₀ : Ldl K n}
    (h : analyse A n order = .ok F₀) (history : List (Call K n)) :
    let F := F₀.calls history
    let S := F.inOrder A (latestValues A.nzval history)
    (∀ k : Fin n, (order.getD (Array.range n))[k.val]? = some (F.order.perm.get k).val) ∧
    ((∃ p, F.factor.2 = .ok p) ↔ ∀ k, leadingMinor S k ≠ 0) ∧
    (∀ e, F.factor.2 = .error e ↔ ∃ k : Fin n, e = .zeroPivot k ∧
      leadingMinor S k = 0 ∧ ∀ j < k, leadingMinor S j ≠ 0) ∧
    ∀ p, F.factor.2 = .ok p → F.factor.1.Stores S ∧
      p = (Finset.univ.filter fun k => 0 < F.factor.1.D.get k).card := by
  intro F S
  have hF : F.Analysed A := (analysed_of_analyse h).calls history
  have hS : S = F.inOrder A F.values := congrArg (F.inOrder A) (values_of_analyse h history).symm
  obtain ⟨hgiven, horder⟩ := analyse_order h
  obtain ⟨hok, herror⟩ := hF.factor_leadingMinor
  rw [← hS] at hok herror
  refine ⟨fun k => ?_, hok, herror, fun p hp => ?_⟩
  · rw [calls_order, ← hgiven]
    exact Order.getElem?_of_ofArray horder k
  · obtain ⟨hfactors, -, rfl⟩ := hF.factorises_of_factor hp
    have hstores := hfactors.stores hF.factor.lengths
    rw [F.factor_order.2, ← inOrder, ← hS] at hstores
    exact ⟨hstores, hfactors.positive⟩

/-- Values of the hollow matrix with a zero in the second pivot, and then others. -/
theorem factor_iff_leadingMinor_hollow : ∃ F₀ F₁ F₂ : Ldl ℚ 3,
    analyse hollowMatrix 3 (some #[2, 0, 1]) = .ok F₀ ∧
    F₀.calls [.setValues #[0, 1, 3, 1]] = F₁ ∧
    F₀.calls [.setValues #[0, 1, 3, 1], .refactor, .setValues #[2, 1, 3, 1]] = F₂ ∧
    leadingMinor (F₁.inOrder hollowMatrix #[0, 1, 3, 1]) 0 ≠ 0 ∧
    leadingMinor (F₁.inOrder hollowMatrix #[0, 1, 3, 1]) 1 = 0 ∧
    (∀ k, leadingMinor (F₂.inOrder hollowMatrix #[2, 1, 3, 1]) k ≠ 0) ∧
    F₂.factor.1.Stores (F₂.inOrder hollowMatrix #[2, 1, 3, 1]) := by
  have hrun : (analyse hollowMatrix 3 (some #[2, 0, 1])).toOption.any (fun F =>
      decide ((F.calls [.setValues #[0, 1, 3, 1]]).factor.2 = .error (.zeroPivot 1) ∧
        (F.calls [.setValues #[0, 1, 3, 1], .refactor, .setValues #[2, 1, 3, 1]]).factor.2
          = .ok 2)) = true := by
    decide +kernel
  cases hanalyse : analyse hollowMatrix 3 (some #[2, 0, 1]) with
  | error e =>
    rw [hanalyse] at hrun
    cases hrun
  | ok F₀ =>
    rw [hanalyse] at hrun
    obtain ⟨hstuck, hok⟩ := of_decide_eq_true hrun
    obtain ⟨-, -, herror, -⟩ := factor_iff_leadingMinor hanalyse [.setValues #[0, 1, 3, 1]]
    obtain ⟨k, hk, hzero, hbefore⟩ := (herror _).mp hstuck
    obtain rfl : k = 1 := Fin.ext (LdlError.zeroPivot.inj hk).symm
    obtain ⟨-, hall, -, hstores⟩ := factor_iff_leadingMinor hanalyse
      [.setValues #[0, 1, 3, 1], .refactor, .setValues #[2, 1, 3, 1]]
    exact ⟨F₀, _, _, rfl, rfl, rfl, hbefore 0 (by decide), hzero, hall.mp ⟨2, hok⟩,
      (hstores 2 hok).1⟩

end Ldl
end QuadOpt
