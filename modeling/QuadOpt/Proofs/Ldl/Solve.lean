/-
# Solves with valid factors

In exact arithmetic the factors of an analysed matrix multiply to the symmetric
matrix of its current values, in elimination order, and a solve with them gives
the one solution of the system. So it gives the same vector whatever the order.

Key definitions: `Ldl.Factorises`.
Key theorems: `Ldl.Analysed.submatrix_eq`, `Ldl.Analysed.factorises`,
`Ldl.Factorises.solve_eq`, `Ldl.solve_ready`.
-/
import Mathlib.Algebra.Order.Field.Rat
import Mathlib.LinearAlgebra.Matrix.NonsingularInverse
import QuadOpt.Proofs.Ldl.Elimination
import QuadOpt.Proofs.Ldl.History
import QuadOpt.Proofs.Ldl.Permuted

namespace QuadOpt.Ldl

open Matrix

variable {K : Type} [Field K] [LinearOrder K] [ExactScalar K] {n : Nat}

/-- The symmetric matrix of which `A` holds the pattern of the upper triangle and
`values` the values. -/
def symmetric (A : Csc K) (n : Nat) (values : Array K) : Matrix (Fin n) (Fin n) K :=
  Csc.mirror { A with nzval := values } n

omit [LinearOrder K] [ExactScalar K] in
theorem symmetric_comm (A : Csc K) (values : Array K) (i j : Fin n) :
    symmetric A n values i j = symmetric A n values j i := by
  simp only [symmetric, Csc.mirror, Matrix.of_apply]
  by_cases hij : i ≤ j
  · by_cases hji : j ≤ i
    · obtain rfl : i = j := Fin.le_antisymm hij hji
      rfl
    · rw [if_pos hij, if_neg hji]
  · rw [if_neg hij, if_pos (le_of_not_ge hij)]

namespace Analysed

variable {A : Csc K} {F : Ldl K n}

theorem exists_positions (h : F.Analysed A) : ∃ ts : List ((Fin n × Fin n) × Nat),
    (A.entries.map fun e => (e.1, e.2.1)).zipIdx = ts.map (fun t => ((t.1.1.val, t.1.2.val), t.2)) ∧
    Csc.entries { A with nzval := F.values }
      = ts.map (fun t => (t.1.1.val, t.1.2.val, F.values.getD t.2 0)) ∧
    (ts.map Prod.fst).Nodup ∧ ∀ t ∈ ts, t.1.1 ≤ t.1.2 := by
  obtain ⟨ts, hts⟩ := Csc.exists_positions h.valid h.rows_eq h.cols_eq
  have hentries : ∀ values : Array K, values.size = A.nzval.size →
      Csc.entries { A with nzval := values }
        = ts.map fun t => (t.1.1.val, t.1.2.val, values.getD t.2 0) := by
    intro values hsize
    have hslots := congrArg (List.map fun p => (p.1.1, p.1.2, values.getD p.2 0)) hts
    rw [List.map_map, List.map_map] at hslots
    rw [Csc.entries_withValues h.valid hsize]
    exact hslots
  have hold : A.entries = ts.map fun t => (t.1.1.val, t.1.2.val, A.nzval.getD t.2 0) :=
    hentries A.nzval rfl
  refine ⟨ts, (Csc.zipIdx_places h.valid).trans hts, hentries F.values h.values_size, ?_, ?_⟩
  · have hplaces := Csc.nodup_places h.valid
    rw [hold, List.map_map] at hplaces
    refine List.Nodup.of_map (fun p : Fin n × Fin n => (p.1.val, p.2.val)) ?_
    rw [List.map_map]
    exact hplaces
  · intro t ht
    have hmem : (t.1.1.val, t.1.2.val, A.nzval.getD t.2 0) ∈ A.entries := by
      rw [hold]
      exact List.mem_map_of_mem ht
    exact Csc.le_of_isUpper h.isUpper hmem

theorem get_upperValues (h : F.Analysed A) (k : Fin n) : F.upperValues.get k
    = ((F.order.permuted (A.entries.map fun e => (e.1, e.2.1))).get k).map
        fun e => (e.1, F.values.getD e.2 0) := by
  rw [upperValues, Vec.get_map, h.upper_eq]

/-- The triangle in elimination order and the forest fit together. -/
theorem fits (h : F.Analysed A) : Factors.Fits F.forest F.upperValues := by
  obtain ⟨ts, hts, -, hplaces, hupper⟩ := h.exists_positions
  have hle : ∀ k, ∀ e ∈ F.upperValues.get k, e.1 ≤ k := by
    intro k e he
    rw [h.get_upperValues] at he
    obtain ⟨e', he', rfl⟩ := List.mem_map.mp he
    exact F.order.le_of_mem_permuted hts he'
  refine ⟨fun k => ?_, hle, fun k e he => ?_⟩
  · rw [h.get_upperValues, List.map_map]
    exact F.order.nodup_permuted hts hplaces hupper k
  · rw [h.forest_eq]
    refine Analysis.run_reaches ?_ (hle k e he)
    rw [Factors.rowsOf, Vec.get_map]
    exact List.mem_map_of_mem he

theorem coefficient_upperValues (h : F.Analysed A) {r k : Fin n} (hrk : r ≤ k) :
    coefficient (F.upperValues.get k) r
      = symmetric A n F.values (F.order.perm.get r) (F.order.perm.get k) := by
  obtain ⟨ts, hts, hentries, -, hupper⟩ := h.exists_positions
  rw [h.get_upperValues]
  exact F.order.coefficient_permuted hts hentries hupper hrk

/-- The factors multiply to the matrix in elimination order. -/
theorem submatrix_eq (h : F.Analysed A) {f : Factors K n}
    (hf : Factors.compute F.forest F.upperValues = .ok f) :
    (symmetric A n F.values).submatrix F.order.toEquiv F.order.toEquiv
      = f.unitLower * Matrix.diagonal f.D.get * f.unitLowerᵀ := by
  have hexpands := ((Factors.compute_expands h.fits).1 f hf).1
  have happly : ∀ i j, (f.unitLower * Matrix.diagonal f.D.get * f.unitLowerᵀ) i j
      = ∑ c, f.unitLower i c * f.D.get c * f.unitLower j c := by
    intro i j
    simp [Matrix.mul_apply, Matrix.diagonal]
  have hlower : ∀ i j, j ≤ i →
      symmetric A n F.values (F.order.perm.get j) (F.order.perm.get i)
        = ∑ c, f.unitLower i c * f.D.get c * f.unitLower j c := by
    intro i j hji
    rw [← h.coefficient_upperValues hji, hexpands.product i j i.isLt hji]
  ext i j
  rw [happly]
  show symmetric A n F.values (F.order.perm.get i) (F.order.perm.get j) = _
  rcases Nat.le_total j.val i.val with hji | hij
  · rw [symmetric_comm]
    exact hlower i j hji
  · rw [hlower j i hij]
    apply Finset.sum_congr rfl
    intro c _
    ring

end Analysed

/-- The factors that are stored are those of the symmetric matrix `M`, which is put
in elimination order. -/
structure Factorises (F : Ldl K n) (M : Matrix (Fin n) (Fin n) K) : Prop where
  strictlyLower : StrictlyLower F.lower
  product : M.submatrix F.order.toEquiv F.order.toEquiv
    = (1 + columnMatrix F.lower) * diagonal F.D.get * (1 + columnMatrix F.lower)ᵀ
  ne_zero : ∀ k, F.D.get k ≠ 0
  recip : ∀ k, F.Dinv.get k = (F.D.get k)⁻¹
  positive : F.positive = (Finset.univ.filter fun k => 0 < F.D.get k).card

/-- A solve with the factors of a matrix solves its system. -/
theorem Factorises.solve_eq {F : Ldl K n} {M : Matrix (Fin n) (Fin n) K} (h : F.Factorises M)
    (hfactored : F.isFactored = true) (b : Vec K n) :
    ∃ x, F.solve? b = some x ∧ M *ᵥ x.get = b.get := by
  let b' : Vec K n := Vector.ofFn fun k => b.get (F.order.perm.get k)
  let z := solveLower F.lower b'
  let w := z.hadamard F.Dinv
  let y := solveLowerTranspose F.lower w
  refine ⟨Vector.ofFn fun i => y.get (F.order.position.get i), ?_, ?_⟩
  · rw [solve?, if_pos hfactored]
  · have hz : (1 + columnMatrix F.lower) *ᵥ z.get = b'.get := solveLower_eq h.strictlyLower b'
    have hw : diagonal F.D.get *ᵥ w.get = z.get := by
      ext k
      rw [mulVec_diagonal, Vec.get_hadamard, h.recip k, mul_comm (z.get k),
        mul_inv_cancel_left₀ (h.ne_zero k)]
    have hy : (1 + columnMatrix F.lower)ᵀ *ᵥ y.get = w.get :=
      solveLowerTranspose_eq h.strictlyLower w
    have hproduct : M.submatrix F.order.toEquiv F.order.toEquiv *ᵥ y.get = b'.get := by
      rw [h.product, ← mulVec_mulVec, ← mulVec_mulVec, hy, hw, hz]
    rw [submatrix_mulVec_equiv] at hproduct
    have hx : (Vector.ofFn fun i => y.get (F.order.position.get i)).get
        = y.get ∘ F.order.toEquiv.symm := by
      ext i
      rw [Vec.get_ofFn]
      rfl
    ext i
    have := congrFun hproduct (F.order.position.get i)
    simp only [Function.comp_apply] at this
    rw [hx]
    have hi : F.order.toEquiv (F.order.position.get i) = i := F.order.perm_position i
    rw [hi] at this
    rw [this, Vec.get_ofFn, F.order.perm_position]

/-- A matrix with factors is invertible, as every system is solved. -/
theorem Factorises.isUnit {F : Ldl K n} {M : Matrix (Fin n) (Fin n) K} (h : F.Factorises M)
    (hfactored : F.isFactored = true) : IsUnit M := by
  rw [← Matrix.mulVec_surjective_iff_isUnit]
  intro b
  obtain ⟨x, -, hx⟩ := h.solve_eq hfactored (Vector.ofFn b)
  refine ⟨x.get, hx.trans ?_⟩
  ext i
  rw [Vec.get_ofFn]

theorem countP_finRange (p : Fin n → Prop) [DecidablePred p] :
    (List.finRange n).countP (fun k => decide (p k)) = (Finset.univ.filter p).card := by
  rw [List.countP_eq_length_filter, Fin.univ_def]
  rfl

namespace Analysed

variable {A : Csc K} {F : Ldl K n}

/-- Valid factors are those of the current values. -/
theorem factorises (h : F.Analysed A) (hfactored : F.isFactored = true) :
    F.Factorises (symmetric A n F.values) := by
  obtain ⟨f, hf, hlower, hD, hDinv, hpositive⟩ := h.factored hfactored
  have hshaped := (Factors.compute_shaped F.forest F.upperValues).1 f hf
  have hpivoted := ((Factors.compute_expands h.fits).1 f hf).2
  have hcount := hpivoted.positive
  rw [List.take_of_length_le (by simp), countP_finRange] at hcount
  exact {
    strictlyLower := hlower ▸ hshaped.strictlyLower
    product := by
      rw [hlower, hD]
      exact h.submatrix_eq hf
    ne_zero := fun k => by
      rw [hD]
      exact hpivoted.ne_zero k k.isLt
    recip := fun k => by
      rw [hD, hDinv]
      exact hpivoted.recip k k.isLt
    positive := by rw [hpositive, hD, hcount] }

/-- A factorisation that succeeds leaves factors of the current values, and gives the number
of their positive pivots. -/
theorem factorises_of_factor (h : F.Analysed A) {p : Nat} (hp : F.factor.2 = .ok p) :
    F.factor.1.Factorises (symmetric A n F.values) ∧ F.factor.1.isFactored = true ∧
      F.factor.1.positive = p := by
  obtain ⟨hfactored, hpositive⟩ := factor_of_eq_ok hp
  have hfactors := h.factor.factorises hfactored
  rw [factor_values] at hfactors
  exact ⟨hfactors, hfactored, hpositive⟩

/-- A solve with valid factors solves the system of the current values. -/
theorem solve_eq (h : F.Analysed A) (hfactored : F.isFactored = true) (b : Vec K n) :
    ∃ x, F.solve? b = some x ∧ symmetric A n F.values *ᵥ x.get = b.get :=
  (h.factorises hfactored).solve_eq hfactored b

/-- The matrix of valid factors is invertible. -/
theorem isUnit (h : F.Analysed A) (hfactored : F.isFactored = true) :
    IsUnit (symmetric A n F.values) := (h.factorises hfactored).isUnit hfactored

end Analysed

/-- After a factorisation that succeeded and was followed by solves only, a solve
gives the solution of the system of the latest values, and so does any other
history, in any elimination order, that leads to the same values. -/
theorem solve_ready {A : Csc K} {values : Array K} {F : Ldl K n} (h : Ready A values F)
    (b : Vec K n) : ∃ x, F.solve? b = some x ∧ symmetric A n values *ᵥ x.get = b.get ∧
      ∀ G : Ldl K n, Ready A values G → G.solve? b = some x := by
  obtain ⟨hanalysed, rfl, hfactored⟩ := h.factored
  obtain ⟨x, hsolve, hx⟩ := hanalysed.solve_eq hfactored b
  refine ⟨x, hsolve, hx, fun G hG => ?_⟩
  obtain ⟨hG, hvalues, hGfactored⟩ := hG.factored
  obtain ⟨x', hsolve', hx'⟩ := hG.solve_eq hGfactored b
  rw [hvalues] at hx'
  have hunique : x'.get = x.get :=
    Matrix.mulVec_injective_of_isUnit (hanalysed.isUnit hfactored) (hx'.trans hx.symm)
  rw [hsolve', Vec.ext_get (congrFun hunique)]

/-- The pattern of a symmetric matrix without an entry in the middle of its
diagonal. -/
def hollowMatrix : Csc ℚ := ⟨3, 3, #[0, 1, 2, 4], #[0, 0, 1, 2], #[0, 0, 0, 0]⟩

/-- A history with a factorisation that finds no pivot. -/
def hollowHistory : List (Call ℚ 3) := [.refactor, .setValues #[2, 1, 3, 1]]

theorem solve_ready_hollow : ∃ F : Ldl ℚ 3, Ready hollowMatrix #[2, 1, 3, 1] F ∧
    ∀ b, ∃ x, F.solve? b = some x ∧ symmetric hollowMatrix 3 #[2, 1, 3, 1] *ᵥ x.get = b.get ∧
      ∀ G : Ldl ℚ 3, Ready hollowMatrix #[2, 1, 3, 1] G → G.solve? b = some x := by
  have hrun : (analyse hollowMatrix 3 (some #[2, 0, 1])).toOption.any
      (fun F => (F.calls hollowHistory).factor.2.isOk) = true := by
    decide +kernel
  cases hanalyse : analyse hollowMatrix 3 (some #[2, 0, 1]) with
  | error e =>
    rw [hanalyse] at hrun
    cases hrun
  | ok F₀ =>
    rw [hanalyse] at hrun
    have hcalls : (F₀.calls hollowHistory).factor.2.isOk = true := hrun
    cases hok : (F₀.calls hollowHistory).factor.2 with
    | error e =>
      rw [hok] at hcalls
      cases hcalls
    | ok k =>
      have hready : Ready hollowMatrix #[2, 1, 3, 1]
          (F₀.calls (hollowHistory ++ .refactor :: [].map .solve)) :=
        ⟨_, F₀, hollowHistory, k, [], hanalyse, rfl, hok, rfl⟩
      exact ⟨_, hready, solve_ready hready⟩

end QuadOpt.Ldl
