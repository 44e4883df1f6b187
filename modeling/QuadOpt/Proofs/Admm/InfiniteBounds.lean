/-
# Infinite bounds under equilibration

A bound that is infinite for the user is a large number, which is scaled like every
other; it still counts as infinite if the factor of its row is larger than the smallest
norm that is divided by. A round divides a row by at most a hundred. Several rounds
divide by more, but then each has found a large entry in the row, and as the columns are
divided as well, the entries bound the factor: a row whose entries are below the square
of the largest norm that is divided by keeps its infinite bounds through any number of
rounds. An entry of that size is enough for two rounds to lose them.

Key definitions: `ExactRoot`, `Problem.NoLower`, `Problem.NoUpper`,
`Equilibration.Ample`, `Session.RowRecedes`.
Key theorems: `Problem.Scaled.noLower_iff`, `Equilibration.balance_ample`,
`Problem.equilibrate_factor`, `Session.setup_keepsInfinite`.
-/
import Mathlib.Analysis.Real.Sqrt
import QuadOpt.Proofs.Admm.Bounds
import QuadOpt.Proofs.Admm.Convex
import QuadOpt.Proofs.Sparse.Norms

namespace QuadOpt

/-! ### Roots -/

/-- Square roots are exact. -/
class ExactRoot (K : Type) [Field K] [LinearOrder K] [ExactScalar K] : Prop where
  mul_self_sqrt : ∀ {x : K}, 0 < x → ExactScalar.sqrt x * ExactScalar.sqrt x = x

noncomputable instance : ExactScalar ℝ where
  sqrt := Real.sqrt
  sqrt_pos := Real.sqrt_pos.mpr
  infinity := 1e31
  nan := 0

instance : ExactRoot ℝ where
  mul_self_sqrt h := Real.mul_self_sqrt h.le

variable {K : Type} [Field K] [LinearOrder K] [IsStrictOrderedRing K] [ExactScalar K] {n m : Nat}

omit [IsStrictOrderedRing K] in
theorem clampScale_cases (x : K) :
    (x < Limits.minScaling ∧ clampScale x = 1) ∨
    (Limits.minScaling ≤ x ∧ clampScale x = min x Limits.maxScaling) := by
  unfold clampScale
  by_cases hx : x < Limits.minScaling
  · exact .inl ⟨hx, if_pos hx⟩
  · exact .inr ⟨not_lt.mp hx, if_neg hx⟩

theorem minScaling_lt_one : (Limits.minScaling : K) < 1 := by norm_num [Limits.minScaling]

theorem one_lt_maxScaling : (1 : K) < Limits.maxScaling := by norm_num [Limits.maxScaling]

theorem clampScale_le_max (x : K) : clampScale x ≤ Limits.maxScaling := by
  rcases clampScale_cases x with ⟨-, h⟩ | ⟨-, h⟩
  · rw [h]
    exact one_lt_maxScaling.le
  · rw [h]
    exact min_le_right _ _

omit [IsStrictOrderedRing K] in
/-- What a norm counts as is below a number that is above one and above the norm. -/
theorem clampScale_lt {x c : K} (hone : 1 < c) (hx : x < c) : clampScale x < c := by
  rcases clampScale_cases x with ⟨-, h⟩ | ⟨-, h⟩
  · rwa [h]
  · rw [h]
    exact (min_le_left _ _).trans_lt hx

/-- A norm that does not count as the largest counts as one that is not smaller. -/
theorem le_clampScale {x : K} (h : clampScale x < Limits.maxScaling) : x ≤ clampScale x := by
  rcases clampScale_cases x with ⟨hx, hclamp⟩ | ⟨-, hclamp⟩
  · rw [hclamp]
    exact (hx.trans minScaling_lt_one).le
  · rw [hclamp] at h ⊢
    rcases min_lt_iff.mp h with hx | hmax
    · exact le_min le_rfl hx.le
    · exact absurd hmax (lt_irrefl _)

/-! ### The factor of a row -/

namespace Problem

/-- Row `i` counts as one without a lower bound. -/
def NoLower (D : Problem K n m) (i : Fin m) : Prop := D.work.l.get i < -Limits.infiniteBound

/-- Row `i` counts as one without an upper bound. -/
def NoUpper (D : Problem K n m) (i : Fin m) : Prop := Limits.infiniteBound < D.work.u.get i

instance (D : Problem K n m) : DecidablePred D.NoLower := fun i =>
  inferInstanceAs (Decidable (D.work.l.get i < -Limits.infiniteBound))

instance (D : Problem K n m) : DecidablePred D.NoUpper := fun i =>
  inferInstanceAs (Decidable (Limits.infiniteBound < D.work.u.get i))

variable {D : Problem K n m} {i : Fin m}

theorem infinity_pos : (0 : K) < Limits.infinity := by norm_num [Limits.infinity]

omit [IsStrictOrderedRing K] in
theorem infiniteBound_eq : (Limits.infiniteBound : K) = Limits.minScaling * Limits.infinity :=
  mul_comm _ _

/-- An infinite bound still counts as one iff the factor of its row is large enough. -/
theorem Scaled.noLower_iff (h : D.Scaled) (hl : D.user.l.get i = -Limits.infinity) :
    D.NoLower i ↔ Limits.minScaling < D.scaling.e.get i := by
  rw [NoLower, h.l_eq, hl, infiniteBound_eq, mul_neg, neg_lt_neg_iff,
    mul_lt_mul_iff_left₀ infinity_pos]

theorem Scaled.noUpper_iff (h : D.Scaled) (hu : D.user.u.get i = Limits.infinity) :
    D.NoUpper i ↔ Limits.minScaling < D.scaling.e.get i := by
  rw [NoUpper, h.u_eq, hu, infiniteBound_eq, mul_lt_mul_iff_left₀ infinity_pos]

end Problem

namespace Equilibration

variable {D : Instance K n m} {S : Equilibration K n m} {i : Fin m}

/-- The square of the factor of row `i`, in terms of the largest norm that is divided by, is
above one and above the entries of the row. -/
structure Ample (S : Equilibration K n m) (i : Fin m) : Prop where
  one_lt : 1 < Limits.maxScaling ^ 2 * S.e.get i ^ 2
  entry_lt : ∀ j : Fin n, |S.A.csc.entry i j| < Limits.maxScaling ^ 2 * S.e.get i ^ 2

theorem start_ample (h : ∀ j : Fin n, |D.A.csc.entry i j| < Limits.maxScaling ^ 2) :
    (start D).Ample i := by
  have he : (start D).e.get i = 1 := Vec.get_fill 1 i
  constructor
  · rw [he, one_pow, mul_one]
    exact one_lt_pow₀ one_lt_maxScaling two_ne_zero
  · intro j
    rw [he, one_pow, mul_one]
    exact h j

omit [ExactScalar K] in
/-- Of an entry `a` and a bound `c` on it: the entry is divided by the roots `T` and `R` of
what its row and its column count as, and the bound by the square of the former. -/
theorem mul_roots_lt {a c T R : K} (ha : 0 ≤ a) (hac : a < c) (hT : 0 < T) (hR : 0 < R)
    (hTc : T * T < c) (h : T * T ≤ R * R ∨ a ≤ R * R) :
    a * (1 / T * (1 / R)) < c * (1 / T) ^ 2 := by
  have hc : 0 < c := ha.trans_lt hac
  have hTT : 0 < T * T := mul_pos hT hT
  have hRR : 0 < R * R := mul_pos hR hR
  have hsquares : a * T * (a * T) < c * R * (c * R) := by
    have hproduct : a * (a * (T * T)) < c * c * (R * R) := by
      rcases h with hle | hle
      · calc a * (a * (T * T)) = a * a * (T * T) := by ring
          _ ≤ a * a * (R * R) := mul_le_mul_of_nonneg_left hle (mul_nonneg ha ha)
          _ < c * c * (R * R) := mul_lt_mul_of_pos_right (mul_lt_mul'' hac hac ha ha) hRR
      · calc a * (a * (T * T)) ≤ R * R * (a * (T * T)) :=
            mul_le_mul_of_nonneg_right hle (mul_nonneg ha hTT.le)
          _ < R * R * (c * c) :=
            mul_lt_mul_of_pos_left (mul_lt_mul'' hac hTc ha hTT.le) hRR
          _ = c * c * (R * R) := by ring
    linarith [hproduct]
  have hroots : a * T < c * R := lt_of_mul_self_lt_mul_self₀ (mul_pos hc hR).le hsquares
  have hleft : a * (1 / T * (1 / R)) = a * T / (T * T * R) := by field_simp
  have hright : c * (1 / T) ^ 2 = c * R / (T * T * R) := by field_simp
  rw [hleft, hright]
  exact div_lt_div_of_pos_right hroots (mul_pos hTT hR)

variable [ExactRoot K]

/-- Rows and columns are divided by so much that the entries of a row do not get ahead of
its factor. -/
theorem balance_ample (h : S.Ample i) : S.balance.Ample i := by
  obtain ⟨hone, hentry⟩ := h
  generalize hc : Limits.maxScaling ^ 2 * S.e.get i ^ 2 = c at hone hentry
  -- What the row counts as is below the bound, as its entries are.
  generalize hrow : (S.A.csc.raiseRowNorms (Vec.fill m 0)).get i = row
  have hrow_lt : row < c := by
    rw [← hrow]
    exact (Csc.rowNorm_lt_iff S.A.valid S.A.cols_eq (one_pos.trans hone) i).mpr hentry
  have hclamp : clampScale row < c := clampScale_lt hone hrow_lt
  have hT : 0 < ExactScalar.sqrt (clampScale row) := ExactScalar.sqrt_pos (clampScale_pos row)
  have hTT : ExactScalar.sqrt (clampScale row) * ExactScalar.sqrt (clampScale row)
      = clampScale row := ExactRoot.mul_self_sqrt (clampScale_pos row)
  have hfactor : S.balance.e.get i = S.e.get i * (1 / ExactScalar.sqrt (clampScale row)) := by
    simp only [balance, Vec.get_hadamard, Vec.get_map, hrow]
    rfl
  have hbound : Limits.maxScaling ^ 2 * S.balance.e.get i ^ 2
      = c * (1 / ExactScalar.sqrt (clampScale row)) ^ 2 := by
    rw [hfactor, ← hc]
    ring
  constructor
  · rw [hbound, one_div, inv_pow, ← div_eq_mul_inv, one_lt_div (pow_pos hT 2), sq, hTT]
    exact hclamp
  · intro j
    rw [hbound]
    generalize hcol : (S.A.csc.raiseColNorms (S.P.csc.raiseSymNorms (Vec.fill n 0))).get j = col
    have hcol_le : |S.A.csc.entry i j| ≤ col := by
      have hbase : (0 : K) ≤ (S.P.csc.raiseSymNorms (Vec.fill n 0)).get j :=
        (Vec.get_fill (0 : K) j).ge.trans (Csc.le_raiseSymNorms _ _ j)
      rw [← hcol]
      exact Csc.abs_entry_le_colNorm S.A.valid hbase i
    have hR : 0 < ExactScalar.sqrt (clampScale col) := ExactScalar.sqrt_pos (clampScale_pos col)
    have hRR : ExactScalar.sqrt (clampScale col) * ExactScalar.sqrt (clampScale col)
        = clampScale col := ExactRoot.mul_self_sqrt (clampScale_pos col)
    have hscaled : S.balance.A.csc.entry i j = S.A.csc.entry i j
        * (1 / ExactScalar.sqrt (clampScale row) * (1 / ExactScalar.sqrt (clampScale col))) := by
      simp only [balance, SparseMatrix.scaleSides]
      rw [Csc.entry_scaleSides S.A.valid, Vec.get_map, Vec.get_map, hrow, hcol]
      rfl
    rw [hscaled, abs_mul, abs_of_pos (mul_pos (one_div_pos.mpr hT) (one_div_pos.mpr hR))]
    refine mul_roots_lt (abs_nonneg _) (hentry j) hT hR (hTT.symm ▸ hclamp) ?_
    -- A column that counts as less than the row is not divided by less than the entry.
    rw [hTT, hRR]
    by_cases hle : clampScale row ≤ clampScale col
    · exact .inl hle
    · have hcol_lt : clampScale col < Limits.maxScaling :=
        (not_le.mp hle).trans_le (clampScale_le_max row)
      exact .inr (hcol_le.trans (le_clampScale hcol_lt))

/-- The objective is scaled without a change of the rows. -/
theorem repeat_ample (h : S.Ample i) (k : Nat) : (Nat.repeat round k S).Ample i := by
  induction k with
  | zero => exact h
  | succ k ih =>
    have hbalanced := balance_ample ih
    exact ⟨hbalanced.one_lt, hbalanced.entry_lt⟩

omit [IsStrictOrderedRing K] [ExactRoot K] in
theorem minScaling_eq [IsStrictOrderedRing K] : (Limits.minScaling : K) = 1 / Limits.maxScaling := by
  norm_num [Limits.minScaling, Limits.maxScaling]

omit [ExactRoot K] in
theorem Ample.minScaling_lt (h : S.Ample i) (he : 0 < S.e.get i) :
    Limits.minScaling < S.e.get i := by
  have hmax : (0 : K) < Limits.maxScaling := one_pos.trans one_lt_maxScaling
  have hone := h.one_lt
  rw [← mul_pow, one_lt_sq_iff₀ (mul_pos hmax he).le] at hone
  rw [minScaling_eq, div_lt_iff₀' hmax]
  exact hone

/-- One round divides by the root of the largest norm at most. -/
theorem minScaling_lt_scalingFactor (x : K) : Limits.minScaling < scalingFactor x := by
  have hmax : (1 : K) < Limits.maxScaling := one_lt_maxScaling
  have hpos := ExactScalar.sqrt_pos (clampScale_pos x)
  have hroot : ExactScalar.sqrt (clampScale x) < Limits.maxScaling := by
    by_contra hnot
    have hle : Limits.maxScaling * Limits.maxScaling ≤ (Limits.maxScaling : K) :=
      calc Limits.maxScaling * Limits.maxScaling
          ≤ ExactScalar.sqrt (clampScale x) * ExactScalar.sqrt (clampScale x) :=
            mul_self_le_mul_self (one_pos.trans hmax).le (not_lt.mp hnot)
        _ = clampScale x := ExactRoot.mul_self_sqrt (clampScale_pos x)
        _ ≤ Limits.maxScaling := clampScale_le_max x
    exact absurd hle (not_le.mpr ((lt_mul_iff_one_lt_left (one_pos.trans hmax)).mpr hmax))
  rw [minScaling_eq]
  exact one_div_lt_one_div_of_lt hpos hroot

end Equilibration

namespace Problem

variable [ExactRoot K]

/-- The factor of a row stays above the smallest norm that is divided by in one round, and
in any number of them if no entry of the row reaches the square of the largest. -/
theorem equilibrate_factor (D : Problem K n m) {rounds : Nat} {i : Fin m}
    (h : rounds ≤ 1 ∨ ∀ j : Fin n, |D.user.A.csc.entry i j| < Limits.maxScaling ^ 2) :
    Limits.minScaling < (D.equilibrate rounds).scaling.e.get i := by
  rcases h with hrounds | hentries
  · have hstart : (Equilibration.start D.user).e.get i = 1 := Vec.get_fill 1 i
    rcases Nat.le_one_iff_eq_zero_or_eq_one.mp hrounds with rfl | rfl
    · show Limits.minScaling < (Equilibration.start D.user).e.get i
      rw [hstart]
      exact minScaling_lt_one
    · show Limits.minScaling < (Equilibration.start D.user).balance.e.get i
      simp only [Equilibration.balance, Vec.get_hadamard, Vec.get_map, hstart, one_mul]
      exact Equilibration.minScaling_lt_scalingFactor _
  · have hscales := Equilibration.repeat_scales rounds (Equilibration.start_scales D.user)
    exact (Equilibration.repeat_ample (Equilibration.start_ample hentries) rounds).minScaling_lt
      (hscales.e_pos i)

end Problem

/-! ### How rows with infinite bounds are treated -/

namespace Session

variable {S : Session K n m} {i : Fin m}

/-- What the test of a direction asks of row `i`: where a side counts as bounded, the row
does not move towards it. -/
def RowRecedes (S : Session K n m) (Av : Vec K m) (tol : K) (i : Fin m) : Prop :=
  (S.data.work.u.get i < Limits.infiniteBound →
    Av.get i * S.data.scaling.einv.get i ≤ tol) ∧
  (-Limits.infiniteBound < S.data.work.l.get i →
    -tol ≤ Av.get i * S.data.scaling.einv.get i)

omit [IsStrictOrderedRing K] in
theorem inRecession_iff {Av : Vec K m} {tol : K} :
    S.inRecession Av tol = true ↔ ∀ i, S.RowRecedes Av tol i := by
  simp only [inRecession, RowRecedes, List.all_eq_true, List.mem_finRange, true_implies,
    Bool.not_eq_true', Bool.or_eq_false_iff, Bool.and_eq_false_imp, decide_eq_true_eq,
    decide_eq_false_iff_not, not_lt]

omit [IsStrictOrderedRing K] in
/-- A row that passes leaves the test to the other rows. -/
theorem RowRecedes.inRecession_iff {Av : Vec K m} {tol : K} (h : S.RowRecedes Av tol i) :
    S.inRecession Av tol = true ↔ ∀ k ≠ i, S.RowRecedes Av tol k := by
  rw [Session.inRecession_iff]
  constructor
  · intro hall k _
    exact hall k
  · intro hothers k
    by_cases hk : k = i
    · rwa [hk]
    · exact hothers k hk

/-- Row `i` is dealt with as one without a lower bound if `noLower`, and without an upper
one if `noUpper`: it is of the kind without bounds if it has none, a change of multipliers
that proves infeasibility pushes against bounds that there are, and the test of a direction
that leaves through a side without a bound depends on the other rows only. -/
structure TreatedAs (S : Session K n m) (i : Fin m) (noLower noUpper : Prop) : Prop where
  free : noLower → noUpper → S.system.kinds.get i = .free
  nonneg : noLower → 0 ≤ S.projectedChange.get i
  nonpos : noUpper → S.projectedChange.get i ≤ 0
  falls : noLower → ∀ Av tol, Av.get i * S.data.scaling.einv.get i ≤ tol →
    (S.inRecession Av tol = true ↔ ∀ k ≠ i, S.RowRecedes Av tol k)
  rises : noUpper → ∀ Av tol, -tol ≤ Av.get i * S.data.scaling.einv.get i →
    (S.inRecession Av tol = true ↔ ∀ k ≠ i, S.RowRecedes Av tol k)
  ignored : noLower → noUpper → ∀ Av tol,
    (S.inRecession Av tol = true ↔ ∀ k ≠ i, S.RowRecedes Av tol k)

omit [IsStrictOrderedRing K] in
theorem get_projectedChange : S.projectedChange.get i =
    if S.data.NoUpper i ∧ S.data.NoLower i then 0
    else if S.data.NoUpper i then min (S.vars.deltaY.get i) 0
    else if S.data.NoLower i then max (S.vars.deltaY.get i) 0
    else S.vars.deltaY.get i :=
  Vec.get_ofFn _ _

omit [IsStrictOrderedRing K] in
theorem treatedAs {noLower noUpper : Prop} (hlower : noLower → S.data.NoLower i)
    (hupper : noUpper → S.data.NoUpper i)
    (hkind : S.system.kinds.get i
      = .classify (S.data.work.l.get i) (S.data.work.u.get i)) :
    S.TreatedAs i noLower noUpper where
  free hl hu := hkind.trans (if_pos ⟨hlower hl, hupper hu⟩)
  nonneg hl := by
    rw [get_projectedChange]
    by_cases hu : S.data.NoUpper i
    · rw [if_pos ⟨hu, hlower hl⟩]
    · rw [if_neg fun h => hu h.1, if_neg hu, if_pos (hlower hl)]
      exact le_max_right _ _
  nonpos hu := by
    rw [get_projectedChange]
    by_cases hl : S.data.NoLower i
    · rw [if_pos ⟨hupper hu, hl⟩]
    · rw [if_neg fun h => hl h.2, if_pos (hupper hu)]
      exact min_le_right _ _
  falls hl Av tol hle := by
    have hrow : S.RowRecedes Av tol i :=
      ⟨fun _ => hle, fun hbound => absurd hbound (hlower hl).asymm⟩
    exact hrow.inRecession_iff
  rises hu Av tol hle := by
    have hrow : S.RowRecedes Av tol i :=
      ⟨fun hbound => absurd hbound (hupper hu).asymm, fun _ => hle⟩
    exact hrow.inRecession_iff
  ignored hl hu Av tol := by
    have hrow : S.RowRecedes Av tol i := ⟨fun hbound => absurd hbound (hupper hu).asymm,
      fun hbound => absurd hbound (hlower hl).asymm⟩
    exact hrow.inRecession_iff

/-- After a setup, an infinite bound counts as one iff the factor of its row is above the
smallest norm that is divided by. So it is after one round of equilibration at most, and
after any number of rounds if no entry of the row reaches the square of the largest norm;
rows with infinite bounds are then treated as having none, by every session that keeps the
data and the kinds of the constraints. -/
theorem setup_keepsInfinite [ExactRoot K] {env : Environment K} {D : QpData K}
    {settings : Settings K} {A : AdmmSession K} (h : AdmmSession.setup env D settings = .ok A)
    (i : Fin A.m) :
    let W := A.session.data
    (W.user.l.get i = -Limits.infinity → (W.NoLower i ↔ Limits.minScaling < W.scaling.e.get i)) ∧
    (W.user.u.get i = Limits.infinity → (W.NoUpper i ↔ Limits.minScaling < W.scaling.e.get i)) ∧
    (settings.scaling.toNat ≤ 1 ∨ (∀ j : Fin A.n, |W.user.A.csc.entry i j| < Limits.maxScaling ^ 2) →
      (W.user.l.get i = -Limits.infinity → W.NoLower i) ∧
      (W.user.u.get i = Limits.infinity → W.NoUpper i) ∧
      ∀ S : Session K A.n A.m, S.data = W → S.system.kinds = A.session.system.kinds →
        S.TreatedAs i (W.user.l.get i = -Limits.infinity)
          (W.user.u.get i = Limits.infinity)) := by
  intro W
  obtain ⟨I, -, -, hdata⟩ := setup_data h
  have hscaled : W.Scaled := by
    rw [show W = _ from hdata]
    exact Problem.equilibrate_scaled _ _
  refine ⟨hscaled.noLower_iff, hscaled.noUpper_iff, fun hcase => ?_⟩
  have hfactor : Limits.minScaling < W.scaling.e.get i := by
    rw [show W = _ from hdata] at hcase ⊢
    exact Problem.equilibrate_factor _ hcase
  have hlower : W.user.l.get i = -Limits.infinity → W.NoLower i := fun hl =>
    (hscaled.noLower_iff hl).mpr hfactor
  have hupper : W.user.u.get i = Limits.infinity → W.NoUpper i := fun hu =>
    (hscaled.noUpper_iff hu).mpr hfactor
  refine ⟨hlower, hupper, fun S hS hkinds => ?_⟩
  have hkind := (setup_filled h).current.kinds i
  rw [← hkinds, show A.session.data = S.data from hS.symm] at hkind
  exact treatedAs (fun hl => hS ▸ hlower hl) (fun hu => hS ▸ hupper hu) hkind

end Session

/-- The number closest to zero of which a multiple is at most one. -/
def halfLine (a : K) : Instance K 1 1 where
  P := ⟨⟨1, 1, #[0, 1], #[0], #[1]⟩, rfl, rfl, Csc.valid_of_validate rfl⟩
  q := #v[0]
  A := ⟨⟨1, 1, #[0, 1], #[0], #[a]⟩, rfl, rfl, Csc.valid_of_validate rfl⟩
  l := #v[-1e30]
  u := #v[1]
  upper := rfl

theorem halfLine_acceptable (a : K) : (halfLine a).Acceptable where
  formatP := rfl
  formatA := rfl
  finiteP := by simp [halfLine, Instance.toQpData, Scalar.isFinite]
  finiteA := by simp [halfLine, Instance.toQpData, Scalar.isFinite]
  finiteq := by simp [halfLine, Instance.toQpData, Scalar.isFinite]
  lower := by simp [halfLine, Instance.toQpData, Scalar.isNaN]
  upper := by simp [halfLine, Instance.toQpData, Scalar.isNaN]
  uncrossed i := by
    have hbounds : (-1e30 : K) ≤ 1 := by norm_num
    rw [Subsingleton.elim i 0]
    exact not_lt.mpr hbounds

omit [LinearOrder K] [IsStrictOrderedRing K] [ExactScalar K] in
theorem halfLine_entry (a : K) (j : Fin 1) : (halfLine a).A.csc.entry 0 j = a := by
  have hentries : (halfLine a).A.csc.entries = [(0, 0, a)] := rfl
  simp [Csc.entry, hentries, entrySum]

omit [ExactScalar K] in
theorem halfLine_convex (a : K) : (halfLine a).Convex :=
  Instance.convex_of_entries zero_le_one rfl rfl

namespace Session

/-- In ten rounds a row with an entry of ten millions keeps its infinite bound. -/
theorem setup_keepsInfinite_halfLine : ∃ A : AdmmSession ℝ,
    AdmmSession.setup (.still ℝ) (halfLine (1e7 : ℝ)).toQpData .default = .ok A ∧
    ∃ i : Fin A.m, A.session.data.user.l.get i = -Limits.infinity ∧
      (∀ j : Fin A.n, |A.session.data.user.A.csc.entry i j| < Limits.maxScaling ^ 2) ∧
      A.session.data.NoLower i ∧
      A.session.TreatedAs i (A.session.data.user.l.get i = -Limits.infinity)
        (A.session.data.user.u.get i = Limits.infinity) := by
  have hlegal : (Settings.default : Settings ℝ).validate = .ok () := by
    have htime : (0 : Float) < (Settings.default : Settings ℝ).timeLimit := by decide +kernel
    rw [Settings.validate_eq_ok_iff]
    norm_num [Settings.default] at htime ⊢
    exact ⟨by decide, htime⟩
  obtain ⟨A, hA⟩ : ∃ A, AdmmSession.setup (.still ℝ) (halfLine (1e7 : ℝ)).toQpData .default
      = .ok A :=
    exists_setup (fun _ _ h => by cases h) (Nat.le_of_ble_eq_true rfl)
      (Nat.le_of_ble_eq_true rfl) hlegal
      (QpData.validate_eq_ok_iff.mpr ⟨rfl, halfLine_acceptable 1e7⟩) (halfLine_convex 1e7)
  have hmade := hA
  rw [AdmmSession.setup_toQpData _ (halfLine_acceptable 1e7) hlegal] at hmade
  cases hS : Session.setup (.still ℝ) (halfLine (1e7 : ℝ)) .default with
  | error e =>
    rw [hS] at hmade
    cases hmade
  | ok S =>
    rw [hS] at hmade
    cases hmade
    have huser := setup_userData hA
    have hl : S.data.user.l.get 0 = -Limits.infinity := by
      rw [show S.data.user.l = clampLower (halfLine (1e7 : ℝ)).l from
        Vector.toArray_inj.mp (congrArg QpData.l huser), clampLower, Vec.get_map]
      exact max_self _
    have hentries : ∀ j : Fin 1, |S.data.user.A.csc.entry 0 j| < Limits.maxScaling ^ 2 := by
      intro j
      rw [show S.data.user.A.csc = (halfLine (1e7 : ℝ)).A.csc from congrArg QpData.A huser,
        halfLine_entry]
      norm_num [Limits.maxScaling]
    obtain ⟨-, -, hkeeps⟩ := setup_keepsInfinite hA (0 : Fin 1)
    obtain ⟨hlower, -, htreated⟩ := hkeeps (.inr hentries)
    exact ⟨_, hA, (0 : Fin 1), hl, hentries, hlower hl, htreated _ rfl rfl⟩

/-- Two rounds divide a row by the largest norm if its entry is the square of that, and its
infinite bound does not count as one any more. -/
theorem setup_losesInfinite : ∃ A : AdmmSession ℚ,
    AdmmSession.setup (.still ℚ) (halfLine (1e8 : ℚ)).toQpData { plainSettings with scaling := 2 }
      = .ok A ∧ ∃ i : Fin A.m,
      A.session.data.user.l.get i = -Limits.infinity ∧ ¬A.session.data.NoLower i := by
  have hrun : (match AdmmSession.setup (.still ℚ) (halfLine (1e8 : ℚ)).toQpData
      { plainSettings with scaling := 2 } with
    | .error _ => false
    | .ok A => decide (∃ i : Fin A.m,
      A.session.data.user.l.get i = -Limits.infinity ∧ ¬A.session.data.NoLower i)) = true := by
    decide +kernel
  split at hrun
  · cases hrun
  · rename_i A hA
    exact ⟨A, hA, of_decide_eq_true hrun⟩

end Session
end QuadOpt
