/-
# Where a NaN in the iterate shows

In an arithmetic in which sums and products with a NaN are NaN, a NaN in the iterate of
a solve shows in the objective, and in those residuals of which the norm is taken in
scaled coordinates. The residuals that are tested do not show it: their norm passes over
a NaN, so a solve may end as solved with a point that has no value.

Key definitions: `Session.NaNShows`.
Key theorems: `Vec.isNaN_normInf`, `Vec.isNaN_normInfWeighted`, `Csc.isNaN_mulVec`,
`Session.residuals_nanShows`, `Session.solve_nanShows`.
-/
import QuadOpt.Proofs.Admm.Accuracy
import QuadOpt.Proofs.Admm.Verdict
import QuadOpt.Proofs.Binary64

namespace QuadOpt

open Scalar PropagatesNaN

variable {α : Type} [Scalar α] [PropagatesNaN α] {n m : Nat}

/-! ### Sums and norms -/

/-- A sum with a NaN is NaN. -/
theorem isNaN_foldl_add {β : Type} (f : β → α) (l : List β) (s : α)
    (h : isNaN s = true ∨ ∃ e ∈ l, isNaN (f e) = true) :
    isNaN (l.foldl (fun s e => s + f e) s) = true := by
  induction l generalizing s with
  | nil =>
    rcases h with hs | ⟨e, he, -⟩
    · exact hs
    · cases he
  | cons e l ih =>
    rw [List.foldl_cons]
    apply ih
    rcases h with hs | ⟨e', he', hnan⟩
    · exact .inl (isNaN_add_left _ hs)
    · rcases List.mem_cons.mp he' with rfl | hmem
      · exact .inl (isNaN_add_right _ hnan)
      · exact .inr ⟨e', hmem, hnan⟩

namespace Vec

theorem isNaN_dot (v : Vec α n) {w : Vec α n} {j : Fin n} (h : isNaN (w.get j) = true) :
    isNaN (v.dot w) = true := by
  unfold dot
  rw [zip_toList]
  apply isNaN_foldl_add
  exact .inr ⟨(v.get j, w.get j), List.mem_map.mpr ⟨j, List.mem_finRange j, rfl⟩,
    isNaN_mul_right _ h⟩

/-- The norm in scaled coordinates reports a NaN. -/
theorem isNaN_normInf {v : Vec α n} {j : Fin n} (h : isNaN (v.get j) = true) :
    isNaN v.normInf = true := by
  have hany : v.toList.any isNaN = true := by
    rw [toList_eq_map_get, List.any_map, List.any_eq_true]
    exact ⟨j, List.mem_finRange j, h⟩
  unfold normInf
  rw [if_pos hany]
  exact isNaN_nan h

/-- The norm in the coordinates of the user passes over a NaN, whatever the vectors are. -/
theorem isNaN_normInfWeighted (v w : Vec α n) : isNaN (v.normInfWeighted w) = false := by
  unfold normInfWeighted
  generalize v.toList.zip w.toList = l
  have hfold : ∀ t : α, isNaN t = false →
      isNaN (l.foldl (fun (t : α) p => maxNum t (Scalar.abs (p.1 * p.2))) t) = false := by
    induction l with
    | nil => exact fun t ht => ht
    | cons p l ih =>
      intro t ht
      rw [List.foldl_cons]
      exact ih _ (OrderedScalar.isNaN_maxNum_left ht _)
  exact hfold 0 isNaN_zero

theorem isNaN_addAt {v : Vec α n} {i : Fin n} (k : Nat) (t : α)
    (h : isNaN (v.get i) = true ∨ k = i.val ∧ isNaN t = true) :
    isNaN ((v.addAt k t).get i) = true := by
  rw [get_addAt]
  split
  · rcases h with hv | ⟨-, ht⟩
    · exact isNaN_add_left _ hv
    · exact isNaN_add_right _ ht
  · rename_i hk
    exact h.resolve_right fun h => hk h.1

end Vec

/-! ### Products -/

namespace Csc

omit [PropagatesNaN α] in
/-- The entries that are added into a vector one after another: a NaN that is there, or is
added, stays. -/
theorem isNaN_foldl_addAt {β : Type} (step : Vec α m → β → Vec α m) {i : Fin m} {e : β}
    (hkeeps : ∀ v e', isNaN (v.get i) = true → isNaN ((step v e').get i) = true)
    (hadds : ∀ v, isNaN ((step v e).get i) = true) (l : List β) (v : Vec α m)
    (h : isNaN (v.get i) = true ∨ e ∈ l) : isNaN ((l.foldl step v).get i) = true := by
  induction l generalizing v with
  | nil => exact h.resolve_right List.not_mem_nil
  | cons e' l ih =>
    rw [List.foldl_cons]
    apply ih
    rcases h with hv | hmem
    · exact .inl (hkeeps v e' hv)
    · rcases List.mem_cons.mp hmem with rfl | hmem
      · exact .inl (hadds v)
      · exact .inr hmem

/-- A row of a product is NaN if a stored entry of the row meets a NaN. -/
theorem isNaN_mulVec {M : Csc α} {x : Vec α n} {e : Nat × Nat × α} (he : e ∈ M.entries)
    {i : Fin m} (hi : e.1 = i) (h : isNaN (x.coord e.2.1) = true) :
    isNaN ((M.mulVec m x).get i) = true := by
  unfold mulVec mulVecAdd
  simp only [one_beq_zero, Bool.false_eq_true, if_false]
  have hkeeps : ∀ (v : Vec α m) (e' : Nat × Nat × α), isNaN (v.get i) = true →
      isNaN ((v.addAt e'.1 (1 * e'.2.2 * x.coord e'.2.1)).get i) = true :=
    fun _ _ hv => Vec.isNaN_addAt _ _ (.inl hv)
  have hadds : ∀ v : Vec α m, isNaN ((v.addAt e.1 (1 * e.2.2 * x.coord e.2.1)).get i) = true :=
    fun _ => Vec.isNaN_addAt _ _ (.inr ⟨hi, isNaN_mul_right _ h⟩)
  exact isNaN_foldl_addAt _ hkeeps hadds _ _ (.inr he)

theorem isNaN_transposeMulVec {M : Csc α} {y : Vec α m} {e : Nat × Nat × α} (he : e ∈ M.entries)
    {j : Fin n} (hj : e.2.1 = j) (h : isNaN (y.coord e.1) = true) :
    isNaN ((M.transposeMulVec n y).get j) = true := by
  have hcolumn : isNaN (M.columnDot y j) = true := by
    obtain ⟨-, hmem⟩ := mem_entries.mp he
    rw [hj] at hmem
    exact isNaN_foldl_add _ _ _ (.inr ⟨_, hmem, isNaN_mul_right _ h⟩)
  unfold transposeMulVec transposeMulVecAdd
  simp only [one_beq_zero, Bool.false_eq_true, if_false, Vec.get_ofFn]
  exact isNaN_add_right _ (isNaN_mul_right _ hcolumn)

/-- An entry of a symmetric product is NaN if a stored entry, or its mirror image, meets a
NaN. -/
theorem isNaN_symMulVec {M : Csc α} {x : Vec α n} {e : Nat × Nat × α} (he : e ∈ M.entries)
    {i : Fin n} (h : e.1 = i ∧ isNaN (x.coord e.2.1) = true ∨
      e.2.1 = i ∧ isNaN (x.coord e.1) = true) :
    isNaN ((M.symMulVec x).get i) = true := by
  unfold symMulVec symMulVecAdd
  refine isNaN_foldl_addAt _ (fun v e' hv => ?_) (fun v => ?_) _ _ (.inr he)
  · have hfirst := Vec.isNaN_addAt e'.1 (1 * e'.2.2 * x.coord e'.2.1) (.inl hv)
    dsimp only
    split
    · exact hfirst
    · exact Vec.isNaN_addAt _ _ (.inl hfirst)
  · dsimp only
    rcases h with ⟨hi, hx⟩ | ⟨hi, hx⟩
    · have hfirst : isNaN ((v.addAt e.1 (1 * e.2.2 * x.coord e.2.1)).get i) = true :=
        Vec.isNaN_addAt _ _ (.inr ⟨hi, isNaN_mul_right _ hx⟩)
      split
      · exact hfirst
      · exact Vec.isNaN_addAt _ _ (.inl hfirst)
    · split
      · -- on the diagonal the entry is its own mirror image
        rename_i hdiagonal
        rw [← hdiagonal] at hi ⊢
        exact Vec.isNaN_addAt _ _ (.inr ⟨hi, isNaN_mul_right _ hx⟩)
      · exact Vec.isNaN_addAt _ _ (.inr ⟨hi, isNaN_mul_right _ hx⟩)

end Csc

/-! ### Residuals -/

namespace Session

/-- A NaN in the iterate shows in the objective, and in the residuals in scaled coordinates
wherever a stored entry of the matrices meets it. The residual that is tested for the
constraints does not show it. -/
structure NaNShows (D : Problem α n m) (v : Iterate α n m) (R : Residuals α) : Prop where
  objective : ∀ j, isNaN (v.x.get j) = true → isNaN R.objective = true
  point : ∀ e ∈ D.work.A.csc.entries, isNaN (v.x.coord e.2.1) = true → isNaN R.primScaled = true
  projection : ∀ i, isNaN (v.z.get i) = true → isNaN R.primScaled = true
  multipliers : ∀ e ∈ D.work.A.csc.entries, isNaN (v.y.coord e.1) = true →
    isNaN R.dualScaled = true
  gradient : ∀ e ∈ D.work.P.csc.entries, (isNaN (v.x.coord e.1) = true ∨
    isNaN (v.x.coord e.2.1) = true) → isNaN R.dualScaled = true
  tested : isNaN R.prim = false

theorem residuals_nanShows (D : Problem α n m) (v : Iterate α n m) :
    NaNShows D v (residuals D v) where
  objective j h := by
    have hlinear : isNaN (D.work.q.dot v.x) = true := Vec.isNaN_dot _ h
    exact isNaN_mul_right _ (isNaN_add_right _ hlinear)
  point e he h := by
    have hrow : e.1 < m := D.work.A.rows_eq ▸ (Csc.entries_lt D.work.A.valid he).1
    have hproduct : isNaN ((D.work.A.csc.mulVec m v.x).get ⟨e.1, hrow⟩) = true :=
      Csc.isNaN_mulVec he rfl h
    apply Vec.isNaN_normInf (j := ⟨e.1, hrow⟩)
    rw [Vec.get_combine]
    exact isNaN_add_left _ (isNaN_mul_right _ hproduct)
  projection i h := by
    apply Vec.isNaN_normInf (j := i)
    rw [Vec.get_combine]
    exact isNaN_add_right _ (isNaN_mul_right _ h)
  multipliers e he h := by
    have hcolumn : e.2.1 < n := D.work.A.cols_eq ▸ (Csc.entries_lt D.work.A.valid he).2
    have hproduct : isNaN ((D.work.A.csc.transposeMulVec n v.y).get ⟨e.2.1, hcolumn⟩) = true :=
      Csc.isNaN_transposeMulVec he rfl h
    apply Vec.isNaN_normInf (j := ⟨e.2.1, hcolumn⟩)
    rw [Vec.get_ofFn]
    exact isNaN_add_right _ hproduct
  gradient e he h := by
    obtain ⟨hrow, hcolumn⟩ := Csc.entries_lt D.work.P.valid he
    rw [D.work.P.rows_eq] at hrow
    rw [D.work.P.cols_eq] at hcolumn
    obtain ⟨i, hi⟩ : ∃ i : Fin n, isNaN ((D.work.P.csc.symMulVec v.x).get i) = true := by
      rcases h with h | h
      · exact ⟨⟨e.2.1, hcolumn⟩, Csc.isNaN_symMulVec he (.inr ⟨rfl, h⟩)⟩
      · exact ⟨⟨e.1, hrow⟩, Csc.isNaN_symMulVec he (.inl ⟨rfl, h⟩)⟩
    apply Vec.isNaN_normInf (j := i)
    rw [Vec.get_ofFn]
    exact isNaN_add_left _ (isNaN_add_left _ hi)
  tested := Vec.isNaN_normInfWeighted _ _

/-! ### Solves -/

/-- What a solve publishes, unless it finds the problem infeasible, is its last iterate. A
NaN in it shows in the objective that is reported, and in the residuals in scaled
coordinates; the reported residual of the constraints is a number all the same. -/
theorem solve_nanShows {S T : Session α n m} {env : Environment α}
    (hsolve : S.call env .solve = (.ok (), T)) (hstatus : T.info.status.isInfeasible = false) :
    T.solution.x = T.userPoint.1.toArray ∧ T.solution.y = T.userPoint.2.toArray ∧
      T.info.objVal = T.res.objective ∧ T.info.primRes = T.res.prim ∧
      NaNShows T.data T.vars T.res := by
  have hsolve : S.solve env = (.ok (), T) := hsolve
  obtain ⟨hx, hy, hobjective, hprim, -⟩ := solve_published hsolve hstatus
  refine ⟨hx, hy, hobjective, hprim, ?_⟩
  rw [solve_measured hsolve]
  exact residuals_nanShows T.data T.vars

end Session

/-- Minimise `½ x² - x` for `x` between zero and one half, in the binary64 format. -/
def binaryUnitProblem : QpData Float where
  P := ⟨1, 1, #[0, 1], #[0], #[1]⟩
  q := #[-1]
  A := ⟨1, 1, #[0, 1], #[0], #[1]⟩
  l := #[0]
  u := #[0.5]

namespace Session

/-- The unit problem is solved from a start point that is NaN. -/
theorem binaryUnitProblem_run :
    (match AdmmSession.setup (.still Float) binaryUnitProblem .default with
      | .error _ => false
      | .ok S => match S.session.call (.still Float) (.warmStart (some #[nan]) none) with
        | (.error _, _) => false
        | (.ok (), T) => match T.call (.still Float) .solve with
          | (.error _, _) => false
          | (.ok (), U) => U.info.status == .solved && U.solution.x.any isNaN &&
              U.solution.y.any isNaN) = true := by
  decide +kernel

theorem solve_nanShows_binaryUnitProblem :
    ∃ (S : AdmmSession Float) (T U : Session Float S.n S.m),
      S.session.call (.still Float) (.warmStart (some #[nan]) none) = (.ok (), T) ∧
      T.call (.still Float) .solve = (.ok (), U) ∧ U.info.status.isInfeasible = false ∧
      U.info.objVal = U.res.objective ∧ NaNShows U.data U.vars U.res := by
  have hrun := binaryUnitProblem_run
  split at hrun
  · cases hrun
  · rename_i S hsetup
    split at hrun
    · cases hrun
    · rename_i T hstart
      split at hrun
      · cases hrun
      · rename_i U hsolve
        simp only [Bool.and_eq_true] at hrun
        have hstatus : U.info.status.isInfeasible = false := by
          rw [eq_of_beq hrun.1.1]
          rfl
        obtain ⟨-, -, hobjective, -, hshows⟩ := solve_nanShows hsolve hstatus
        exact ⟨S, T, U, hstart, hsolve, hstatus, hobjective, hshows⟩

/-- A start point that is NaN is accepted, and the next solve ends as solved with a point
and multipliers that are NaN. -/
theorem exists_solved_nan :
    ∃ (S : AdmmSession Float) (T U : Session Float S.n S.m),
      AdmmSession.setup (.still Float) binaryUnitProblem .default = .ok S ∧
      S.session.call (.still Float) (.warmStart (some #[nan]) none) = (.ok (), T) ∧
      T.call (.still Float) .solve = (.ok (), U) ∧ U.info.status = .solved ∧
      (∃ t ∈ U.solution.x, isNaN t = true) ∧ ∃ t ∈ U.solution.y, isNaN t = true := by
  have hrun := binaryUnitProblem_run
  split at hrun
  · cases hrun
  · rename_i S hsetup
    split at hrun
    · cases hrun
    · rename_i T hstart
      split at hrun
      · cases hrun
      · rename_i U hsolve
        simp only [Bool.and_eq_true, Array.any_eq_true'] at hrun
        obtain ⟨⟨hstatus, hx⟩, hy⟩ := hrun
        exact ⟨S, T, U, hsetup, hstart, hsolve, eq_of_beq hstatus, hx, hy⟩

end Session
end QuadOpt
