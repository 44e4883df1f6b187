/-
# Values of expressions

In exact arithmetic the value of an expression at a point is its constant plus
the sum of its terms, and operations on expressions are operations on values.
Coefficients can be carried over into another number system, which commutes with
the operations if it commutes with those on numbers.

Key definitions: `termSum`, `LinExpr.mapCoeff`, `QuadExpr.mapCoeff`.
Key theorems: `LinExpr.value_eq`, `LinExpr.value_sub`, `QuadExpr.value_eq`,
`QuadExpr.value_mapLinear`, `LinExpr.value_product`, `LinExpr.mapCoeff_sub`.
-/
import Mathlib.Algebra.BigOperators.Ring.List
import Mathlib.Tactic.Ring
import QuadOpt.Expr.Quadratic
import QuadOpt.Proofs.Exact

namespace QuadOpt

/-! ### Other coefficients -/

section Map

variable {κ α β : Type}

/-- Carries the coefficients over into another number system. -/
def TermMap.mapCoeff (t : TermMap κ α) (f : α → β) : TermMap κ β where
  toList := t.toList.map fun e => (e.1, f e.2)
  nodup := by
    rw [List.map_map]
    exact t.nodup

/-- Carries all numbers of an affine expression over. -/
def LinExpr.mapCoeff (e : LinExpr α) (f : α → β) : LinExpr β := ⟨e.terms.mapCoeff f, f e.constant⟩

/-- Carries all numbers of a quadratic expression over. -/
def QuadExpr.mapCoeff (e : QuadExpr α) (f : α → β) : QuadExpr β :=
  ⟨e.quadratic.mapCoeff f, e.linear.mapCoeff f⟩

theorem TermMap.ext {t s : TermMap κ α} (h : t.toList = s.toList) : t = s := by
  cases t
  cases s
  cases h
  rfl

theorem TermMap.keys_mapCoeff (t : TermMap κ α) (f : α → β) : (t.mapCoeff f).keys = t.keys := by
  rw [keys, mapCoeff, List.map_map]
  rfl

variable [DecidableEq κ] [Scalar α] [Scalar β] {f : α → β}

theorem TermMap.mapCoeff_addList (hzero : f 0 = 0) (hadd : ∀ x y, f (x + y) = f x + f y) :
    ∀ (es : List (κ × α)) (t : TermMap κ α),
      (t.addList es).mapCoeff f = (t.mapCoeff f).addList (es.map fun e => (e.1, f e.2))
  | [], _ => rfl
  | e :: es, t => by
    have hlist : ∀ l : List (κ × α), (addToList e.1 e.2 l).map (fun e => (e.1, f e.2))
        = addToList e.1 (f e.2) (l.map fun e => (e.1, f e.2)) := by
      intro l
      induction l with
      | nil => simp [addToList, hadd, hzero]
      | cons a l ih =>
        by_cases ha : a.1 = e.1
        · simp [addToList, ha, hadd]
        · simp [addToList, ha, ih]
    have hstep : (t.add e.1 e.2).mapCoeff f = (t.mapCoeff f).add e.1 (f e.2) :=
      TermMap.ext (hlist t.toList)
    rw [addList, List.foldl_cons, ← addList, mapCoeff_addList hzero hadd es, hstep]
    rfl

theorem LinExpr.mapCoeff_sub (hzero : f 0 = 0) (hadd : ∀ x y, f (x + y) = f x + f y)
    (hneg : ∀ x, f (-x) = -f x) (hsub : ∀ x y, f (x - y) = f x - f y) (e g : LinExpr α) :
    (e - g).mapCoeff f = e.mapCoeff f - g.mapCoeff f := by
  have hterms : (e.terms.addAll (g.terms.map fun c => -c)).mapCoeff f
      = (e.terms.mapCoeff f).addAll ((g.terms.mapCoeff f).map fun c => -c) := by
    rw [TermMap.addAll, TermMap.mapCoeff_addList hzero hadd, TermMap.addAll]
    congr 1
    simp only [TermMap.map, TermMap.mapCoeff, List.map_map]
    apply List.map_congr_left
    intro t _
    simp [hneg]
  exact congrArg₂ LinExpr.mk hterms (hsub _ _)

end Map

/-! ### Sums of terms -/

section Value

variable {K κ : Type} [Field K]

/-- The sum of the terms when each key has the value that `g` gives it. -/
def termSum (l : List (κ × K)) (g : κ → K) : K := (l.map fun t => t.2 * g t.1).sum

theorem termSum_map_mul (l : List (κ × K)) (k : K) (g : κ → K) :
    termSum (l.map fun t => (t.1, k * t.2)) g = k * termSum l g := by
  rw [termSum, termSum, ← List.sum_map_mul_left, List.map_map]
  congr 1
  apply List.map_congr_left
  intro t _
  exact mul_assoc _ _ _

theorem foldl_add_eq_termSum (g : κ → K) (s : K) (l : List (κ × K)) :
    l.foldl (fun s t => s + t.2 * g t.1) s = s + termSum l g := by
  induction l generalizing s with
  | nil => simp [termSum]
  | cons t l ih =>
    rw [List.foldl_cons, ih, add_assoc]
    rfl

theorem termSum_addToList [DecidableEq κ] (k : κ) (c : K) (g : κ → K) (l : List (κ × K)) :
    termSum (TermMap.addToList k c l) g = termSum l g + c * g k := by
  induction l with
  | nil => simp [TermMap.addToList, termSum]
  | cons t l ih =>
    unfold TermMap.addToList
    by_cases ht : t.1 = k
    · rw [if_pos ht]
      simp only [termSum, List.map_cons, List.sum_cons, ht]
      ring
    · rw [if_neg ht]
      simp only [termSum, List.map_cons, List.sum_cons] at ih ⊢
      rw [ih, add_assoc]

theorem termSum_addList [DecidableEq κ] (g : κ → K) : ∀ (es : List (κ × K)) (t : TermMap κ K),
    termSum (t.addList es).toList g = termSum t.toList g + termSum es g
  | [], t => by simp [TermMap.addList, termSum]
  | e :: es, t => by
    have hstep : termSum (t.add e.1 e.2).toList g = termSum t.toList g + e.2 * g e.1 :=
      termSum_addToList e.1 e.2 g t.toList
    rw [TermMap.addList, List.foldl_cons, ← TermMap.addList, termSum_addList g es, hstep, add_assoc]
    rfl

theorem termSum_addAll [DecidableEq κ] (t s : TermMap κ K) (g : κ → K) :
    termSum (t.addAll s).toList g = termSum t.toList g + termSum s.toList g :=
  termSum_addList g s.toList t

theorem termSum_map [DecidableEq κ] (t : TermMap κ K) (k : K) (g : κ → K) :
    termSum (t.map fun c => c * k).toList g = termSum t.toList g * k := by
  rw [mul_comm, ← termSum_map_mul]
  simp only [TermMap.map, mul_comm]

theorem termSum_neg [DecidableEq κ] (t : TermMap κ K) (g : κ → K) :
    termSum (t.map fun c => -c).toList g = -termSum t.toList g := by
  have hneg := termSum_map_mul t.toList (-1) g
  simpa [TermMap.map] using hneg

theorem termSum_append (l l' : List (κ × K)) (g : κ → K) :
    termSum (l ++ l') g = termSum l g + termSum l' g := by
  rw [termSum, List.map_append, List.sum_append]
  rfl

/-- Products of terms add up to the product of the sums. -/
theorem termSum_flatMap {ι : Type} (l : List (ι × K)) (l' : List (ι × K)) (key : ι → ι → κ)
    (g : κ → K) (x : ι → K) (hkey : ∀ v w, g (key v w) = x v * x w) :
    termSum (l.flatMap fun s => l'.map fun t => (key s.1 t.1, s.2 * t.2)) g
      = termSum l x * termSum l' x := by
  induction l with
  | nil => simp [termSum]
  | cons s l ih =>
    have hrow : termSum (l'.map fun t => (key s.1 t.1, s.2 * t.2)) g
        = s.2 * x s.1 * termSum l' x := by
      rw [termSum, termSum, ← List.sum_map_mul_left, List.map_map]
      congr 1
      apply List.map_congr_left
      intro t _
      show s.2 * t.2 * g (key s.1 t.1) = _
      rw [hkey]
      ring
    have hcons : termSum (s :: l) x = s.2 * x s.1 + termSum l x := rfl
    rw [List.flatMap_cons, termSum_append, hrow, ih, hcons, add_mul]

/-- The name of a product stands for it, in whichever order its variables are given. -/
theorem VarPair.mul_of (v w : Variable) (x : Variable → K) :
    x (VarPair.of v w).first * x (VarPair.of v w).second = x v * x w := by
  unfold VarPair.of
  split
  · rfl
  · exact mul_comm _ _

variable [LinearOrder K] [ExactScalar K]

theorem LinExpr.value_eq (e : LinExpr K) (x : Variable → K) :
    e.value x = e.constant + termSum e.terms.toList x :=
  foldl_add_eq_termSum x e.constant e.terms.toList

namespace LinExpr

variable (e f : LinExpr K) (v : Variable) (c k : K) (x : Variable → K)

theorem value_ofConstant : (ofConstant c).value x = c := rfl

theorem value_addTerm : (e.addTerm v c).value x = e.value x + c * x v := by
  rw [value_eq, value_eq, add_assoc]
  exact congrArg (e.constant + ·) (termSum_addToList v c x e.terms.toList)

theorem value_addVariable : (e.addVariable v).value x = e.value x + x v := by
  rw [addVariable, value_addTerm]
  show _ + 1 * x v = _
  rw [one_mul]

theorem value_subtractVariable : (e.subtractVariable v).value x = e.value x - x v := by
  rw [subtractVariable, value_addTerm]
  show _ + -1 * x v = _
  ring

theorem value_ofVariable : (ofVariable v).value x = x v := by
  rw [ofVariable, value_addVariable]
  show 0 + x v = x v
  exact zero_add _

theorem value_addConstant : (e.addConstant c).value x = e.value x + c := by
  rw [value_eq, value_eq]
  show e.constant + c + _ = _
  exact add_right_comm _ _ _

theorem value_subtractConstant : (e.subtractConstant c).value x = e.value x - c := by
  rw [value_eq, value_eq]
  show e.constant - c + _ = _
  exact sub_add_eq_add_sub _ _ _

theorem value_add : (e + f).value x = e.value x + f.value x := by
  rw [value_eq, value_eq, value_eq]
  show e.constant + f.constant + termSum (e.terms.addAll f.terms).toList x = _
  rw [termSum_addAll, add_add_add_comm]

theorem value_sub : (e - f).value x = e.value x - f.value x := by
  rw [value_eq, value_eq, value_eq]
  show e.constant - f.constant
    + termSum (e.terms.addAll (f.terms.map fun c => -c)).toList x = _
  rw [termSum_addAll, termSum_neg]
  ring

theorem value_scale : (e.scale k).value x = e.value x * k := by
  rw [value_eq, value_eq, add_mul]
  exact congrArg (e.constant * k + ·) (termSum_map e.terms k x)

end LinExpr

theorem QuadExpr.value_eq (e : QuadExpr K) (x : Variable → K) :
    e.value x
      = e.linear.value x + termSum e.quadratic.toList fun p => x p.first * x p.second := by
  rw [← foldl_add_eq_termSum]
  simp only [QuadExpr.value, mul_assoc]

namespace QuadExpr

variable (e f : QuadExpr K) (v w : Variable) (c k : K) (x : Variable → K)

theorem value_addProduct : (e.addProduct v w c).value x = e.value x + c * x v * x w := by
  rw [value_eq, value_eq, mul_assoc, ← VarPair.mul_of, add_assoc]
  exact congrArg (e.linear.value x + ·) (termSum_addToList (VarPair.of v w) c _ e.quadratic.toList)

/-- A change of the affine part changes the value by as much. -/
theorem value_mapLinear {g : LinExpr K → LinExpr K} {d : K}
    (hg : (g e.linear).value x = e.linear.value x + d) :
    (e.mapLinear g).value x = e.value x + d := by
  rw [value_eq, value_eq, add_right_comm, ← hg]
  rfl

theorem value_add : (e + f).value x = e.value x + f.value x := by
  rw [value_eq, value_eq, value_eq]
  show (e.linear + f.linear).value x + termSum (e.quadratic.addAll f.quadratic).toList _ = _
  rw [termSum_addAll, LinExpr.value_add, add_add_add_comm]

theorem value_sub : (e - f).value x = e.value x - f.value x := by
  rw [value_eq, value_eq, value_eq]
  show (e.linear - f.linear).value x
    + termSum (e.quadratic.addAll (f.quadratic.map fun c => -c)).toList _ = _
  rw [termSum_addAll, termSum_neg, LinExpr.value_sub]
  ring

theorem value_scale : (e.scale k).value x = e.value x * k := by
  rw [value_eq, value_eq, add_mul, ← LinExpr.value_scale, ← termSum_map]
  rfl

end QuadExpr

/-! ### Products -/

namespace LinExpr

variable (e f : LinExpr K) (k : K) (x : Variable → K)

/-- Terms with the coefficient zero are worth nothing. -/
theorem termSum_nonzeroTerms : termSum e.nonzeroTerms x = termSum e.terms.toList x := by
  unfold nonzeroTerms
  induction e.terms.toList with
  | nil => rfl
  | cons t l ih =>
    by_cases ht : t.2 = 0
    · rw [List.filter_cons_of_neg (by simp [ht]), ih]
      simp [termSum, ht]
    · rw [List.filter_cons_of_pos (by simpa using ht)]
      exact congrArg (t.2 * x t.1 + ·) ih

theorem termSum_termsTimes : termSum (e.termsTimes k) x = termSum e.terms.toList x * k := by
  unfold termsTimes
  split
  · rw [← termSum_nonzeroTerms, mul_comm, ← termSum_map_mul]
    simp only [mul_comm]
  · rename_i hk
    have hk : k = 0 := by simpa using hk
    rw [hk, mul_zero]
    rfl

/-- The product of two expressions has the product of their values. -/
theorem value_product : (e.product f).value x = e.value x * f.value x := by
  have hquadratic : termSum (e.product f).quadratic.toList (fun p => x p.first * x p.second)
      = termSum e.terms.toList x * termSum f.terms.toList x := by
    unfold product
    rw [termSum_addList, termSum_flatMap _ _ VarPair.of _ x (fun v w => VarPair.mul_of v w x),
      termSum_nonzeroTerms, termSum_nonzeroTerms]
    exact zero_add _
  have hlinear : termSum (e.product f).linear.terms.toList x
      = termSum e.terms.toList x * f.constant + termSum f.terms.toList x * e.constant := by
    unfold product
    rw [termSum_addList, termSum_addList, termSum_termsTimes, termSum_termsTimes]
    exact congrArg (· + _) (zero_add _)
  rw [QuadExpr.value_eq, hquadratic, value_eq, hlinear, value_eq, value_eq]
  show e.constant * f.constant + _ + _ = _
  ring

end LinExpr

end Value
end QuadOpt
