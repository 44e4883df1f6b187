/-
# What a constraint requires

A constraint is made from two bounds on an affine expression or from a comparison
of two of them. It has the terms of one expression, and at every point its bounds
hold exactly when the comparison that it was made from does. Numbers are exact,
and bounds may be infinite.

Key definitions: `Requirement`, `Constraint.Admits`.
Key theorems: `Requirement.holds_iff`.
-/
import QuadOpt.Model.Constraint
import QuadOpt.Proofs.Expr.Value
import QuadOpt.Proofs.Extended

namespace QuadOpt

section Lift

variable {K : Type}

/-- An affine expression with finite numbers. -/
def LinExpr.lift (e : LinExpr K) : LinExpr (Extended K) := e.mapCoeff Extended.finite

/-- A quadratic expression with finite numbers. -/
def QuadExpr.lift (e : QuadExpr K) : QuadExpr (Extended K) := e.mapCoeff Extended.finite

end Lift

/-- What a constraint can be made from: two bounds on an affine expression, or a
comparison of two of them. -/
inductive Requirement (K : Type) where
  | between (e : LinExpr K) (lower upper : Extended K)
  | le (e f : LinExpr K)
  | ge (e f : LinExpr K)
  | eq (e f : LinExpr K)
  | compare (e : LinExpr K) (op : Comparison) (f : LinExpr K)

namespace Requirement

variable {K : Type} [Field K] [LinearOrder K] [ExactScalar K]

/-- The constraint that is made, unless the comparison is strict. -/
def build : Requirement K → Except ModelError (Constraint (Extended K))
  | between e lower upper => .ok (.between e.lift lower upper)
  | le e f => .ok (.le e.lift f.lift)
  | ge e f => .ok (.ge e.lift f.lift)
  | eq e f => .ok (.eq e.lift f.lift)
  | compare e op f => Constraint.compare e.lift op f.lift

/-- The requirement holds at a point. -/
def Holds (x : Variable → K) : Requirement K → Prop
  | between e lower upper => lower ≤ .finite (e.value x) ∧ .finite (e.value x) ≤ upper
  | le e f => e.value x ≤ f.value x
  | ge e f => f.value x ≤ e.value x
  | eq e f => e.value x = f.value x
  | compare e .less f => e.value x < f.value x
  | compare e .lessEqual f => e.value x ≤ f.value x
  | compare e .equal f => e.value x = f.value x
  | compare e .greaterEqual f => f.value x ≤ e.value x
  | compare e .greater f => f.value x < e.value x

/-- The affine expression that the constraint bounds, with its constant. -/
def bounded : Requirement K → LinExpr K
  | between e _ _ => e
  | le e f | ge e f | eq e f | compare e _ f => e - f

theorem lift_sub (e f : LinExpr K) : e.lift - f.lift = (e - f).lift :=
  (LinExpr.mapCoeff_sub Extended.finite_zero Extended.finite_add Extended.finite_neg
    Extended.finite_sub e f).symm

/-- The constraint that is made has the terms of the bounded expression. -/
theorem terms_eq {r : Requirement K} {c : Constraint (Extended K)} (h : r.build = .ok c) :
    c.terms = r.bounded.terms.mapCoeff .finite := by
  have hsub : ∀ e f : LinExpr K,
      (e.lift - f.lift).terms = (e - f).terms.mapCoeff Extended.finite := by
    intro e f
    rw [lift_sub]
    rfl
  cases r with
  | between e lower upper =>
    cases h
    rfl
  | le e f | ge e f | eq e f =>
    cases h
    exact hsub e f
  | compare e op f =>
    cases op with
    | less | greater => cases h
    | lessEqual | equal | greaterEqual =>
      cases h
      exact hsub e f

end Requirement

/-! ### Bounds -/

section Admits

variable {K : Type} [Field K] [LinearOrder K] [ExactScalar K]

/-- The bounds of a constraint hold if its terms add up to `v`. -/
def Constraint.Admits (c : Constraint (Extended K)) (v : K) : Prop :=
  c.lower ≤ .finite v ∧ .finite v ≤ c.upper

variable [IsStrictOrderedRing K]

/-- Moving the constant into the bounds changes nothing. -/
theorem Constraint.between_admits_iff (e : LinExpr K) (lower upper : Extended K)
    (x : Variable → K) :
    (between e.lift lower upper).Admits (termSum e.terms.toList x) ↔
      lower ≤ .finite (e.value x) ∧ .finite (e.value x) ≤ upper := by
  have hvalue : e.value x = termSum e.terms.toList x + e.constant := by
    rw [LinExpr.value_eq, add_comm]
  rw [hvalue, ← Extended.sub_finite_le_finite, ← Extended.finite_le_sub_finite]
  rfl

theorem Constraint.le_admits_iff (e f : LinExpr K) (x : Variable → K) :
    (le e.lift f.lift).Admits (termSum (e - f).terms.toList x) ↔ e.value x ≤ f.value x := by
  rw [le, Requirement.lift_sub, between_admits_iff, LinExpr.value_sub, ← Extended.finite_zero,
    Extended.finite_le_finite, sub_nonpos]
  exact and_iff_right (Extended.negInf_le_finite _)

theorem Constraint.ge_admits_iff (e f : LinExpr K) (x : Variable → K) :
    (ge e.lift f.lift).Admits (termSum (e - f).terms.toList x) ↔ f.value x ≤ e.value x := by
  rw [ge, Requirement.lift_sub, between_admits_iff, LinExpr.value_sub, ← Extended.finite_zero,
    Extended.finite_le_finite, sub_nonneg]
  exact and_iff_left (Extended.finite_le_posInf _)

theorem Constraint.eq_admits_iff (e f : LinExpr K) (x : Variable → K) :
    (eq e.lift f.lift).Admits (termSum (e - f).terms.toList x) ↔ e.value x = f.value x := by
  rw [eq, Requirement.lift_sub, between_admits_iff, LinExpr.value_sub, ← Extended.finite_zero,
    Extended.finite_le_finite, Extended.finite_le_finite, sub_nonneg, sub_nonpos, and_comm]
  exact le_antisymm_iff.symm

/-- The bounds of the constraint made from a requirement hold exactly when the
requirement does. -/
theorem Requirement.holds_iff {r : Requirement K} {c : Constraint (Extended K)}
    (h : r.build = .ok c) (x : Variable → K) :
    r.Holds x ↔ c.Admits (termSum r.bounded.terms.toList x) := by
  cases r with
  | between e lower upper =>
    cases h
    exact (Constraint.between_admits_iff e lower upper x).symm
  | le e f =>
    cases h
    exact (Constraint.le_admits_iff e f x).symm
  | ge e f =>
    cases h
    exact (Constraint.ge_admits_iff e f x).symm
  | eq e f =>
    cases h
    exact (Constraint.eq_admits_iff e f x).symm
  | compare e op f =>
    cases op with
    | less => cases h
    | greater => cases h
    | lessEqual =>
      cases h
      exact (Constraint.le_admits_iff e f x).symm
    | equal =>
      cases h
      exact (Constraint.eq_admits_iff e f x).symm
    | greaterEqual =>
      cases h
      exact (Constraint.ge_admits_iff e f x).symm

end Admits

end QuadOpt
