/-
# Constraints

A constraint `lower ≤ Σ aᵢ xᵢ ≤ upper` bounds an expression without a constant;
constants move into the bounds when a constraint is made. Bounds may be infinite
and are not compared with each other.

Key definitions: `Constraint`, `Constraint.between`, `Constraint.le`,
`Constraint.ge`, `Constraint.eq`, `Constraint.compare`,
`Constraint.isSatisfied?`, `Constraint.text`.
-/
import QuadOpt.Expr.Text
import QuadOpt.Model.Error

namespace QuadOpt

/-- A bounded expression. -/
structure Constraint (α : Type) where
  terms : TermMap Variable α
  lower : α
  upper : α
  deriving BEq

/-- Ways to compare two expressions. -/
inductive Comparison where
  | less
  | lessEqual
  | equal
  | greaterEqual
  | greater
  deriving DecidableEq, Repr

namespace Constraint

variable {α : Type} [Scalar α]

/-- The expression that is bounded. -/
def expression (c : Constraint α) : LinExpr α := ⟨c.terms, 0⟩

/-- The constraint `lower ≤ e ≤ upper`. -/
def between (e : LinExpr α) (lower upper : α) : Constraint α :=
  ⟨e.terms, lower - e.constant, upper - e.constant⟩

/-- The constraint `e ≤ f`. -/
def le (e f : LinExpr α) : Constraint α := between (e - f) (-Scalar.infinity) 0

/-- The constraint `e ≥ f`. -/
def ge (e f : LinExpr α) : Constraint α := between (e - f) 0 Scalar.infinity

/-- The constraint `e = f`. -/
def eq (e f : LinExpr α) : Constraint α := between (e - f) 0 0

/-- The constraint that compares two expressions. There is none for a strict
comparison. -/
def compare (e : LinExpr α) (op : Comparison) (f : LinExpr α) :
    Except ModelError (Constraint α) :=
  match op with
  | .lessEqual => .ok (le e f)
  | .greaterEqual => .ok (ge e f)
  | .equal => .ok (eq e f)
  | .less | .greater => .error .strictInequality

/-- The constraint holds at a point up to a tolerance, if the point has a
coordinate for each variable. -/
def isSatisfied? (c : Constraint α) (x : Array α) (tolerance : α) : Option Bool :=
  (c.expression.evaluate? x).map fun v =>
    decide (c.lower - tolerance ≤ v) && decide (v ≤ c.upper + tolerance)

/-- The text of a constraint. -/
def text [ScalarText α] (c : Constraint α) : String :=
  let lower := ScalarText.text .plain c.lower
  let upper := ScalarText.text .plain c.upper
  if c.lower == c.upper then s!"{c.expression.text} == {upper}"
  else if c.lower == -Scalar.infinity then s!"{c.expression.text} <= {upper}"
  else if c.upper == Scalar.infinity then s!"{c.expression.text} >= {lower}"
  else s!"{lower} <= {c.expression.text} <= {upper}"

end Constraint
end QuadOpt
