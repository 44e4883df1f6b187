/-
# The standard form of a problem

    minimize    ½ xᵀ P x + qᵀ x + c
    subject to  l ≤ A x ≤ u

A term `c xᵢ xᵢ` of the objective puts `2 c` on the diagonal of `P`, and a term
`c xᵢ xⱼ` with `i < j` puts `c` above it, so that `½ xᵀ P x` with `P` mirrored
gives the terms back. A position is stored whenever a term names it, even with
the coefficient zero.

Key definitions: `StandardForm`, `StandardForm.assemble`.
-/
import QuadOpt.Engine.Basic
import QuadOpt.Model.Constraint
import QuadOpt.Sparse.Triplets

namespace QuadOpt

/-- A quadratic program with the constant of its objective. -/
structure StandardForm (α : Type) extends QpData α where
  constant : α

namespace StandardForm

variable {α : Type} [Scalar α]

/-- The number of variables. -/
def varCount (F : StandardForm α) : Nat := F.A.n

/-- The number of constraints. -/
def constraintCount (F : StandardForm α) : Nat := F.A.m

/-- There is no variable with an index of `n` or above. -/
def checkIndex (n : Nat) (maxIndex : Option Nat) : Except ModelError Unit :=
  match maxIndex with
  | some i => if n ≤ i then .error (.unknownVariable i) else .ok ()
  | none => .ok ()

/-- The entry that a quadratic term stores. -/
def hessianTriplet (t : VarPair × α) : Triplet α :=
  ⟨t.1.first.index, t.1.second.index, if t.1.first = t.1.second then 2.0 * t.2 else t.2⟩

/-- The entries that the constraint in row `i` stores. -/
def rowTriplets (r : Constraint α × Nat) : List (Triplet α) :=
  r.1.terms.toList.map fun t => ⟨r.2, t.1.index, t.2⟩

/-- The coefficients of `n` variables. -/
def denseRow (n : Nat) (e : LinExpr α) : Array α :=
  e.terms.toList.foldl (fun row t => row.setIfInBounds t.1.index t.2) (Array.replicate n 0)

/-- The standard form over `n` variables, which the expressions keep to. -/
def assemble (n : Nat) (objective : QuadExpr α) (constraints : List (Constraint α)) :
    Except ModelError (StandardForm α) := do
  checkIndex n objective.highestIndex?
  constraints.forM fun c => checkIndex n c.expression.highestIndex?
  if arrayLimit ≤ n then throw .tooManyVariables
  return {
    P := .ofTriplets n n (objective.quadratic.toList.map hessianTriplet)
    q := denseRow n objective.linear
    A := .ofTriplets constraints.length n (constraints.zipIdx.flatMap rowTriplets)
    l := (constraints.map Constraint.lower).toArray
    u := (constraints.map Constraint.upper).toArray
    constant := objective.linear.constant }

end StandardForm
end QuadOpt
