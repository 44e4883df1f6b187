/-
# Equilibration

The problem is scaled so that the columns of `[P; A]` and the rows of `A` have
norms near one. Each round divides by the square roots of these norms and then
scales the objective.

Key definitions: `clampScale`, `Equilibration`, `Equilibration.round`,
`Problem.equilibrate`.
-/
import QuadOpt.Admm.Problem

namespace QuadOpt

open Scalar

variable {α : Type} [Scalar α] {n m : Nat}

/-- A norm to divide by: a small one counts as one, a large one as the
largest. -/
def clampScale (x : α) : α :=
  if x < Limits.minScaling then 1 else minNum x Limits.maxScaling

/-- The factor for a row or column with norm `x`. -/
def scalingFactor (x : α) : α := Scalar.recip (sqrt (clampScale x))

/-- A problem partway through its equilibration, with the scaling so far. -/
structure Equilibration (α : Type) (n m : Nat) where
  P : SparseMatrix α n n
  A : SparseMatrix α m n
  q : Vec α n
  d : Vec α n
  e : Vec α m
  c : α

namespace Equilibration

/-- Before the first round. -/
def start (D : Instance α n m) : Equilibration α n m :=
  ⟨D.P, D.A, D.q, .fill n 1, .fill m 1, 1⟩

/-- Scales rows and columns. -/
def balance (S : Equilibration α n m) : Equilibration α n m :=
  let dw : Vec α n :=
    (S.A.csc.raiseColNorms (S.P.csc.raiseSymNorms (.fill n 0))).map scalingFactor
  let ew : Vec α m := (S.A.csc.raiseRowNorms (.fill m 0)).map scalingFactor
  { S with
    P := S.P.scaleSides dw dw
    A := S.A.scaleSides ew dw
    q := S.q.hadamard dw
    d := S.d.hadamard dw
    e := S.e.hadamard ew }

/-- The factor for the objective: from the mean norm of the columns of `P`, or
the norm of `q` if that is larger. -/
def costFactor (S : Equilibration α n m) : α :=
  let norms : Vec α n := S.P.csc.raiseSymNorms (.fill n 0)
  Scalar.recip (clampScale (maxNum (clampScale norms.mean) S.q.normInf))

/-- Scales the objective. -/
def scaleCost (S : Equilibration α n m) : Equilibration α n m :=
  let t := S.costFactor
  { S with P := S.P.scale t, q := S.q.scale t, c := S.c * t }

/-- One round. -/
def round (S : Equilibration α n m) : Equilibration α n m := S.balance.scaleCost

end Equilibration


theorem Equilibration.round_isUpper (S : Equilibration α n m) :
    S.round.P.csc.isUpper = S.P.csc.isUpper := rfl

theorem Equilibration.repeat_isUpper (k : Nat) (S : Equilibration α n m) :
    (Nat.repeat Equilibration.round k S).P.csc.isUpper = S.P.csc.isUpper := by
  induction k with
  | zero => rfl
  | succ k ih => exact (round_isUpper _).trans ih

/-- The problem with its working data made from the user's data by a number of
rounds. -/
def Problem.equilibrate (D : Problem α n m) (rounds : Nat) : Problem α n m :=
  let S := Nat.repeat Equilibration.round rounds (.start D.user)
  { user := D.user
    work := {
      P := S.P
      q := S.q
      A := S.A
      l := D.user.l.hadamard S.e
      u := D.user.u.hadamard S.e
      upper := (Equilibration.repeat_isUpper rounds (.start D.user)).trans D.user.upper }
    scaling := ⟨S.d, S.d.recip, S.e, S.e.recip, S.c, Scalar.recip S.c⟩ }

end QuadOpt
