/-
# Problem data

The data of a quadratic program with dimensions `n` and `m`, checked once when
a session is set up (`QpData.validate`), and held by a session in two versions:
as the user gave them, with bounds of limited magnitude, and scaled.

Key definitions: `Instance`, `QpData.validate`, `Scaling`, `Problem`,
`Problem.scaleVectors`.
-/
import QuadOpt.Admm.Limits
import QuadOpt.Engine.Basic
import QuadOpt.Sparse.Matrix

namespace QuadOpt

open Scalar

/-- A quadratic program with `n` variables and `m` constraints. -/
structure Instance (α : Type) (n m : Nat) where
  /-- the upper triangle of the objective matrix -/
  P : SparseMatrix α n n
  q : Vec α n
  A : SparseMatrix α m n
  l : Vec α m
  u : Vec α m
  upper : P.csc.isUpper = true

variable {α : Type} [Scalar α] {n m : Nat}

/-- The data with their dimensions, or the first fault in them. The dimensions
are those of `A`. -/
def QpData.validate (D : QpData α) : Except DataFault (Instance α D.A.n D.A.m) :=
  if hP : D.P.m = D.A.n ∧ D.P.n = D.A.n then
    if hq : D.q.size = D.A.n then
      if hb : D.l.size = D.A.m ∧ D.u.size = D.A.m then
        match vP : D.P.validate with
        | .error e => .error (.format "P" e)
        | .ok () =>
          match vA : D.A.validate with
          | .error e => .error (.format "A" e)
          | .ok () =>
            if upper : D.P.isUpper = true then
              let l : Vec α D.A.m := ⟨D.l, hb.1⟩
              let u : Vec α D.A.m := ⟨D.u, hb.2⟩
              if !(D.P.nzval.all isFinite && D.A.nzval.all isFinite && D.q.all isFinite) then
                .error .nonFiniteData
              else if D.l.any isNaN || D.u.any isNaN then .error .nanBound
              else match (List.finRange D.A.m).find? fun i => decide (u.get i < l.get i) with
                | some i => .error (.crossedBounds i)
                | none => .ok {
                    P := ⟨D.P, hP.1, hP.2, Csc.valid_of_validate vP⟩
                    q := ⟨D.q, hq⟩
                    A := ⟨D.A, rfl, rfl, Csc.valid_of_validate vA⟩
                    l := l
                    u := u
                    upper := upper }
            else .error .notUpperTriangular
      else .error (.boundLengths D.l.size D.u.size D.A.m)
    else .error (.length "q" D.q.size D.A.n)
  else .error (.hessianSize D.P.m D.P.n D.A.n)

/-- Lower bounds of limited magnitude. -/
def clampLower (l : Vec α m) : Vec α m := l.map fun x => maxNum x (-Limits.infinity)

/-- Upper bounds of limited magnitude. -/
def clampUpper (u : Vec α m) : Vec α m := u.map fun x => minNum x Limits.infinity

/-- The scaling of a problem:

    P̄ = c D P D,   q̄ = c D q,   Ā = E A D,   l̄ = E l,   ū = E u -/
structure Scaling (α : Type) (n m : Nat) where
  /-- the diagonal of `D` -/
  d : Vec α n
  /-- the diagonal of the inverse of `D` -/
  dinv : Vec α n
  /-- the diagonal of `E` -/
  e : Vec α m
  /-- the diagonal of the inverse of `E` -/
  einv : Vec α m
  c : α
  /-- the inverse of `c` -/
  cinv : α

/-- The scaling that changes nothing. -/
def Scaling.unit (α : Type) [Scalar α] (n m : Nat) : Scaling α n m :=
  ⟨.fill n 1, .fill n 1, .fill m 1, .fill m 1, 1, 1⟩

/-- The data of a session. -/
structure Problem (α : Type) (n m : Nat) where
  /-- the data that the user gave -/
  user : Instance α n m
  /-- the data that the solver works on -/
  work : Instance α n m
  scaling : Scaling α n m

namespace Problem

/-- A problem that is not scaled. -/
def ofInstance (D : Instance α n m) : Problem α n m :=
  let D := { D with l := clampLower D.l, u := clampUpper D.u }
  ⟨D, D, .unit α n m⟩

/-- The problem with its vectors scaled anew. -/
def scaleVectors (D : Problem α n m) : Problem α n m :=
  { D with work :=
    { D.work with
      q := (D.user.q.scale D.scaling.c).hadamard D.scaling.d
      l := D.user.l.hadamard D.scaling.e
      u := D.user.u.hadamard D.scaling.e } }

end Problem
end QuadOpt
