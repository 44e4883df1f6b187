/-
# Termination

The iterate solves the problem if its residuals are small; the problem has no
feasible point if the last change of the multipliers combines the constraints
into one that no point satisfies; and it is unbounded if the objective falls
along the last change of the point without leaving the constraints.

Key definitions: `Session.isOptimal`, `Session.primalCertificate?`,
`Session.dualCertificate?`, `Session.verdict`.
-/
import QuadOpt.Admm.Step

namespace QuadOpt

open Scalar

variable {α : Type} [Scalar α] {n m : Nat}

namespace Session

/-- The residuals are within the tolerances. -/
def isOptimal (S : Session α n m) (epsAbs epsRel : α) : Bool :=
  (m == 0 || decide (S.res.prim ≤ epsAbs + epsRel * S.res.primNorm)) &&
    decide (S.res.dual ≤ epsAbs + epsRel * S.res.dualNorm)

/-- The change of the multipliers, without those parts that only an infinite
bound could make use of. -/
def projectedChange (S : Session α n m) : Vec α m :=
  Vector.ofFn fun i =>
    let t := S.vars.deltaY.get i
    let above := Limits.infiniteBound < S.data.work.u.get i
    let below := S.data.work.l.get i < -Limits.infiniteBound
    if above ∧ below then 0
    else if above then minNum t 0
    else if below then maxNum t 0
    else t

/-- The largest value that the combination of the bounds by `v` allows. -/
def support (D : Instance α n m) (v : Vec α m) : α :=
  (List.finRange m).foldl (fun s (i : Fin m) =>
    s + D.u.get i * maxNum (v.get i) 0 + D.l.get i * minNum (v.get i) 0) 0

/-- A combination of the constraints with `Aᵀ v ≈ 0` that would have to be
negative, scaled to norm one: a proof that there is no feasible point. -/
def primalCertificate? (S : Session α n m) (eps : α) : Option (Vec α m) :=
  let s := S.data.scaling
  let v := S.projectedChange
  let norm := v.normInfWeighted s.e
  if eps < norm ∧ support S.data.work v < 0 ∧
      (S.data.work.A.csc.transposeMulVec n v).normInfWeighted s.dinv < eps * norm then
    some ((v.hadamard s.e).scale (Scalar.recip norm))
  else none

/-- The direction `v` stays within the bounds forever, up to a tolerance. -/
def inRecession (S : Session α n m) (Av : Vec α m) (tol : α) : Bool :=
  (List.finRange m).all fun (i : Fin m) =>
    let t := Av.get i * S.data.scaling.einv.get i
    !((decide (S.data.work.u.get i < Limits.infiniteBound) && decide (tol < t)) ||
      (decide (-Limits.infiniteBound < S.data.work.l.get i) && decide (t < -tol)))

/-- A direction with `P v ≈ 0` and `qᵀ v < 0` that stays within the bounds,
scaled to norm one: a proof that the objective is unbounded. -/
def dualCertificate? (S : Session α n m) (eps : α) : Option (Vec α n) :=
  let s := S.data.scaling
  let v := S.vars.deltaX
  let norm := v.normInfWeighted s.d
  if eps < norm ∧ S.data.work.q.dot v < -s.c * eps * norm ∧
      (S.data.work.P.csc.symMulVec v).normInfWeighted s.dinv < s.c * eps * norm ∧
      S.inRecession (S.data.work.A.csc.mulVec m v) (eps * norm) then
    some ((v.hadamard s.d).scale (Scalar.recip norm))
  else none

/-- The status that the residuals and the last step justify, if any, with the
session holding the certificate of an infeasible problem. Tolerances are relaxed
for an approximate status. -/
def verdict (S : Session α n m) (settings : Settings α) (approximate : Bool) :
    Option SolverStatus × Session α n m :=
  let factor : α := if approximate then Limits.approximateFactor else 1
  if S.isOptimal (settings.epsAbs * factor) (settings.epsRel * factor) then
    (some (if approximate then .solvedInaccurate else .solved), S)
  else match S.primalCertificate? (settings.epsPrimInf * factor) with
    | some v =>
      (some (if approximate then .primalInfeasibleInaccurate else .primalInfeasible),
        { S with solution := { S.solution with primInfCert := v.toArray } })
    | none => match S.dualCertificate? (settings.epsDualInf * factor) with
      | some v =>
        (some (if approximate then .dualInfeasibleInaccurate else .dualInfeasible),
          { S with solution := { S.solution with dualInfCert := v.toArray } })
      | none => (none, S)

end Session
end QuadOpt
