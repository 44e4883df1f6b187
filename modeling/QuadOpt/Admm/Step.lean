/-
# One iteration

An iteration solves the linear system at the current iterate, relaxes towards
the solution, projects onto the bounds and corrects the multipliers.

Key definitions: `Session.step`, `Session.measure`, `Session.retune`.
-/
import QuadOpt.Admm.Session

namespace QuadOpt

open Scalar

variable {α : Type} [Scalar α] {n m : Nat}

namespace Session

/-- The iterate that follows `v`, given the intermediate point `(x̃, z̃)`. -/
def advance (S : Session α n m) (alpha : α) (v : Iterate α n m) (xt : Vec α n) (zt : Vec α m) :
    Iterate α n m :=
  let x : Vec α n := .combine alpha xt (1 - alpha) v.x
  let relaxed : Vec α m := Vector.ofFn fun i => alpha * zt.get i + (1 - alpha) * v.z.get i
  let z : Vec α m := Vector.ofFn fun i =>
    minNum (maxNum (relaxed.get i + S.system.rhoInv.get i * v.y.get i)
      (S.data.work.l.get i)) (S.data.work.u.get i)
  let deltaY : Vec α m := Vector.ofFn fun i => S.system.rho.get i * (relaxed.get i - z.get i)
  { x := x
    z := z
    y := Vector.ofFn fun i => v.y.get i + deltaY.get i
    xPrev := v.x
    zPrev := v.z
    deltaX := .combine 1 x (-1) v.x
    deltaY := deltaY }

/-- One iteration, which needs a factored system. Without one the iteration is
given up after the iterate has changed places with the one before it. -/
def step (S : Session α n m) (alpha sigma : α) : Except EngineError Unit × Session α n m :=
  let v := S.vars
  match S.system.solve? v.x v.z v.y S.data.work.q sigma with
  | some (xt, zt) => (.ok (), { S with vars := S.advance alpha v xt zt })
  | none => (.error .unfactored,
      { S with vars := { v with x := v.xPrev, z := v.zPrev, xPrev := v.x, zPrev := v.z } })

/-- The residuals and the objective at an iterate. -/
def residuals (D : Problem α n m) (v : Iterate α n m) : Residuals α :=
  let Ax : Vec α m := D.work.A.csc.mulVec m v.x
  let Px : Vec α n := D.work.P.csc.symMulVec v.x
  let Aty : Vec α n := D.work.A.csc.transposeMulVec n v.y
  let prim : Vec α m := .combine 1 Ax (-1) v.z
  let dual : Vec α n := Vector.ofFn fun j => Px.get j + D.work.q.get j + Aty.get j
  let s := D.scaling
  { prim := prim.normInfWeighted s.einv
    dual := s.cinv * dual.normInfWeighted s.dinv
    primNorm := maxNum (Ax.normInfWeighted s.einv) (v.z.normInfWeighted s.einv)
    dualNorm := s.cinv * maxNum
      (maxNum (Px.normInfWeighted s.dinv) (Aty.normInfWeighted s.dinv))
      (D.work.q.normInfWeighted s.dinv)
    primScaled := prim.normInf
    dualScaled := dual.normInf
    primNormScaled := maxNum Ax.normInf v.z.normInf
    dualNormScaled := maxNum (maxNum Px.normInf Aty.normInf) D.work.q.normInf
    objective := s.cinv * (0.5 * v.x.dot Px + D.work.q.dot v.x) }

/-- Computes the residuals of the iterate. -/
def measure (S : Session α n m) : Session α n m :=
  { S with res := residuals S.data S.vars }

/-- The step size that would balance the residuals, within limits. -/
def estimateRho (S : Session α n m) : α :=
  let prim := S.res.primScaled / (S.res.primNormScaled + Limits.tiny)
  let dual := S.res.dualScaled / (S.res.dualNormScaled + Limits.tiny)
  let t := S.rho * sqrt (prim / (dual + Limits.tiny))
  minNum (maxNum t Limits.minRho) Limits.maxRho

/-- Takes over the estimated step size if it differs enough from the current
one. -/
def retune (S : Session α n m) (tolerance : α) : Except EngineError Unit × Session α n m :=
  let t := S.estimateRho
  let changes := decide (S.rho * tolerance < t) || decide (t < S.rho / tolerance)
  let S := { S with info := { S.info with rhoEstimate := t } }
  if changes then
    match ({ S with rho := t, system := S.system.withRho t } : Session α n m).factorSystem with
    | (.ok (), S) =>
      (.ok (), { S with info := { S.info with rhoUpdates := S.info.rhoUpdates + 1 } })
    | (.error e, S) => (.error e, S)
  else (.ok (), S)

end Session
end QuadOpt
