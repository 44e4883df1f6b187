/-
# Sessions of the operator splitting solver

The state of a session: the problem with its scaling, the iterate in scaled
coordinates, the linear system, and what the last solve left behind.

Key definitions: `Iterate`, `Residuals`, `Session`, `Session.factorSystem`,
`Session.setup`, `Session.userPoint`.
-/
import QuadOpt.Admm.Equilibration
import QuadOpt.Admm.LinearSystem
import QuadOpt.Sparse.Product

namespace QuadOpt

variable {α : Type} [Scalar α] {n m : Nat}

/-- The iterate, the one before it and the difference of the two, in scaled
coordinates. -/
structure Iterate (α : Type) (n m : Nat) where
  x : Vec α n
  z : Vec α m
  y : Vec α m
  xPrev : Vec α n
  zPrev : Vec α m
  deltaX : Vec α n
  deltaY : Vec α m

/-- The iterate at the origin. -/
def Iterate.zero (α : Type) [Scalar α] (n m : Nat) : Iterate α n m :=
  ⟨.fill n 0, .fill m 0, .fill m 0, .fill n 0, .fill m 0, .fill n 0, .fill m 0⟩

/-- The residuals of an iterate and the size of what they are differences of, in
the coordinates of the user and in scaled coordinates. -/
structure Residuals (α : Type) where
  /-- `‖A x - z‖∞` -/
  prim : α
  /-- `‖P x + q + Aᵀ y‖∞` -/
  dual : α
  /-- the larger of `‖A x‖∞` and `‖z‖∞` -/
  primNorm : α
  /-- the largest of `‖P x‖∞`, `‖Aᵀ y‖∞` and `‖q‖∞` -/
  dualNorm : α
  primScaled : α
  dualScaled : α
  primNormScaled : α
  dualNormScaled : α
  /-- `½ xᵀ P x + qᵀ x` -/
  objective : α

/-- The residuals before any were computed. -/
def Residuals.zero (α : Type) [Scalar α] : Residuals α := ⟨0, 0, 0, 0, 0, 0, 0, 0, 0⟩

/-- What a solver is free to choose or has to be told: elimination orders, and
how much time has passed. -/
structure Environment (α : Type) where
  /-- the elimination order for a system -/
  ordering : Ordering? α
  /-- the seconds since the start of a solve, after a number of iterations -/
  elapsed : Nat → Float

/-- The state of a session. -/
structure Session (α : Type) (n m : Nat) where
  data : Problem α n m
  vars : Iterate α n m
  system : LinearSystem α n m
  res : Residuals α
  settings : Settings α
  info : Info α
  solution : Solution α
  /-- the current step size, which adapts during solves -/
  rho : α
  /-- a start point was given for the next solve -/
  startPending : Bool

namespace Session

/-- Factors the linear system. If `P` is not positive semidefinite the number of
positive pivots is not `n`. -/
def factorSystem (S : Session α n m) : Except EngineError Unit × Session α n m :=
  let (system, result) := S.system.factor S.data.work.P S.data.work.A S.settings.sigma
  let S := { S with system := system }
  match result with
  | .error e => (.error (.linearSystem e), S)
  | .ok positive =>
    if positive = n then (.ok (), S)
    else (.error .nonConvex, { S with info := { S.info with status := .nonConvex } })

/-- A session for valid data, as it is before its system is factored. -/
def unfactored (env : Environment α) (D : Instance α n m) (settings : Settings α) :
    Except LdlError (Session α n m) := do
  let data := (Problem.ofInstance D).equilibrate settings.scaling.toNat
  let system ← LinearSystem.new env.ordering data.work.P data.work.A
  return {
    data := data
    vars := .zero α n m
    system := (system.classify data.work.l data.work.u).withRho settings.rho
    res := .zero α
    settings := settings
    info := {
      iter := 0, status := .unsolved, objVal := Scalar.nan, primRes := Scalar.nan,
      dualRes := Scalar.nan, rhoUpdates := 0, rhoEstimate := settings.rho,
      polish := .notPerformed, solveTime := 0 }
    solution := {
      x := (Vec.fill n 0).toArray, y := (Vec.fill m 0).toArray
      primInfCert := (Vec.fill m 0).toArray, dualInfCert := (Vec.fill n 0).toArray }
    rho := settings.rho
    startPending := false }

/-- A session for valid data, with its system factored. -/
def setup (env : Environment α) (D : Instance α n m) (settings : Settings α) :
    Except EngineError (Session α n m) :=
  match unfactored env D settings with
  | .error e => .error (.linearSystem e)
  | .ok S =>
    match S.factorSystem with
    | (.ok (), S) => .ok S
    | (.error e, _) => .error e

/-- The point `x` and the multipliers `y` of the iterate in the coordinates of
the user. -/
def userPoint (S : Session α n m) : Vec α n × Vec α m :=
  (S.vars.x.hadamard S.data.scaling.d,
    (S.vars.y.hadamard S.data.scaling.e).scale S.data.scaling.cinv)

/-- Moves the iterate to a point given in the coordinates of the user. -/
def movePoint (S : Session α n m) (x : Vec α n) : Session α n m :=
  let x := x.hadamard S.data.scaling.dinv
  { S with vars := { S.vars with x := x, z := S.data.work.A.csc.mulVec m x } }

/-- Moves the iterate to multipliers given in the coordinates of the user. -/
def moveMultipliers (S : Session α n m) (y : Vec α m) : Session α n m :=
  { S with vars := { S.vars with
      y := (y.hadamard S.data.scaling.einv).scale S.data.scaling.c } }

end Session
end QuadOpt
