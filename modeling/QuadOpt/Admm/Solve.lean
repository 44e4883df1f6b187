/-
# Solving

A solve iterates until a status is found, or until the iterations or the time
are used up, in which case a status with relaxed tolerances is looked for.

Key definitions: `LoopEnd`, `Session.iterate`, `Session.finish`,
`Session.publish`, `Session.solve`.
-/
import QuadOpt.Admm.Polish
import QuadOpt.Admm.Termination

namespace QuadOpt

open Scalar

variable {α : Type} [Scalar α] {n m : Nat}

/-- How the iterations ended. -/
structure LoopEnd where
  /-- the status that was found -/
  found : Option SolverStatus
  /-- the limit that was reached, if none was -/
  limit : SolverStatus
  /-- the residuals are those of the iterate -/
  current : Bool

/-- An interval of iterations is over; there are no intervals of zero. -/
def isDue (iter : Nat) (interval : UInt32) : Bool :=
  decide (0 < interval.toNat) && iter % interval.toNat == 0

namespace Session

/-- The state in which the iterations of a solve start. -/
def begin (S : Session α n m) : Session α n m :=
  let vars := if !S.settings.warmStarting && !S.startPending then
      { S.vars with x := .fill n 0, z := .fill m 0, y := .fill m 0 }
    else S.vars
  { S with
    vars := vars
    startPending := false
    info := { S.info with
      status := .unsolved, iter := 0, rhoUpdates := 0, polish := .notPerformed } }

/-- The rest of the iteration with number `iter`, after its step: the test for
termination, unless there is none, and the adaptation of the step size. -/
def inspect (settings : Settings α) (iter : Nat) (S : Session α n m) :
    Except EngineError (Option SolverStatus × Bool) × Session α n m :=
  let tests := isDue iter settings.checkTermination
  let adapts := settings.adaptiveRho && isDue iter settings.adaptiveRhoInterval
  let S := if tests then S.measure else S
  let (found, S) := if tests then S.verdict settings false else (none, S)
  if found.isSome then (.ok (found, true), S)
  else if adapts then
    let S := if tests then S else S.measure
    match S.retune settings.adaptiveRhoTolerance with
    | (.ok (), S) => (.ok (none, true), S)
    | (.error e, S) => (.error e, S)
  else (.ok (none, tests), S)

/-- Iterates from number `iter` on, at most `remaining` times. -/
def iterate (env : Environment α) (settings : Settings α) :
    (remaining iter : Nat) → (current : Bool) → Session α n m →
      Except EngineError LoopEnd × Session α n m
  | 0, _, current, S => (.ok ⟨none, .maxIterReached, current⟩, S)
  | remaining + 1, iter, _, S =>
    match ({ S with info := { S.info with iter := iter } } : Session α n m).step
        settings.alpha settings.sigma with
    | (.error e, S) => (.error e, S)
    | (.ok (), S) =>
      match S.inspect settings iter with
      | (.error e, S) => (.error e, S)
      | (.ok (some status, current), S) => (.ok ⟨some status, .maxIterReached, current⟩, S)
      | (.ok (none, current), S) =>
        if settings.timeLimit < env.elapsed iter then
          (.ok ⟨none, .timeLimitReached, current⟩, S)
        else iterate env settings remaining (iter + 1) current S

/-- The status of a solve whose iterations have ended. -/
def finish (settings : Settings α) (r : LoopEnd) (S : Session α n m) :
    SolverStatus × Session α n m :=
  match r.found with
  | some status => (status, S)
  | none =>
    let S := if r.current then S else S.measure
    let (found, S) := S.verdict settings true
    (found.getD r.limit, S)

/-- Stores the iterate in the coordinates of the user, or nothing but the
certificate if the problem is infeasible. -/
def publish (S : Session α n m) : Session α n m :=
  let status := S.info.status
  let info := { S.info with primRes := S.res.prim, dualRes := S.res.dual }
  if status.isInfeasible then
    let unbounded := status == .dualInfeasible || status == .dualInfeasibleInaccurate
    { S with
      solution := { S.solution with
        x := (Vec.fill n nan).toArray, y := (Vec.fill m nan).toArray }
      info := { info with objVal := if unbounded then -infinity else infinity } }
  else
    let (x, y) := S.userPoint
    { S with
      solution := { S.solution with x := x.toArray, y := y.toArray }
      info := { info with objVal := S.res.objective } }

/-- Solves the problem. -/
def solve (env : Environment α) (S : Session α n m) : Except EngineError Unit × Session α n m :=
  let settings := S.settings
  match iterate env settings settings.maxIter.toNat 1 false S.begin with
  | (.error e, S) => (.error e, S)
  | (.ok r, S) =>
    let (status, S) := S.finish settings r
    let S := { S with info :=
      { S.info with status := status, solveTime := env.elapsed S.info.iter } }
    let S := if settings.polishing && status == .solved then S.polish env else S
    (.ok (), S.publish)

end Session
end QuadOpt
