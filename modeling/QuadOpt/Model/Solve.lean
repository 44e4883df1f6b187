/-
# Solving a model

A solve assembles the problem, brings it into a session, passes on a start point
if there is one, and runs the session. Each phase may fail, and leaves the model
in a state from which the next solve goes on: a session that failed to take over
new values is dropped, and the outcome of an earlier solve is gone in any case.

Key definitions: `ModelM`, `Model.discardSession`, `Model.choosePath`, `Model.startSession`,
`Model.pushChanges`, `Model.updateSession`, `Model.bring`,
`Model.passStartPoint`, `Model.prepare`, `Model.recordOutcome`,
`Model.runSession`, `Model.solve`, `Model.release`.
-/
import QuadOpt.Model.Basic

namespace QuadOpt

/-- A computation that changes a model and may fail. What it changed before the
failure stays changed. -/
abbrev ModelM (α ε σ : Type) := ExceptT ModelError (StateM (Model α ε σ))

namespace Model

variable {α ε σ : Type} [Scalar α]

/-- Drops the session, if there is one. -/
def dropSession (E : Engine α ε σ) (M : Model α ε σ) : Model α ε σ :=
  match M.workspace with
  | some w => { M with workspace := none, shared := E.drop w.session M.shared }
  | none => M

/-- Drops the session; another one may be set up. -/
def discardSession (E : Engine α ε σ) (M : Model α ε σ) : Model α ε σ :=
  { dropSession E M with state := .uninitialized }

/-- The path for a problem. -/
def choosePath (E : Engine α ε σ) (M : Model α ε σ) (F : StandardForm α) : SolvePath :=
  match M.workspace with
  | some w => .select w.P w.A F (E.settings w.session) M.settings
  | none => .setup

/-- Calls the live session; errors belong to the given phase. -/
def callSession (E : Engine α ε σ) (phase : EngineError → ModelError) (c : SessionCall α) :
    ModelM α ε σ Unit := do
  let M ← get
  match M.workspace with
  | some w =>
    match E.call c w.session M.shared with
    | (result, session, shared) =>
      set { M with workspace := some { w with session := session }, shared := shared }
      match result with
      | .ok () => return ()
      | .error e => throw (phase e)
  | none => throw .noSolution

/-- Writes lines of a report, if reports are asked for. -/
def report (lines : List String) : ModelM α ε σ Unit := do
  let M ← get
  if M.settings.verbose then
    match M.output.writeLines lines with
    | (result, output) =>
      set { M with output := output }
      match result with
      | .ok () => return ()
      | .error e => throw (.output e)

/-- Brings a problem into a new session. A former session is dropped before. -/
def startSession (E : Engine α ε σ) (F : StandardForm α) : ModelM α ε σ Unit := do
  modify (discardSession E)
  let M ← get
  match E.setup F.toQpData M.settings M.shared with
  | (.ok session, shared) =>
    set { M with workspace := some ⟨session, F.P, F.A⟩, state := .built, shared := shared }
  | (.error e, shared) =>
    set { M with shared := shared }
    throw (.setup e)

/-- Brings settings that changed into the live session. -/
def pushSettings (E : Engine α ε σ) : ModelM α ε σ Unit := do
  let M ← get
  match M.workspace with
  | some w =>
    if E.settings w.session != M.settings then
      callSession E .update (.updateSettings M.settings)
  | none => return ()

/-- Notes the values of the matrices that the session was given. -/
def copyMatrices (F : StandardForm α) (M : Model α ε σ) : Model α ε σ :=
  match M.workspace with
  | some w => { M with workspace := some { w with
      P := { w.P with nzval := F.P.nzval }, A := { w.A with nzval := F.A.nzval } } }
  | none => M

/-- The values of `new`, if they differ from those of `old`. -/
def newValues (old new : Csc α) : Option (Array α) :=
  if old.nzval != new.nzval then some new.nzval else none

/-- Brings the matrices that changed into the live session. -/
def pushMatrices (E : Engine α ε σ) (F : StandardForm α) : ModelM α ε σ Unit := do
  let M ← get
  match M.workspace with
  | some w =>
    let Px := newValues w.P F.P
    let Ax := newValues w.A F.A
    if Px.isSome || Ax.isSome then
      callSession E .update (.updateMatrices Px none Ax none)
      modify (copyMatrices F)
  | none => return ()

/-- Brings new settings and values into the live session: first settings that
changed, then matrices that changed, and then all vectors. -/
def pushChanges (E : Engine α ε σ) (F : StandardForm α) : ModelM α ε σ Unit := do
  pushSettings E
  pushMatrices E F
  callSession E .update (.updateVectors (some F.q) (some F.l) (some F.u))

/-- Brings a problem into the live session, which is dropped if that fails. -/
def updateSession (E : Engine α ε σ) (F : StandardForm α) : ModelM α ε σ Unit := do
  try pushChanges E F
  catch e =>
    modify (discardSession E)
    throw e

/-- Brings a problem into a session by the given path. -/
def bring (E : Engine α ε σ) (F : StandardForm α) : SolvePath → ModelM α ε σ Unit
  | .setup | .rebuild => startSession E F
  | .update => updateSession E F

/-- Takes the start point, and passes it on to the session. -/
def passStartPoint (E : Engine α ε σ) (F : StandardForm α) : ModelM α ε σ Unit := do
  match (← get).startPoint with
  | none => return ()
  | some p =>
    modify fun M => { M with startPoint := none }
    ExceptT.mk (pure (checkStartPoint F.varCount F.constraintCount p))
    callSession E .update (.warmStart p.x p.y)

/-- Stores the outcome of a solve. -/
def recordOutcome (E : Engine α ε σ) (F : StandardForm α) (path : SolvePath) :
    ModelM α ε σ (ModelSolution α) := do
  match (← get).session? with
  | none => throw .noSolution
  | some session =>
    let info := E.info session
    let solution := E.solution session
    let r : ModelSolution α := {
      status := info.status, x := solution.x, y := solution.y
      objective := info.objVal + F.constant
      iterations := info.iter, solveTime := info.solveTime, path := path }
    modify fun M => { M with solution := some r }
    return r

/-- Brings the problem that the model describes into a session, with the start
point. The outcome of an earlier solve is gone from here on. -/
def prepare [ScalarText α] (E : Engine α ε σ) : ModelM α ε σ (StandardForm α × SolvePath) := do
  ExceptT.mk (pure (← get).requireLive)
  modify fun M => { M with solution := none }
  let M ← get
  let F ← ExceptT.mk (pure M.standardForm)
  let path := M.choosePath E F
  report (configurationReport F M.settings path)
  bring E F path
  passStartPoint E F
  return (F, path)

/-- Runs the session on the problem that was brought into it. -/
def runSession [ScalarText α] (E : Engine α ε σ) (F : StandardForm α) (path : SolvePath) :
    ModelM α ε σ SolverStatus := do
  callSession E .solve .solve
  let r ← recordOutcome E F path
  report (outcomeReport r)
  return r.status

/-- Solves the problem that the model describes. -/
def solve [ScalarText α] (E : Engine α ε σ) : ModelM α ε σ SolverStatus := do
  let (F, path) ← prepare E
  runSession E F path

/-- Gives up the session for good. -/
def release (E : Engine α ε σ) (M : Model α ε σ) : Model α ε σ :=
  { dropSession E M with state := .released, solution := none, startPoint := none }

end Model
end QuadOpt
