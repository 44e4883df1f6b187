/-
# Models

A model collects variables, constraints and an objective, and owns at most one
session of an engine, in `Model.workspace`. What becomes of the session is noted
in `Model.state`; after a release there will never be one again.

Key definitions: `Workspace`, `SessionState`, `StartPoint`, `Model`, `Model.new`,
`Model.addVariable`, `Model.addConstraint`, `Model.setStartPoint`,
`Model.standardForm`, `Model.value`, `Model.dualValue`.
-/
import QuadOpt.Model.Output
import QuadOpt.Model.Report

namespace QuadOpt

/-- A session, and the matrices that it was last given. -/
structure Workspace (α σ : Type) where
  session : σ
  P : Csc α
  A : Csc α

/-- What became of the session of a model. -/
inductive SessionState where
  /-- there is no session yet, or no longer -/
  | uninitialized
  /-- there is a live session -/
  | built
  /-- the session was given up for good -/
  | released
  deriving DecidableEq, Repr

/-- A point to start a solve from, or a part of one. -/
structure StartPoint (α : Type) where
  x : Option (Array α)
  y : Option (Array α)

/-- A model whose sessions have the type `σ` and share a value of type `ε`. -/
structure Model (α ε σ : Type) where
  shared : ε
  varCount : Nat
  constraints : Array (Constraint α)
  objective : QuadExpr α
  /-- the settings of the next solve -/
  settings : Settings α
  /-- the live session -/
  workspace : Option (Workspace α σ)
  state : SessionState
  /-- the outcome of the last solve, if it succeeded -/
  solution : Option (ModelSolution α)
  /-- where the next solve starts -/
  startPoint : Option (StartPoint α)
  output : Output

namespace Model

variable {α ε σ : Type} [Scalar α]

/-- An empty model. -/
def new (E : Engine α ε σ) (shared : ε) : Model α ε σ where
  shared := shared
  varCount := 0
  constraints := #[]
  objective := .empty
  settings := E.defaultSettings
  workspace := none
  state := .uninitialized
  solution := none
  startPoint := none
  output := ⟨.console, ""⟩

/-- Adds a variable. -/
def addVariable (M : Model α ε σ) : Variable × Model α ε σ :=
  (⟨M.varCount⟩, { M with varCount := M.varCount + 1 })

/-- Adds several variables. -/
def addVariables (M : Model α ε σ) (count : Nat) : List Variable × Model α ε σ :=
  ((List.range' M.varCount count).map Variable.mk, { M with varCount := M.varCount + count })

/-- Adds several variables, if an array has room for that many. -/
def addVariables? (M : Model α ε σ) (count : Nat) : Option (List Variable × Model α ε σ) :=
  if count ≤ arrayLimit then some (M.addVariables count) else none

/-- Adds a constraint, which is then known by its position. -/
def addConstraint (M : Model α ε σ) (c : Constraint α) : Nat × Model α ε σ :=
  (M.constraints.size, { M with constraints := M.constraints.push c })

/-- The constraint at a position. -/
def constraint (M : Model α ε σ) (i : Nat) : Except ModelError (Constraint α) :=
  match M.constraints[i]? with
  | some c => .ok c
  | none => .error (.unknownConstraint i)

/-- Replaces the bounds of a constraint. -/
def setBounds (M : Model α ε σ) (i : Nat) (lower upper : α) :
    Except ModelError (Model α ε σ) := do
  let c ← M.constraint i
  return { M with
    constraints := M.constraints.setIfInBounds i { c with lower := lower, upper := upper } }

/-- Redirects the reports. What a former output holds is not kept. -/
def printTo (M : Model α ε σ) (kind : OutputKind) : Model α ε σ :=
  { M with output := ⟨kind, ""⟩ }

/-- The session was not given up. -/
def requireLive (M : Model α ε σ) : Except ModelError Unit :=
  match M.state with
  | .released => .error .released
  | _ => .ok ()

/-- A vector that was given has the expected length. -/
def requireLength (what : String) (expected : Nat) (v : Option (Array α)) :
    Except ModelError Unit :=
  match v with
  | some v =>
    if v.size = expected then .ok () else .error (.dimensionMismatch what expected v.size)
  | none => .ok ()

/-- A start point has coordinates for `n` variables and `m` constraints. -/
def checkStartPoint (n m : Nat) (p : StartPoint α) : Except ModelError Unit := do
  requireLength "initial x" n p.x
  requireLength "initial y" m p.y

/-- Gives the next solve a point to start from. -/
def setStartPoint (M : Model α ε σ) (p : StartPoint α) :
    Except ModelError (Model α ε σ) := do
  M.requireLive
  checkStartPoint M.varCount M.constraints.size p
  return { M with startPoint := some p }

/-- The problem in standard form. -/
def standardForm (M : Model α ε σ) : Except ModelError (StandardForm α) :=
  StandardForm.assemble M.varCount M.objective M.constraints.toList

/-- The live session. -/
def session? (M : Model α ε σ) : Option σ := M.workspace.map Workspace.session

/-- What the live session says about its last solve. -/
def info? (E : Engine α ε σ) (M : Model α ε σ) : Option (Info α) := M.session?.map E.info

/-- The path that the last solve took. -/
def lastPath? (M : Model α ε σ) : Option SolvePath := M.solution.map ModelSolution.path

/-- The status of the last solve. -/
def status (M : Model α ε σ) : SolverStatus :=
  match M.solution with
  | some r => r.status
  | none => .unsolved

/-- The outcome of the last solve, if it includes a point. -/
def solutionWithPoint (M : Model α ε σ) : Except ModelError (ModelSolution α) := do
  M.requireLive
  match M.solution with
  | some r => if r.status.hasSolution then return r else throw .noSolution
  | none => throw .noSolution

/-- The value of a variable. -/
def value (M : Model α ε σ) (v : Variable) : Except ModelError α := do
  let r ← M.solutionWithPoint
  match r.x[v.index]? with
  | some t => return t
  | none => throw .noSolution

/-- The values of all variables. -/
def values (M : Model α ε σ) : Except ModelError (Array α) := do
  return (← M.solutionWithPoint).x

/-- The multiplier of a constraint. -/
def dualValue (M : Model α ε σ) (i : Nat) : Except ModelError α := do
  let r ← M.solutionWithPoint
  if M.constraints.size ≤ i then throw (.unknownConstraint i)
  match r.y[i]? with
  | some t => return t
  | none => throw .noSolution

/-- The objective with its constant. -/
def objectiveValue (M : Model α ε σ) : Except ModelError α := do
  return (← M.solutionWithPoint).objective

end Model
end QuadOpt
