/-
# Reports

What a model prints before and after a solve, line by line.

Key definitions: `ModelSolution`, `configurationReport`, `outcomeReport`.
-/
import QuadOpt.Decimal.Duration
import QuadOpt.Decimal.Text
import QuadOpt.Model.Path

namespace QuadOpt

/-- The outcome of a solve. -/
structure ModelSolution (α : Type) where
  status : SolverStatus
  /-- a value for each variable -/
  x : Array α
  /-- a multiplier for each constraint -/
  y : Array α
  /-- the objective with its constant -/
  objective : α
  iterations : Nat
  solveTime : Float
  path : SolvePath

variable {α : Type} [Scalar α] [ScalarText α]

open ScalarText

/-- The line between the parts of a report. -/
def ruleLine : String := String.ofList (List.replicate 61 '-')

/-- The state of a switch. -/
def switchText (b : Bool) : String := if b then "on" else "off"

/-- The time limit; there is a word for none. -/
def timeLimitText (t : Float) : String :=
  if t.isInf then "Inf" else floatText .journal t

/-- The lines about the settings. -/
def settingsReport (s : Settings α) : List String :=
  let small (x : α) : String := text (.scientific 1) x
  let large (x : α) : String := text (.scientific 2) x
  let adaptation := if s.adaptiveRho then "adaptive" else "fixed"
  ["settings:",
    s!"  max iter = {s.maxIter}, time limit = {timeLimitText s.timeLimit}, " ++
      s!"check every {s.checkTermination}",
    s!"  eps_abs = {small s.epsAbs}, eps_rel = {small s.epsRel}, " ++
      s!"eps_prim_inf = {small s.epsPrimInf}, eps_dual_inf = {small s.epsDualInf}",
    s!"  rho = {large s.rho} ({adaptation}), sigma = {large s.sigma}, " ++
      s!"alpha = {text (.fixed 2) s.alpha}",
    s!"  scaling: {s.scaling} iter, polishing: {switchText s.polishing}, " ++
      s!"warm starting: {switchText s.warmStarting}"]

/-- The lines before a solve. -/
def configurationReport (F : StandardForm α) (s : Settings α) (path : SolvePath) : List String :=
  [ruleLine, "           qpmodel v0.3.0", ruleLine,
    "problem:",
    s!"  variables     = {F.varCount}",
    s!"  constraints   = {F.constraintCount}",
    s!"  nnz(P)        = {F.P.nnz}",
    s!"  nnz(A)        = {F.A.nnz}",
    s!"  session       = {path.text}",
    ""] ++ settingsReport s ++ [""]

/-- The lines after a solve. -/
def outcomeReport (r : ModelSolution α) : List String :=
  [ruleLine,
    s!"Terminated with status = {r.status.text}",
    s!"iterations = {r.iterations}"]
  ++ (if r.status.hasSolution then
      [s!"objective = {text (.signedScientific 6) r.objective}"] else [])
  ++ [s!"solve time = {durationText r.solveTime}"]

end QuadOpt
