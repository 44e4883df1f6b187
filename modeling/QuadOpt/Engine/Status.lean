/-
# Outcomes of a solve

Key definitions: `SolverStatus`, `SolverStatus.hasSolution`, `PolishStatus`.
-/

namespace QuadOpt

/-- How a solve ended. -/
inductive SolverStatus where
  /-- with a solution -/
  | solved
  /-- with a solution of reduced accuracy -/
  | solvedInaccurate
  /-- no point satisfies the constraints -/
  | primalInfeasible
  /-- no point satisfies the constraints, found with reduced accuracy -/
  | primalInfeasibleInaccurate
  /-- the objective is unbounded below -/
  | dualInfeasible
  /-- the objective is unbounded below, found with reduced accuracy -/
  | dualInfeasibleInaccurate
  /-- the iterations were used up -/
  | maxIterReached
  /-- the time was used up -/
  | timeLimitReached
  /-- the objective matrix is not positive semidefinite -/
  | nonConvex
  /-- stopped by the caller -/
  | interrupted
  /-- nothing has been solved -/
  | unsolved
  deriving DecidableEq, Repr

/-- At first nothing has been solved. -/
instance : Inhabited SolverStatus := ⟨.unsolved⟩

namespace SolverStatus

/-- The text of a status. -/
def text : SolverStatus → String
  | solved => "Solved"
  | solvedInaccurate => "SolvedInaccurate"
  | primalInfeasible => "PrimalInfeasible"
  | primalInfeasibleInaccurate => "PrimalInfeasibleInaccurate"
  | dualInfeasible => "DualInfeasible"
  | dualInfeasibleInaccurate => "DualInfeasibleInaccurate"
  | maxIterReached => "MaxIterReached"
  | timeLimitReached => "TimeLimitReached"
  | nonConvex => "NonConvex"
  | interrupted => "Interrupted"
  | unsolved => "Unsolved"

/-- All statuses. -/
def all : List SolverStatus :=
  [solved, solvedInaccurate, primalInfeasible, primalInfeasibleInaccurate, dualInfeasible,
    dualInfeasibleInaccurate, maxIterReached, timeLimitReached, nonConvex, interrupted, unsolved]

/-- The status with a given text. -/
def ofText? (s : String) : Option SolverStatus := all.find? fun st => st.text == s

/-- A solution was found, accurate or not. -/
def isSolved : SolverStatus → Bool
  | solved | solvedInaccurate => true
  | _ => false

/-- The problem has no solution. -/
def isInfeasible : SolverStatus → Bool
  | primalInfeasible | primalInfeasibleInaccurate
  | dualInfeasible | dualInfeasibleInaccurate => true
  | _ => false

/-- The outcome meets relaxed tolerances only. -/
def isInaccurate : SolverStatus → Bool
  | solvedInaccurate | primalInfeasibleInaccurate | dualInfeasibleInaccurate => true
  | _ => false

/-- There is a primal point after a solve that ended so. Limits and
interruptions leave the last iterate. -/
def hasSolution (s : SolverStatus) : Bool :=
  !(s.isInfeasible || s == nonConvex || s == unsolved)

end SolverStatus

/-- What became of the polishing of a solution. -/
inductive PolishStatus where
  | notPerformed
  | succeeded
  /-- the polished point was discarded -/
  | failed
  deriving DecidableEq, Repr

end QuadOpt
