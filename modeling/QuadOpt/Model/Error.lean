/-
# Errors of a model

Key definitions: `OutputError`, `ModelError`.
-/
import QuadOpt.Engine.Error

namespace QuadOpt

/-- Why output is lost or missing. -/
inductive OutputError where
  /-- the stream accepts no more text -/
  | streamClosed
  /-- output does not go to a buffer -/
  | notBuffered
  deriving DecidableEq, Repr

/-- The text of an output error. -/
def OutputError.message : OutputError → String
  | streamClosed => "stream closed"
  | notBuffered => "output is not being buffered"

/-- Why an operation on a model failed. Errors of the engine are told apart by
the phase of the solve in which they arose. -/
inductive ModelError where
  /-- a vector does not have an entry for each variable or constraint -/
  | dimensionMismatch (what : String) (expected found : Nat)
  /-- a comparison was strict -/
  | strictInequality
  /-- the session was given up -/
  | released
  /-- there is no solution to ask about -/
  | noSolution
  /-- the variable is none of the model's -/
  | unknownVariable (index : Nat)
  /-- no array has room for an entry for each variable: assembly stops, without an error -/
  | tooManyVariables
  /-- the constraint is none of the model's -/
  | unknownConstraint (index : Nat)
  | setup (e : EngineError)
  | solve (e : EngineError)
  | update (e : EngineError)
  /-- the report could not be written -/
  | output (e : OutputError)
  deriving DecidableEq, Repr

/-- The text of a model error. -/
def ModelError.message : ModelError → String
  | dimensionMismatch what expected found =>
    s!"Dimension mismatch for {what}: expected {expected}, found {found}"
  | strictInequality => "Strict inequalities are not supported"
  | released => "The model's engine session has been released"
  | noSolution => "No solution is available"
  | unknownVariable index => s!"Variable x{index} does not belong to this model"
  | tooManyVariables => "Too many variables"
  | unknownConstraint index => s!"Constraint {index} does not belong to this model"
  | setup e => s!"Engine setup failed: {e.message}"
  | solve e => s!"Engine solve failed: {e.message}"
  | update e => s!"Engine update failed: {e.message}"
  | output e => e.message

end QuadOpt
