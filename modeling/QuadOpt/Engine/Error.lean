/-
# Errors of a solver

Key definitions: `DataFault`, `EngineError`.
-/
import QuadOpt.Engine.Settings
import QuadOpt.Ldl.Order
import QuadOpt.Sparse.Csc

namespace QuadOpt

/-- What is wrong with problem data, or with new values for it. -/
inductive DataFault where
  /-- the objective matrix is not `n × n` -/
  | hessianSize (rows cols n : Nat)
  /-- a vector is too long or too short -/
  | length (name : String) (found expected : Nat)
  /-- the two vectors of bounds are too long or too short -/
  | boundLengths (lower upper expected : Nat)
  /-- a matrix is not well formed -/
  | format (name : String) (e : FormatError)
  /-- the objective matrix has an entry below the diagonal -/
  | notUpperTriangular
  /-- a number in the data is not finite -/
  | nonFiniteData
  /-- a bound of the problem is NaN -/
  | nanBound
  /-- a lower bound is above the upper bound of its row -/
  | crossedBounds (row : Nat)
  /-- a new linear objective is not finite -/
  | nonFiniteObjective
  /-- a new bound is NaN -/
  | nanNewBound
  /-- a new lower bound is not at or below the upper bound of its row -/
  | crossedNewBounds (row : Nat)
  /-- new matrix values are too many or too few -/
  | valueCount (found expected : Nat)
  /-- positions were given without values for them -/
  | indicesWithoutValues (name : String)
  /-- the numbers of values and positions differ -/
  | indexCount (name : String) (values indices : Nat)
  /-- there is no such position -/
  | indexRange (index count : Nat)
  /-- a matrix would hold a value that is not finite -/
  | nonFiniteMatrix
  /-- a fault that only its finder can describe -/
  | other (text : String)
  deriving DecidableEq, Repr

/-- The text of a fault. -/
def DataFault.message : DataFault → String
  | .hessianSize rows cols n => s!"P has size ({rows}, {cols}), expected ({n}, {n})"
  | .length name found expected => s!"{name} has length {found}, expected {expected}"
  | .boundLengths lower upper expected =>
    s!"bounds have lengths ({lower}, {upper}), expected {expected}"
  | .format name e => s!"{name} is badly formatted: {e.message}"
  | .notUpperTriangular => "P is not upper triangular"
  | .nonFiniteData => "problem data contains non-finite values"
  | .nanBound => "bounds contain NaN"
  | .crossedBounds row => s!"lower bound exceeds upper bound in row {row}"
  | .nonFiniteObjective => "q contains non-finite values"
  | .nanNewBound => "bounds contain NaN values"
  | .crossedNewBounds row => s!"lower bound exceeds upper bound in row {row}"
  | .valueCount found expected => s!"expected {expected} values, found {found}"
  | .indicesWithoutValues name => s!"indices for {name} given without values"
  | .indexCount name values indices => s!"{name} has {values} values but {indices} indices"
  | .indexRange index count => s!"index {index} out of range for {count} values"
  | .nonFiniteMatrix => "matrix values contain non-finite entries"
  | .other text => text

/-- Why a solver refused or gave up. Infeasible problems and inaccurate
solutions are no errors but statuses. -/
inductive EngineError where
  /-- the problem or a start point is not acceptable -/
  | dataValidation (fault : DataFault)
  /-- the settings are not acceptable -/
  | settings (e : SettingsError)
  /-- the linear system has no factorisation -/
  | linearSystem (e : LdlError)
  /-- the objective is not convex -/
  | nonConvex
  /-- memory ran out -/
  | outOfMemory
  /-- new data are not acceptable -/
  | dataUpdate (fault : DataFault)
  /-- a solve was asked of a session whose linear system is not factored -/
  | unfactored
  deriving DecidableEq, Repr

/-- The text of an engine error. -/
def EngineError.message : EngineError → String
  | .dataValidation fault => s!"Problem data validation failed: {fault.message}"
  | .settings e => s!"Settings validation failed: {e.message}"
  | .linearSystem e => s!"Linear system initialization failed: {e.message}"
  | .nonConvex => "Problem is non-convex"
  | .outOfMemory => "Memory allocation failed"
  | .dataUpdate fault => s!"Data update failed: {fault.message}"
  | .unfactored => "Linear system is not factored"

end QuadOpt
