/-
# Engines and sessions

An engine makes sessions for quadratic programs

    minimize    ½ xᵀ P x + qᵀ x
    subject to  l ≤ A x ≤ u

and a session is solved, changed and solved again. Everything that changes a
session is a `SessionCall`, so that the history of a session is a list of calls.

Key definitions: `QpData`, `Solution`, `Info`, `SessionCall`, `Engine`.
-/
import QuadOpt.Engine.Error
import QuadOpt.Engine.Status

namespace QuadOpt

/-- A quadratic program as it is handed to an engine. `P` holds the upper
triangle. -/
structure QpData (α : Type) where
  P : Csc α
  q : Array α
  A : Csc α
  l : Array α
  u : Array α
  deriving BEq, Repr

/-- The solution of a session. If the problem was found infeasible the point is
undefined and the certificate holds the proof. -/
structure Solution (α : Type) where
  x : Array α
  /-- the multipliers of the constraints -/
  y : Array α
  /-- a combination of the constraints that no point satisfies -/
  primInfCert : Array α
  /-- a direction in which the objective falls forever -/
  dualInfCert : Array α

/-- What a session says about its last solve. -/
structure Info (α : Type) where
  /-- iterations taken -/
  iter : Nat
  status : SolverStatus
  /-- the objective without its constant -/
  objVal : α
  /-- `‖A x - z‖∞` -/
  primRes : α
  /-- `‖P x + q + Aᵀ y‖∞` -/
  dualRes : α
  /-- changes of the step size -/
  rhoUpdates : Nat
  /-- the latest estimate of a good step size -/
  rhoEstimate : α
  polish : PolishStatus
  /-- the time the solve took, in seconds -/
  solveTime : Float

/-- A change to a session. Data that are not given stay as they are. -/
inductive SessionCall (α : Type) where
  /-- solve the problem -/
  | solve
  /-- replace the linear objective or the bounds -/
  | updateVectors (q l u : Option (Array α))
  /-- replace values of the matrices: all of them, or those at the listed
  positions of the storage -/
  | updateMatrices (Px : Option (Array α)) (PxIdx : Option (Array Nat))
      (Ax : Option (Array α)) (AxIdx : Option (Array Nat))
  /-- set the point that the next solve starts from -/
  | warmStart (x y : Option (Array α))
  /-- replace the settings -/
  | updateSettings (settings : Settings α)

/-- An engine with sessions of type `σ`. What all its sessions share is a value
of type `ε`, which every operation may change. -/
structure Engine (α ε σ : Type) where
  defaultSettings : Settings α
  /-- creates a session -/
  setup : QpData α → Settings α → ε → Except EngineError σ × ε
  /-- changes a session -/
  call : SessionCall α → σ → ε → Except EngineError Unit × σ × ε
  /-- ends a session -/
  drop : σ → ε → ε
  solution : σ → Solution α
  info : σ → Info α
  settings : σ → Settings α

end QuadOpt
