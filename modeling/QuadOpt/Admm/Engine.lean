/-
# The operator splitting engine

Key definitions: `AdmmSession`, `Session.call`, `Environment.default`,
`admmEngine`.
-/
import QuadOpt.Admm.Solve
import QuadOpt.Admm.Update
import QuadOpt.Ldl.Sparsest

namespace QuadOpt

variable {α : Type} [Scalar α]

/-- Changes a session. -/
def Session.call {n m : Nat} (env : Environment α) (S : Session α n m) :
    SessionCall α → Except EngineError Unit × Session α n m
  | .solve => S.solve env
  | .updateVectors q l u => S.updateVectors q l u
  | .updateMatrices Px PxIdx Ax AxIdx => S.updateMatrices Px PxIdx Ax AxIdx
  | .warmStart x y => S.warmStart x y
  | .updateSettings settings => S.updateSettings settings

/-- A session of some dimensions. -/
structure AdmmSession (α : Type) where
  n : Nat
  m : Nat
  session : Session α n m

namespace AdmmSession

/-- Validates settings and data and creates a session. -/
def setup (env : Environment α) (D : QpData α) (settings : Settings α) :
    Except EngineError (AdmmSession α) :=
  match settings.validate with
  | .error e => .error (.settings e)
  | .ok () =>
    match D.validate with
    | .error e => .error (.dataValidation e)
    | .ok I =>
      match Session.setup env I settings with
      | .error e => .error e
      | .ok S => .ok ⟨_, _, S⟩

/-- Changes a session. -/
def call (env : Environment α) (S : AdmmSession α) (c : SessionCall α) :
    Except EngineError Unit × AdmmSession α :=
  match S.session.call env c with
  | (r, T) => (r, ⟨S.n, S.m, T⟩)

end AdmmSession

/-- An iteration takes a nanosecond, and sparse rows are eliminated first. This order stands in for
the one that `amd` computes, with which the same solve may round differently. -/
def Environment.default : Environment α where
  ordering K := some K.sparsestFirst
  elapsed k := Float.ofNat k * 1e-9

/-- The engine that solves by operator splitting. Its sessions share nothing. -/
def admmEngine (env : Environment α) : Engine α Unit (AdmmSession α) where
  defaultSettings := .default
  setup D settings _ := (AdmmSession.setup env D settings, ())
  call c S _ :=
    match S.call env c with
    | (r, S) => (r, S, ())
  drop _ _ := ()
  solution S := S.session.solution
  info S := S.session.info
  settings S := S.session.settings

end QuadOpt
