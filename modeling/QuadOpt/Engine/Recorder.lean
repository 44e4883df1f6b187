/-
# Recorded engines

`Engine.recorded` makes an engine that does what another one does and notes every
call. A call can be made to fail: it is noted, and then refused with the error
planned for it without reaching the engine. At most one error is planned at any
time.

Key definitions: `CallName`, `Recorder`, `Recorder.plan`, `Engine.recorded`.
-/
import QuadOpt.Engine.Basic

namespace QuadOpt

/-- The calls on an engine and its sessions. An update of the matrices is told
by the matrices that it has values for. -/
inductive CallName where
  | setup
  | solve
  | updateVectors
  | updateMatrices (P A : Bool)
  | warmStart
  | updateSettings
  | drop
  deriving DecidableEq, Repr

namespace CallName

/-- The text of a call. -/
def text : CallName → String
  | setup => "setup"
  | solve => "solve"
  | updateVectors => "update_data_vectors"
  | updateMatrices false false => "update_data_matrices()"
  | updateMatrices true false => "update_data_matrices(P)"
  | updateMatrices false true => "update_data_matrices(A)"
  | updateMatrices true true => "update_data_matrices(P,A)"
  | warmStart => "warm_start"
  | updateSettings => "update_settings"
  | drop => "drop"

/-- All calls. -/
def all : List CallName :=
  [setup, solve, updateVectors, updateMatrices false false, updateMatrices true false,
    updateMatrices false true, updateMatrices true true, warmStart, updateSettings, drop]

/-- The call with the given text. -/
def ofText? (s : String) : Option CallName := all.find? fun c => c.text == s

/-- The name of a call on a session. -/
def ofCall {α : Type} : SessionCall α → CallName
  | .solve => solve
  | .updateVectors .. => updateVectors
  | .updateMatrices Px _ Ax _ => updateMatrices Px.isSome Ax.isSome
  | .warmStart .. => warmStart
  | .updateSettings _ => updateSettings

end CallName

/-- What the sessions of a recorded engine share. -/
structure Recorder (ε : Type) where
  /-- what they share in the engine that is recorded -/
  inner : ε
  /-- the calls so far, the latest last -/
  calls : List CallName := []
  /-- the error to come, for the next call of that name -/
  fault : Option (CallName × EngineError) := none

namespace Recorder

variable {ε : Type}

/-- Plans an error for the next call of the given name, in place of one that
was planned before and has not come. -/
def plan (r : Recorder ε) (c : CallName) (e : EngineError) : Recorder ε :=
  { r with fault := some (c, e) }

/-- Notes a call, and gives the error planned for it. -/
def note (r : Recorder ε) (c : CallName) : Option EngineError × Recorder ε :=
  ((r.fault.filter fun f => f.1 == c).map Prod.snd,
    { r with
      calls := r.calls ++ [c]
      fault := r.fault.filter fun f => f.1 != c })

end Recorder

/-- The engine `E`, with a record of the calls. -/
def Engine.recorded {α ε σ : Type} (E : Engine α ε σ) : Engine α (Recorder ε) σ where
  defaultSettings := E.defaultSettings
  setup D settings r :=
    match r.note .setup with
    | (some e, r) => (.error e, r)
    | (none, r) =>
      let (result, inner) := E.setup D settings r.inner
      (result, { r with inner := inner })
  call c s r :=
    match r.note (.ofCall c) with
    | (some e, r) => (.error e, s, r)
    | (none, r) =>
      let (result, s, inner) := E.call c s r.inner
      (result, s, { r with inner := inner })
  drop s r :=
    let r := (r.note .drop).2
    { r with inner := E.drop s r.inner }
  solution := E.solution
  info := E.info
  settings := E.settings

end QuadOpt
