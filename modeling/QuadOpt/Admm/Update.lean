/-
# Changes to a session

New vectors, matrix values, start points and settings. Input that is not
acceptable is refused before anything is changed; a change that is accepted
stays even if the system cannot be factored afterwards.

Key definitions: `replaceValues`, `Session.updateVectors`,
`Session.updateMatrices`, `Session.warmStart`, `Session.updateSettings`.
-/
import QuadOpt.Admm.Session

namespace QuadOpt

open Scalar

variable {α : Type} [Scalar α] {n m : Nat}

/-- Replaces all of the values, or those at the listed positions in turn. -/
def replaceValues {k : Nat} (name : String) (old : Vec α k) (values : Option (Array α))
    (indices : Option (Array Nat)) : Except DataFault (Vec α k) :=
  match values, indices with
  | none, none => .ok old
  | none, some _ => .error (.indicesWithoutValues name)
  | some v, none =>
    match Vec.ofArray? k v with
    | some v => .ok v
    | none => .error (.valueCount v.size k)
  | some v, some idx =>
    if v.size ≠ idx.size then .error (.indexCount name v.size idx.size)
    else match idx.find? fun i => decide (k ≤ i) with
      | some i => .error (.indexRange i k)
      | none => .ok ((idx.toList.zip v.toList).foldl (fun w e => w.setIfInBounds e.1 e.2) old)

/-- A vector of length `k`, if one is given. -/
def vecOfLength (name : String) (k : Nat) (v : Option (Array α)) :
    Except DataFault (Option (Vec α k)) :=
  match v with
  | none => .ok none
  | some v =>
    match Vec.ofArray? k v with
    | some w => .ok (some w)
    | none => .error (.length name v.size k)

/-- New vectors that were found acceptable. -/
structure NewVectors (α : Type) (n m : Nat) where
  q : Option (Vec α n)
  l : Vec α m
  u : Vec α m

namespace Session

/-- Checks new vectors. Bounds that are not given stay as they are; the magnitude
of all is limited. -/
def checkVectors (S : Session α n m) (q l u : Option (Array α)) :
    Except DataFault (NewVectors α n m) := do
  let q ← vecOfLength "q" n q
  let l ← vecOfLength "l" m l
  let u ← vecOfLength "u" m u
  if q.any fun q => !q.allFinite then throw .nonFiniteObjective
  if l.any (·.toList.any isNaN) || u.any (·.toList.any isNaN) then throw .nanNewBound
  let lower := clampLower (l.getD S.data.user.l)
  let upper := clampUpper (u.getD S.data.user.u)
  match (List.finRange m).find? fun (i : Fin m) => !decide (lower.get i ≤ upper.get i) with
  | some i => throw (.crossedNewBounds i)
  | none => return ⟨q, lower, upper⟩

/-- Clears the status of the last solve. -/
def markUnsolved (S : Session α n m) : Session α n m :=
  { S with info := { S.info with status := .unsolved } }

/-- Factors the system, after which the session is unsolved. -/
def factorUnsolved (S : Session α n m) : Except EngineError Unit × Session α n m :=
  match S.factorSystem with
  | (.ok (), S) => (.ok (), S.markUnsolved)
  | (.error e, S) => (.error e, S)

/-- Replaces the linear objective and the bounds. The system is factored again
only if the kind of a constraint changes. -/
def updateVectors (S : Session α n m) (q l u : Option (Array α)) :
    Except EngineError Unit × Session α n m :=
  match S.checkVectors q l u with
  | .error e => (.error (.dataUpdate e), S)
  | .ok new =>
    let user := { S.data.user with q := new.q.getD S.data.user.q, l := new.l, u := new.u }
    let data := ({ S.data with user := user } : Problem α n m).scaleVectors
    let system := S.system.classify data.work.l data.work.u
    if system.kinds = S.system.kinds then
      (.ok (), ({ S with data := data, system := system } : Session α n m).markUnsolved)
    else
      ({ S with data := data, system := system.withRho S.rho } : Session α n m).factorUnsolved

/-- Checks new matrix values. -/
def checkMatrices (S : Session α n m) (Px : Option (Array α)) (PxIdx : Option (Array Nat))
    (Ax : Option (Array α)) (AxIdx : Option (Array Nat)) :
    Except DataFault (Vec α S.data.user.P.nnz × Vec α S.data.user.A.nnz) := do
  let P ← replaceValues "P" S.data.user.P.values Px PxIdx
  let A ← replaceValues "A" S.data.user.A.values Ax AxIdx
  if !(P.allFinite && A.allFinite) then throw .nonFiniteMatrix
  return (P, A)

/-- Replaces values of the matrices, after which the problem is equilibrated
anew. The iterate is kept in the coordinates of the user. -/
def updateMatrices (S : Session α n m) (Px : Option (Array α)) (PxIdx : Option (Array Nat))
    (Ax : Option (Array α)) (AxIdx : Option (Array Nat)) :
    Except EngineError Unit × Session α n m :=
  if Px.isNone && PxIdx.isNone && Ax.isNone && AxIdx.isNone then (.ok (), S)
  else match S.checkMatrices Px PxIdx Ax AxIdx with
    | .error e => (.error (.dataUpdate e), S)
    | .ok (P, A) =>
      let (x, y) := S.userPoint
      let user := { S.data.user with
        P := S.data.user.P.withValues P
        A := S.data.user.A.withValues A
        upper := S.data.user.upper }
      let data := ({ S.data with user := user } : Problem α n m).equilibrate
        S.settings.scaling.toNat
      let S := (({ S with data := data } : Session α n m).movePoint x).moveMultipliers y
      let system := (S.system.classify data.work.l data.work.u).withRho S.rho
      ({ S with system := system } : Session α n m).factorUnsolved

/-- Checks a start point. -/
def checkStart (x y : Option (Array α)) :
    Except DataFault (Option (Vec α n) × Option (Vec α m)) :=
  do return (← vecOfLength "warm start x" n x, ← vecOfLength "warm start y" m y)

/-- Sets the start point of the next solve. -/
def warmStart (S : Session α n m) (x y : Option (Array α)) :
    Except EngineError Unit × Session α n m :=
  match (checkStart x y : Except DataFault (Option (Vec α n) × Option (Vec α m))) with
  | .error e => (.error (.dataValidation e), S)
  | .ok (x, y) =>
    let S := match x with
      | some x => S.movePoint x
      | none => S
    let S := match y with
      | some y => S.moveMultipliers y
      | none => S
    (.ok (), { S with startPending := true })

/-- Replaces the settings. The system is factored again if the step size is
another. -/
def updateSettings (S : Session α n m) (settings : Settings α) :
    Except EngineError Unit × Session α n m :=
  match settings.validateUpdate S.settings with
  | .error e => (.error (.settings e), S)
  | .ok () =>
    if settings.rho != S.settings.rho then
      ({ S with
        settings := settings
        rho := settings.rho
        info := { S.info with rhoEstimate := settings.rho }
        system := S.system.withRho settings.rho } : Session α n m).factorSystem
    else (.ok (), { S with settings := settings })

end Session
end QuadOpt
