/-
# Polishing

A solution is refined by solving the problem with the constraints that are
active at it as equations, and the others left out. The refined point is taken
over only if neither residual grows.

Key definitions: `ActiveRow`, `Session.activeRows`, `Session.refinedIterate?`,
`Session.polish`.
-/
import QuadOpt.Admm.Step
import QuadOpt.Sparse.Triplets

namespace QuadOpt

open Scalar

variable {α : Type} [Scalar α] {n m : Nat}

/-- A constraint that is taken for an equation with the given right hand side. -/
structure ActiveRow (α : Type) (m : Nat) where
  row : Fin m
  bound : α

namespace Session

/-- The constraints active at the iterate: at a lower bound multipliers are
negative, at an upper bound positive. -/
def activeRows (S : Session α n m) : List (ActiveRow α m) :=
  (List.finRange m).filterMap fun (i : Fin m) =>
    let z := S.vars.z.get i
    let y := S.vars.y.get i
    let l := S.data.work.l.get i
    let u := S.data.work.u.get i
    if z - l < -y then some ⟨i, l⟩
    else if u - z < y then some ⟨i, u⟩
    else none

/-- The rows of `A` that are active, as a matrix. -/
def activeMatrix (A : Csc α) (n : Nat) (active : List (ActiveRow α m)) : Csc α :=
  .ofTriplets active.length n (A.entries.filterMap fun e =>
    let k := active.findIdx fun r => r.row.val == e.1
    if k < active.length then some ⟨k, e.2.1, e.2.2⟩ else none)

/-- The residual of the equations at `s`, for the right hand side `b`. -/
def equationResidual {k : Nat} (P A : Csc α) (b s : Vec α (n + k)) : Vec α (n + k) :=
  let sx : Vec α n := Vec.top s
  let sy : Vec α k := Vec.bottom s
  A.transposeMulVecAdd (-1) sy 1 (P.symMulVecAdd (-1) sx 1 (Vec.top b))
    ++ A.mulVecAdd (-1) sx 1 (Vec.bottom b)

/-- Rounds of refinement of the solution `s`, as long as the system is
factored. -/
def refine? {k : Nat} (P A : Csc α) (ldl : Ldl α (n + k)) (b : Vec α (n + k)) :
    Nat → Vec α (n + k) → Option (Vec α (n + k))
  | 0, s => some s
  | rounds + 1, s =>
    match ldl.solve? (equationResidual P A b s) with
    | none => none
    | some r => refine? P A ldl b rounds (.combine 1 r 1 s)

/-- The solution of the equations of the active rows, of which the system is
regularised by `delta` and the solution then refined. -/
def solveEquations? (ordering : Ordering? α) (D : Instance α n m)
    (active : List (ActiveRow α m)) (delta : α) (rounds : Nat) :
    Option (Vec α (n + active.length)) :=
  let A := activeMatrix D.A.csc n active
  let K := fillKkt (assembleKkt n active.length D.P.csc A) D.P.csc A delta
    (.fill active.length delta)
  match Ldl.analyse K (n + active.length) (ordering K) with
  | .error _ => none
  | .ok ldl =>
    match ldl.factor with
    | (_, .error _) => none
    | (ldl, .ok _) =>
      let b : Vec α (n + active.length) :=
        D.q.negate ++ (Vector.ofFn fun k : Fin active.length => (active.get k).bound)
      match ldl.solve? b with
      | none => none
      | some s => refine? D.P.csc A ldl b rounds s

/-- The refined `(x, z, y)`, unless the equations cannot be solved. -/
def refinedIterate? (env : Environment α) (S : Session α n m) :
    Option (Vec α n × Vec α m × Vec α m) :=
  let D := S.data.work
  let active := S.activeRows
  match solveEquations? env.ordering D active S.settings.delta
      S.settings.polishRefineIter.toNat with
  | none => none
  | some s =>
    let x : Vec α n := Vec.top s
    let nu : Vec α active.length := Vec.bottom s
    let z : Vec α m := (D.A.csc.mulVec m x).clip D.l D.u
    let y : Vec α m := (List.finRange active.length).foldl (fun y (k : Fin active.length) =>
      y.put (active.get k).row (nu.get k)) (.fill m 0)
    some (x, z, y)

/-- Marks the outcome of polishing. -/
def markPolish (S : Session α n m) (p : PolishStatus) : Session α n m :=
  { S with info := { S.info with polish := p } }

/-- Refines the iterate if that makes neither residual worse. -/
def polish (env : Environment α) (S : Session α n m) : Session α n m :=
  match S.refinedIterate? env with
  | none => S.markPolish .failed
  | some (x, z, y) =>
    let R := ({ S with vars := { S.vars with x := x, z := z, y := y } } :
      Session α n m).measure
    if R.res.prim ≤ maxNum S.res.prim Limits.tiny ∧
        R.res.dual ≤ maxNum S.res.dual Limits.tiny then
      R.markPolish .succeeded
    else S.markPolish .failed

end Session
end QuadOpt
