/-
# The linear system of an iteration

    [ P + σ I    Aᵀ   ]
    [     A    -R⁻¹   ]

where `R` holds a step size for each constraint, which depends on the kind of
the constraint. The pattern is analysed once; the system is factored again when
the matrices or the step sizes change.

Key definitions: `ConstraintKind`, `LinearSystem`, `LinearSystem.new`,
`LinearSystem.withRho`, `LinearSystem.factor`, `LinearSystem.solve?`.
-/
import QuadOpt.Admm.Kkt
import QuadOpt.Admm.Problem
import QuadOpt.Ldl.Factorisation

namespace QuadOpt

variable {α : Type} [Scalar α] {n m : Nat}

/-- The kind of a constraint. -/
inductive ConstraintKind where
  /-- without bounds -/
  | free
  | inequality
  /-- with bounds that are hardly apart -/
  | equality
  deriving DecidableEq, Repr

namespace ConstraintKind

/-- The kind of a constraint with the given scaled bounds. -/
def classify (l u : α) : ConstraintKind :=
  if l < -Limits.infiniteBound ∧ Limits.infiniteBound < u then .free
  else if u - l < Limits.equalityWidth then .equality
  else .inequality

/-- The step size of a constraint. -/
def rho (t : α) : ConstraintKind → α
  | .free => Limits.minRho
  | .equality => Limits.equalityFactor * t
  | .inequality => t

end ConstraintKind

/-- How the elimination order of a system is chosen from its matrix; `none` keeps
the order of the rows. -/
abbrev Ordering? (α : Type) := Csc α → Option (Array Nat)

/-- The linear system with its step sizes and factors. -/
structure LinearSystem (α : Type) (n m : Nat) where
  pattern : Csc KktEntry
  /-- the upper triangle with the values it was last filled with -/
  K : Csc α
  ldl : Ldl α (n + m)
  rho : Vec α m
  rhoInv : Vec α m
  kinds : Vector ConstraintKind m

namespace LinearSystem

/-- Analyses the pattern of the system. Nothing is factored. -/
def new (ordering : Ordering? α) (P : SparseMatrix α n n) (A : SparseMatrix α m n) :
    Except LdlError (LinearSystem α n m) := do
  let pattern := assembleKkt n m P.csc A.csc
  let K : Csc α :=
    ⟨pattern.m, pattern.n, pattern.colptr, pattern.rowval, pattern.nzval.map fun _ => 0⟩
  let ldl ← Ldl.analyse K (n + m) (ordering K)
  return ⟨pattern, K, ldl, .fill m 0, .fill m 0, Vector.replicate m .inequality⟩

/-- Classifies the constraints by their scaled bounds. -/
def classify (S : LinearSystem α n m) (l u : Vec α m) : LinearSystem α n m :=
  { S with kinds := Vector.ofFn fun i => .classify (l.get i) (u.get i) }

/-- Sets the step sizes from the common one. -/
def withRho (S : LinearSystem α n m) (t : α) : LinearSystem α n m :=
  let rho : Vec α m := S.kinds.map (ConstraintKind.rho t)
  { S with rho := rho, rhoInv := rho.recip }

/-- Fills in the matrices and factors. Gives the number of positive pivots, which
is `n` exactly when `P + σ I + Aᵀ R A` is positive definite. -/
def factor (S : LinearSystem α n m) (P : SparseMatrix α n n) (A : SparseMatrix α m n)
    (sigma : α) : LinearSystem α n m × Except LdlError Nat :=
  let K := fillKkt S.pattern P.csc A.csc sigma S.rhoInv
  let ldl := (S.ldl.withValues? K.nzval).getD S.ldl
  let (ldl, result) := ldl.factor
  ({ S with K := K, ldl := ldl }, result)

/-- The intermediate point `(x̃, z̃)` that follows the iterate `(x, z, y)`, if the
system is factored. -/
def solve? (S : LinearSystem α n m) (x : Vec α n) (z y : Vec α m) (q : Vec α n) (sigma : α) :
    Option (Vec α n × Vec α m) :=
  let bx : Vec α n := .combine sigma x (-1) q
  let by_ : Vec α m := Vector.ofFn fun i => z.get i - S.rhoInv.get i * y.get i
  match S.ldl.solve? (bx ++ by_) with
  | none => none
  | some s =>
    let nu : Vec α m := Vec.bottom s
    some (Vec.top s, Vector.ofFn fun i => z.get i + S.rhoInv.get i * (nu.get i - y.get i))

end LinearSystem
end QuadOpt
