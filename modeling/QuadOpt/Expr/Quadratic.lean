/-
# Quadratic expressions

A quadratic expression `Σ cᵢⱼ xᵢ xⱼ + Σ aᵢ xᵢ + c` names each product of two
variables in one way, with the smaller index first. A term `c x y` means just
that product, so `x x` has the coefficient one.

Key definitions: `VarPair`, `QuadExpr`, `QuadExpr.addProduct`,
`LinExpr.product`, `QuadExpr.value`, `QuadExpr.evaluate?`.
-/
import QuadOpt.Expr.Linear

namespace QuadOpt

/-- A product of two variables. -/
structure VarPair where
  first : Variable
  second : Variable
  ordered : first.index ≤ second.index
  deriving DecidableEq, Repr

namespace VarPair

/-- The product of `v` and `w`, which is that of `w` and `v`. -/
def of (v w : Variable) : VarPair :=
  if h : v.index ≤ w.index then ⟨v, w, h⟩ else ⟨w, v, by omega⟩

/-- Pairs are ordered by their first variables, and then by the second ones. -/
def le (p q : VarPair) : Bool :=
  decide (p.first.index < q.first.index) ||
    (p.first == q.first && decide (p.second.index ≤ q.second.index))

/-- The name of a product. -/
def text (p : VarPair) : String :=
  if p.first = p.second then s!"{p.first.text}²" else s!"{p.first.text} {p.second.text}"

end VarPair

/-- A quadratic expression. -/
structure QuadExpr (α : Type) where
  quadratic : TermMap VarPair α
  linear : LinExpr α
  deriving BEq, Inhabited

namespace QuadExpr

variable {α : Type} [Scalar α]

/-- An affine expression as a quadratic one. -/
def ofLinExpr (e : LinExpr α) : QuadExpr α := ⟨.empty, e⟩

/-- The expression zero, without terms. -/
def empty : QuadExpr α := ofLinExpr .empty

/-- The constant. -/
def constant (e : QuadExpr α) : α := e.linear.constant

/-- The coefficient stored for the product of `v` and `w`, if any. -/
def coefficient? (e : QuadExpr α) (v w : Variable) : Option α :=
  e.quadratic.get? (.of v w)

/-- Adds `c v w`. -/
def addProduct (e : QuadExpr α) (v w : Variable) (c : α) : QuadExpr α :=
  { e with quadratic := e.quadratic.add (.of v w) c }

/-- Changes the affine part. -/
def mapLinear (e : QuadExpr α) (f : LinExpr α → LinExpr α) : QuadExpr α :=
  { e with linear := f e.linear }

/-- Adds an affine expression. -/
def addLinExpr (e : QuadExpr α) (f : LinExpr α) : QuadExpr α := e.mapLinear fun g => g + f

/-- Subtracts an affine expression. -/
def subtractLinExpr (e : QuadExpr α) (f : LinExpr α) : QuadExpr α := e.mapLinear fun g => g - f

/-- The sum. -/
def add (e f : QuadExpr α) : QuadExpr α :=
  ⟨e.quadratic.addAll f.quadratic, e.linear + f.linear⟩

/-- The difference. -/
def sub (e f : QuadExpr α) : QuadExpr α :=
  ⟨e.quadratic.addAll (f.quadratic.map fun c => -c), e.linear - f.linear⟩

/-- Multiplies all coefficients and the constant by `k`. -/
def scale (e : QuadExpr α) (k : α) : QuadExpr α :=
  ⟨e.quadratic.map fun c => c * k, e.linear.scale k⟩

instance : Add (QuadExpr α) := ⟨add⟩
instance : Sub (QuadExpr α) := ⟨sub⟩
instance : Neg (QuadExpr α) := ⟨fun e => e.scale (-1)⟩

/-- The value at a point. -/
def value (e : QuadExpr α) (x : Variable → α) : α :=
  e.quadratic.toList.foldl (fun s t => s + t.2 * x t.1.first * x t.1.second) (e.linear.value x)

/-- The variables are among the first `n`. -/
def fits (e : QuadExpr α) (n : Nat) : Bool :=
  (e.quadratic.keys.all fun p => p.second.index < n) && e.linear.fits n

/-- The value at a point that is given by its coordinates, if it has one for each
variable. -/
def evaluate? (e : QuadExpr α) (x : Array α) : Option α :=
  if e.fits x.size then some (e.value fun v => x.getD v.index 0) else none

/-- The largest index of a variable. -/
def highestIndex? (e : QuadExpr α) : Option Nat :=
  (e.quadratic.keys.map (·.second.index) ++ e.linear.terms.keys.map (·.index)).max?

end QuadExpr

namespace LinExpr

variable {α : Type} [Scalar α]

/-- The terms whose coefficient is not zero. -/
def nonzeroTerms (e : LinExpr α) : List (Variable × α) := e.terms.toList.filter fun t => t.2 != 0

/-- The terms times a number; there are none for the number zero. -/
def termsTimes (e : LinExpr α) (k : α) : List (Variable × α) :=
  if k != 0 then e.nonzeroTerms.map fun t => (t.1, t.2 * k) else []

/-- The product. Terms with the coefficient zero leave no trace in it. -/
def product (e f : LinExpr α) : QuadExpr α where
  quadratic := TermMap.empty.addList (e.nonzeroTerms.flatMap fun s =>
    f.nonzeroTerms.map fun t => (.of s.1 t.1, s.2 * t.2))
  linear := {
    terms := (TermMap.empty.addList (e.termsTimes f.constant)).addList (f.termsTimes e.constant)
    constant := e.constant * f.constant }

end LinExpr
end QuadOpt
