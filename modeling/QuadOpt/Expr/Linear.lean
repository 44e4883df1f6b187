/-
# Affine expressions

An affine expression `Σ aᵢ xᵢ + c` has each variable at most once. Combining
expressions adds up coefficients and keeps those that become zero.

Key definitions: `Variable`, `LinExpr`, `LinExpr.addTerm`, `LinExpr.scale`,
`LinExpr.value`, `LinExpr.evaluate?`.
-/
import QuadOpt.Expr.TermMap

namespace QuadOpt

/-- A decision variable, known by its position in a point. -/
structure Variable where
  index : Nat
  deriving DecidableEq, Repr

namespace Variable

/-- Variables are ordered by their index. -/
def le (v w : Variable) : Bool := v.index ≤ w.index

/-- The name of a variable. -/
def text (v : Variable) : String := s!"x{v.index}"

end Variable

/-- An affine expression. -/
structure LinExpr (α : Type) where
  terms : TermMap Variable α
  constant : α
  deriving BEq, Inhabited

namespace LinExpr

variable {α : Type} [Scalar α]

/-- The constant expression `c`. -/
def ofConstant (c : α) : LinExpr α := ⟨.empty, c⟩

/-- The expression zero, without terms. -/
def empty : LinExpr α := ofConstant 0

/-- The coefficient stored for `v`, if any. -/
def coefficient? (e : LinExpr α) (v : Variable) : Option α := e.terms.get? v

/-- The number of terms, including those with coefficient zero. -/
def size (e : LinExpr α) : Nat := e.terms.size

/-- There are no terms. -/
def isEmpty (e : LinExpr α) : Bool := e.terms.toList.isEmpty

/-- Adds `c v`. -/
def addTerm (e : LinExpr α) (v : Variable) (c : α) : LinExpr α :=
  { e with terms := e.terms.add v c }

/-- Adds a variable. -/
def addVariable (e : LinExpr α) (v : Variable) : LinExpr α := e.addTerm v 1

/-- Subtracts a variable. -/
def subtractVariable (e : LinExpr α) (v : Variable) : LinExpr α := e.addTerm v (-1)

/-- Adds a number. -/
def addConstant (e : LinExpr α) (c : α) : LinExpr α := { e with constant := e.constant + c }

/-- Subtracts a number. -/
def subtractConstant (e : LinExpr α) (c : α) : LinExpr α := { e with constant := e.constant - c }

/-- The expression that is just a variable. -/
def ofVariable (v : Variable) : LinExpr α := empty.addVariable v

/-- The sum. -/
def add (e f : LinExpr α) : LinExpr α := ⟨e.terms.addAll f.terms, e.constant + f.constant⟩

/-- The difference. -/
def sub (e f : LinExpr α) : LinExpr α :=
  ⟨e.terms.addAll (f.terms.map fun c => -c), e.constant - f.constant⟩

/-- Multiplies all coefficients and the constant by `k`. -/
def scale (e : LinExpr α) (k : α) : LinExpr α :=
  ⟨e.terms.map fun c => c * k, e.constant * k⟩

instance : Add (LinExpr α) := ⟨add⟩
instance : Sub (LinExpr α) := ⟨sub⟩
instance : Neg (LinExpr α) := ⟨fun e => e.scale (-1)⟩

/-- The value at a point. -/
def value (e : LinExpr α) (x : Variable → α) : α :=
  e.terms.toList.foldl (fun s t => s + t.2 * x t.1) e.constant

/-- The variables are among the first `n`. -/
def fits (e : LinExpr α) (n : Nat) : Bool := e.terms.keys.all fun v => v.index < n

/-- The value at a point that is given by its coordinates, if it has one for each
variable. -/
def evaluate? (e : LinExpr α) (x : Array α) : Option α :=
  if e.fits x.size then some (e.value fun v => x.getD v.index 0) else none

/-- The largest index of a variable. -/
def highestIndex? (e : LinExpr α) : Option Nat := (e.terms.keys.map Variable.index).max?

end LinExpr
end QuadOpt
