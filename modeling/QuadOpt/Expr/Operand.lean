/-
# Arithmetic on operands of different kinds

Numbers, variables and expressions can be combined by the usual operators. The
result is affine or quadratic as the operands require: a product of two affine
operands is quadratic even if one of them has no terms, and only multiplication
by a number keeps the kind of the other operand.

Key definitions: `Operand`, `Operand.toLinExpr?`, `Operand.toQuadExpr`,
`Operand.add?`, `Operand.sub?`, `Operand.mul?`, `Operand.neg?`,
`Operand.increase?`, `Operand.sharesSum`.
-/
import QuadOpt.Expr.Quadratic

namespace QuadOpt

/-- Something that operators apply to. -/
inductive Operand (α : Type) where
  | number (c : α)
  | var (v : Variable)
  | affine (e : LinExpr α)
  | quadratic (e : QuadExpr α)

namespace Operand

variable {α : Type} [Scalar α]

/-- The operand as an affine expression, unless it is quadratic. -/
def toLinExpr? : Operand α → Option (LinExpr α)
  | number c => some (.ofConstant c)
  | var v => some (.ofVariable v)
  | affine e => some e
  | quadratic _ => none

/-- The operand as a quadratic expression. -/
def toQuadExpr : Operand α → QuadExpr α
  | number c => .ofLinExpr (.ofConstant c)
  | var v => .ofLinExpr (.ofVariable v)
  | affine e => .ofLinExpr e
  | quadratic e => e

/-- Changes the affine part of an expression. -/
def mapLinear (a : Operand α) (f : LinExpr α → LinExpr α) : Operand α :=
  match a with
  | affine e => affine (f e)
  | quadratic e => quadratic (e.mapLinear f)
  | a => a

/-- Combines two operands as affine expressions if both are, and otherwise as
quadratic ones. Arithmetic on two numbers makes no expression. -/
def combine? (lin : LinExpr α → LinExpr α → LinExpr α)
    (quad : QuadExpr α → QuadExpr α → QuadExpr α) (a b : Operand α) : Option (Operand α) :=
  match a, b with
  | number _, number _ => none
  | a, b =>
    match a.toLinExpr?, b.toLinExpr? with
    | some e, some f => some (affine (lin e f))
    | _, _ => some (quadratic (quad a.toQuadExpr b.toQuadExpr))

/-- The sum. -/
def add? (a b : Operand α) : Option (Operand α) := combine? (· + ·) (· + ·) a b

/-- The difference. -/
def sub? (a b : Operand α) : Option (Operand α) := combine? (· - ·) (· - ·) a b

/-- Whether `a + b` and `a - b` can be formed while both operands stay in use
elsewhere: an affine expression is then joined by anything that is not
quadratic, and a quadratic one by another. -/
def sharesSum : Operand α → Operand α → Bool
  | affine _, quadratic _ => false
  | affine _, _ => true
  | quadratic _, quadratic _ => true
  | _, _ => false

/-- Whether `a * b` can be formed while both operands stay in use elsewhere:
both are affine expressions, or one is an expression and the other a number. -/
def sharesProduct : Operand α → Operand α → Bool
  | affine _, affine _ | affine _, number _ | number _, affine _ => true
  | quadratic _, number _ | number _, quadratic _ => true
  | _, _ => false

/-- An operand other than a number, multiplied by a number. -/
def scale? (a : Operand α) (k : α) : Option (Operand α) :=
  match a with
  | number _ => none
  | var v => some (affine ((LinExpr.ofVariable v).scale k))
  | affine e => some (affine (e.scale k))
  | quadratic e => some (quadratic (e.scale k))

/-- The product, unless it would be of a degree above two. -/
def mul? (a b : Operand α) : Option (Operand α) :=
  match a, b with
  | a, number k => a.scale? k
  | number k, b => b.scale? k
  | a, b =>
    match a.toLinExpr?, b.toLinExpr? with
    | some e, some f => some (quadratic (e.product f))
    | _, _ => none

/-- The negative. -/
def neg? (a : Operand α) : Option (Operand α) := a.scale? (-1)

/-- The expression `a` after `b` was added to it; its kind stays the same. -/
def increase? (a b : Operand α) : Option (Operand α) :=
  match a, b with
  | affine e, number c => some (affine (e.addConstant c))
  | affine e, var v => some (affine (e.addVariable v))
  | affine e, affine f => some (affine (e + f))
  | quadratic e, number c => some (quadratic (e.mapLinear fun g => g.addConstant c))
  | quadratic e, var v => some (quadratic (e.mapLinear fun g => g.addVariable v))
  | quadratic e, affine f => some (quadratic (e.addLinExpr f))
  | quadratic e, quadratic f => some (quadratic (e + f))
  | _, _ => none

/-- The expression `a` after `b` was subtracted from it; its kind stays the same. -/
def decrease? (a b : Operand α) : Option (Operand α) :=
  match a, b with
  | affine e, number c => some (affine (e.subtractConstant c))
  | affine e, var v => some (affine (e.subtractVariable v))
  | affine e, affine f => some (affine (e - f))
  | quadratic e, number c => some (quadratic (e.mapLinear fun g => g.subtractConstant c))
  | quadratic e, var v => some (quadratic (e.mapLinear fun g => g.subtractVariable v))
  | quadratic e, affine f => some (quadratic (e.subtractLinExpr f))
  | quadratic e, quadratic f => some (quadratic (e - f))
  | _, _ => none

/-- The expression `a` after it was multiplied by the number `b`. -/
def rescale? (a b : Operand α) : Option (Operand α) :=
  match a, b with
  | affine e, number k => some (affine (e.scale k))
  | quadratic e, number k => some (quadratic (e.scale k))
  | _, _ => none

end Operand
end QuadOpt
