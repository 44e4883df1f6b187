/-
# Scalars

The numbers the library computes with. All of the algebra, the factorisation,
the solver and the modelling layer are written over `Scalar`, which names
operations and promises no law, so one definition has two readings: it runs on
`Float`, and it can be reasoned about in any number system that gives the
operations a meaning.

Key definitions: `Scalar`, `Scalar.isNaN`, `Scalar.recip`.
-/

namespace QuadOpt

/-- The operations on numbers that the library uses. Comparisons may all be
false for some pair of numbers (as they are for a NaN), and `maxNum`/`minNum`
may prefer one operand for reasons other than size. -/
class Scalar (α : Type) extends Zero α, One α, Add α, Sub α, Mul α, Div α, Neg α,
    LT α, LE α, BEq α, OfScientific α where
  /-- `a < b` can be tested. -/
  decidableLT : DecidableLT α
  /-- `a ≤ b` can be tested. -/
  decidableLE : DecidableLE α
  /-- The number that counts `k` things. -/
  ofCount : Nat → α
  /-- Magnitude. -/
  abs : α → α
  /-- Square root. -/
  sqrt : α → α
  /-- The larger of two numbers; an operand that is not a number is ignored. -/
  maxNum : α → α → α
  /-- The smaller of two numbers; an operand that is not a number is ignored. -/
  minNum : α → α → α
  /-- Neither infinite nor undefined. -/
  isFinite : α → Bool
  /-- The value of an undefined result. -/
  nan : α
  /-- The bound that excludes nothing above it. -/
  infinity : α

-- In a number system that has operations of its own, these are meant, but for
-- the equality test.
attribute [instance (100)] Scalar.toZero Scalar.toOne Scalar.toAdd Scalar.toSub Scalar.toMul
  Scalar.toDiv Scalar.toNeg Scalar.toLT Scalar.toLE Scalar.toOfScientific

attribute [instance (1100)] Scalar.toBEq

attribute [reducible, instance (800)] Scalar.decidableLT Scalar.decidableLE

namespace Scalar

variable {α : Type} [Scalar α]

/-- A number that differs from itself is not a number. -/
def isNaN (x : α) : Bool := x != x

/-- The reciprocal `1 / x`. -/
def recip (x : α) : α := 1 / x

/-- Binary64 arithmetic, rounded to nearest. Of two equal operands `maxNum` and
`minNum` give the second, which decides the sign of a zero. -/
instance : Scalar Float where
  zero := 0.0
  one := 1.0
  decidableLT := inferInstance
  decidableLE := inferInstance
  ofCount := Float.ofNat
  abs := Float.abs
  sqrt := Float.sqrt
  maxNum x y := if x.isNaN || x ≤ y then y else x
  minNum x y := if x.isNaN || y ≤ x then y else x
  isFinite := Float.isFinite
  nan := 0.0 / 0.0
  infinity := 1.0 / 0.0

end Scalar
end QuadOpt
