/-
# Binary64 numbers as exact ratios

A finite binary64 number is `± mantissa · 2 ^ exponent`; this module reads the
two off its bit pattern, so that decimal text can be computed in exact integer
arithmetic.

Key definitions: `Binary64`, `Binary64.ofFloat`, `Magnitude.numerator`,
`Magnitude.denominator`, `Magnitude.decimalExponent`.
-/

namespace QuadOpt

/-- A nonnegative number `mantissa · 2 ^ exponent`. -/
structure Magnitude where
  mantissa : Nat
  exponent : Int
  deriving DecidableEq, Repr

namespace Magnitude

/-- The number is `numerator / denominator`. -/
def numerator (x : Magnitude) : Nat := x.mantissa * Nat.pow 2 x.exponent.toNat

/-- The number is `numerator / denominator`. -/
def denominator (x : Magnitude) : Nat := Nat.pow 2 (-x.exponent).toNat

theorem denominator_pos (x : Magnitude) : 0 < x.denominator := Nat.two_pow_pos _

/-- The number times ten to the power `p`, as a ratio. -/
def scaled (x : Magnitude) (p : Int) : Nat × Nat :=
  (x.numerator * Nat.pow 10 p.toNat, x.denominator * Nat.pow 10 (-p).toNat)

/-- The number is less than ten to the power `p`. -/
def isBelow (x : Magnitude) (p : Int) : Bool :=
  let s := x.scaled (-p)
  s.1 < s.2

/-- For a positive number, the power of ten that its leading decimal digit
counts. As `1233 / 4096` is close to the decimal logarithm of two, the power of
two below the number tells it up to one. -/
def decimalExponent (x : Magnitude) : Int :=
  let guess := ((x.mantissa.log2 : Int) + x.exponent) * 1233 / 4096
  if x.isBelow guess then guess - 1
  else if x.isBelow (guess + 1) then guess
  else guess + 1

end Magnitude

/-- What a binary64 bit pattern stands for. -/
inductive Binary64 where
  | nan
  | infinite (negative : Bool)
  | finite (negative : Bool) (magnitude : Magnitude)
  deriving DecidableEq, Repr

namespace Binary64

/-- The sign bit, eleven bits of exponent and fifty-two bits of fraction of a
number. The exponent zero marks the numbers without a leading one. -/
def ofFloat (x : Float) : Binary64 :=
  let bits : Nat := x.toBits.toNat
  let negative := bits / Nat.pow 2 63 = 1
  let exponent : Nat := bits / Nat.pow 2 52 % 2048
  let fraction : Nat := bits % Nat.pow 2 52
  if exponent = 2047 then
    if fraction = 0 then .infinite negative else .nan
  else if exponent = 0 then .finite negative ⟨fraction, -1074⟩
  else .finite negative ⟨Nat.pow 2 52 + fraction, (exponent : Int) - 1075⟩

end Binary64
end QuadOpt
