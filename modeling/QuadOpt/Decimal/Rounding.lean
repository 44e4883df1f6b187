/-
# Rounding to decimals

Decimal numbers, and the rounding of an exact magnitude to a given number of
significant digits or decimal places.

Key definitions: `Tie`, `roundDiv`, `Decimal`, `Decimal.significant`,
`Decimal.places`.
-/
import QuadOpt.Decimal.Binary64

namespace QuadOpt

/-- Which way a number halfway between two candidates goes. -/
inductive Tie where
  /-- to the candidate with an even last digit -/
  | even
  /-- to the larger candidate -/
  | up
  deriving DecidableEq, Repr

/-- The integer nearest to `num / den`. -/
def roundDiv (tie : Tie) (num den : Nat) : Nat :=
  let q := num / den
  let twice := 2 * (num % den)
  if twice < den then q
  else if den < twice then q + 1
  else match tie with
    | .up => q + 1
    | .even => q + q % 2

/-- A nonnegative decimal number `digits · 10 ^ exponent`. -/
structure Decimal where
  digits : Nat
  exponent : Int
  deriving DecidableEq, Repr

namespace Decimal

/-- The decimal with `count + 1` significant digits nearest to a positive
number, a half going to the even digit. Rounding `9.99…` up gives a digit more,
which is a zero and is dropped. -/
def significant (count : Nat) (x : Magnitude) : Decimal :=
  let e := x.decimalExponent - count
  let s := x.scaled (-e)
  let d := roundDiv .even s.1 s.2
  if d = Nat.pow 10 (count + 1) then ⟨Nat.pow 10 count, e + 1⟩ else ⟨d, e⟩

/-- The decimal with `count` places after the point nearest to a number, a half
going to the even digit. -/
def places (count : Nat) (x : Magnitude) : Decimal :=
  let s := x.scaled count
  ⟨roundDiv .even s.1 s.2, -count⟩

/-- The same number without trailing zeros in its digits. -/
def strip (d : Decimal) : Decimal :=
  if h : d.digits ≠ 0 ∧ d.digits % 10 = 0 then strip ⟨d.digits / 10, d.exponent + 1⟩ else d
termination_by d.digits
decreasing_by exact Nat.div_lt_self (by omega) (by omega)

end Decimal
end QuadOpt
