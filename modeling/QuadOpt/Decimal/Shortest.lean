/-
# The fewest digits that read back

A binary64 number is the nearest one to every decimal in an interval around
it. `Decimal.shortest` is the decimal with the fewest digits in that interval,
and of those the nearest to the number.

Key definitions: `Magnitude.reads`, `Decimal.onGrid?`, `Decimal.shortest`.
-/
import QuadOpt.Decimal.Rounding

namespace QuadOpt

namespace Magnitude

/-- Half the distance to the next larger number is `2 ^ (exponent - 1)`; so is
half the distance to the next smaller one, except at a power of two above the
least, where it is half of that. The ends belong to the interval iff the
mantissa is even. `reads x d` says that `d` lies in it, with both sides
counted in quarters of the last binary place. -/
def reads (x : Magnitude) (d : Decimal) : Bool :=
  let narrow := x.mantissa = Nat.pow 2 52 ∧ -1074 < x.exponent
  let low := if narrow then 4 * x.mantissa - 1 else 4 * x.mantissa - 2
  let high := 4 * x.mantissa + 2
  let lhs := d.digits * Nat.pow 10 d.exponent.toNat * Nat.pow 2 (2 - x.exponent).toNat
  let unit := Nat.pow 10 (-d.exponent).toNat * Nat.pow 2 (x.exponent - 2).toNat
  if x.mantissa % 2 = 0 then low * unit ≤ lhs ∧ lhs ≤ high * unit
  else low * unit < lhs ∧ lhs < high * unit

end Magnitude

namespace Decimal

/-- The decimal that reads back among the two neighbours of `x` with `count`
digits, of which the first counts the power `leading` of ten; the nearer one if
both do. -/
def onGrid? (tie : Tie) (x : Magnitude) (leading : Int) (count : Nat) : Option Decimal :=
  let e := leading + 1 - count
  let s := x.scaled (-e)
  let below : Decimal := ⟨s.1 / s.2, e⟩
  let above : Decimal := ⟨s.1 / s.2 + 1, e⟩
  match x.reads below, x.reads above with
  | true, true => some ⟨roundDiv tie s.1 s.2, e⟩
  | true, false => some below
  | false, true => some above
  | false, false => none

/-- The shortest decimal that reads back as the positive number `x`. Seventeen
digits always do. -/
def shortest (tie : Tie) (x : Magnitude) : Decimal :=
  match (List.range' 1 17).findSome? (onGrid? tie x x.decimalExponent) with
  | some d => d.strip
  | none => significant 16 x

end Decimal
end QuadOpt
