/-
# The number nearest to a decimal

Key definitions: `Decimal.toFloat`.
-/
import QuadOpt.Decimal.Rounding

namespace QuadOpt
namespace Decimal

/-- The binary64 number nearest to a decimal; infinity if the decimal is beyond
the largest number. Every decimal of `10 ^ 400` or more is, and every one below
`10 ^ (-400)` is nearest to zero, so that no large power of ten is computed. -/
def toFloat (d : Decimal) : Float :=
  let top := d.exponent + (Nat.toDigits 10 d.digits).length
  if d.digits = 0 ∨ top < -400 then 0.0
  else if 400 < top then 1.0 / 0.0
  else Float.ofScientific d.digits (decide (d.exponent < 0)) d.exponent.natAbs

end Decimal
end QuadOpt
