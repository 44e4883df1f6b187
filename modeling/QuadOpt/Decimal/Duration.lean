/-
# Durations

Key definitions: `nanoseconds`, `durationText`.
-/
import QuadOpt.Decimal.Layout

namespace QuadOpt

/-- The number of nanoseconds nearest to a number of seconds; zero if there is no
such duration. -/
def nanoseconds (seconds : Float) : Nat :=
  match Binary64.ofFloat seconds with
  | .finite false m => roundDiv .even (m.numerator * 1000000000) m.denominator
  | _ => 0

/-- A duration in the largest unit of which it has at least one: `1.5ms`. -/
def durationText (seconds : Float) : String :=
  let t := nanoseconds seconds
  let write (places : Nat) (unit : String) : String :=
    (Decimal.mk t (-(places : Int))).strip.positional ++ unit
  if 1000000000 ≤ t then write 9 "s"
  else if 1000000 ≤ t then write 6 "ms"
  else if 1000 ≤ t then write 3 "µs"
  else write 0 "ns"

end QuadOpt
