/-
# Layouts of decimal text

How a decimal is spelled: positionally or with an exponent, with or without a
decimal point in a whole number. A `Layout` records these choices for text
with the fewest digits that read back; `scientific` and `fixed` write a
given number of digits.

Key definitions: `Layout`, `Layout.write`, `Layout.plain`, `Layout.exponent`,
`Layout.journal`, `Layout.document`, `scientific`, `fixed`.
-/
import QuadOpt.Decimal.Shortest

namespace QuadOpt

namespace Decimal

/-- The decimal digits of a number, at least `width` of them. -/
def digitString (width n : Nat) : String :=
  let ds := Nat.toDigits 10 n
  String.ofList (List.replicate (width - ds.length) '0' ++ ds)

/-- The power of ten that the leading digit counts; zero for zero. -/
def leading (d : Decimal) : Int :=
  if d.digits = 0 then 0 else d.exponent + (Nat.toDigits 10 d.digits).length - 1

/-- The digits after the point, with the point, or nothing if there are none. -/
def fraction (ds : List Char) : String :=
  if ds.isEmpty then "" else "." ++ String.ofList ds

/-- All digits written out around a decimal point. -/
def positional (d : Decimal) : String :=
  if 0 ≤ d.exponent then digitString 1 (d.digits * Nat.pow 10 d.exponent.toNat)
  else
    let places := (-d.exponent).toNat
    let unit := Nat.pow 10 places
    digitString 1 (d.digits / unit) ++ "." ++ digitString places (d.digits % unit)

/-- The digits with a point after the first. -/
def significand (d : Decimal) : String :=
  match Nat.toDigits 10 d.digits with
  | [] => "0"
  | first :: rest => String.singleton first ++ fraction rest

end Decimal

/-- The spelling of numbers in a text. -/
structure Layout where
  /-- the way a tie between two shortest decimals goes -/
  tie : Tie
  /-- numbers whose leading digit counts this power of ten are written without
  an exponent -/
  isPositional : Int → Bool
  /-- a whole number written positionally ends in `.0` -/
  pointAlways : Bool
  /-- a positive exponent is written with its sign -/
  signedExponent : Bool

/-- The sign in front of a number. -/
def signText (negative : Bool) : String := if negative then "-" else ""

namespace Layout

/-- The text of an exponent. -/
def exponentText (L : Layout) (e : Int) : String :=
  if e < 0 then s!"e-{(-e).toNat}"
  else if L.signedExponent then s!"e+{e.toNat}" else s!"e{e.toNat}"

/-- The text of a nonnegative decimal. -/
def decimalText (L : Layout) (d : Decimal) : String :=
  if L.isPositional d.leading then
    d.positional ++ (if L.pointAlways && decide (0 ≤ d.exponent) then ".0" else "")
  else d.significand ++ L.exponentText d.leading

/-- The text of a number with the fewest digits that read back. -/
def write (L : Layout) (x : Float) : String :=
  match Binary64.ofFloat x with
  | .nan => "NaN"
  | .infinite negative => signText negative ++ "inf"
  | .finite negative m =>
    signText negative ++ L.decimalText (if m.mantissa = 0 then ⟨0, 0⟩ else .shortest L.tie m)

/-- Never an exponent, and no point in a whole number: `1`, `0.25`, `-0`. -/
def plain : Layout := ⟨.up, fun _ => true, false, false⟩

/-- Always an exponent: `1e0`, `2.5e-1`. -/
def exponent : Layout := ⟨.up, fun _ => false, false, false⟩

/-- Always a point or an exponent; an exponent from `10 ^ 16` on and below
`10 ^ (-4)`: `1.0`, `1e16`, `1e-5`. -/
def journal : Layout := ⟨.up, fun e => decide (-4 ≤ e ∧ e < 16), true, false⟩

/-- Always a point or an exponent; an exponent with its sign from `10 ^ 16` on
and below `10 ^ (-5)`: `1.0`, `1e+16`, `1e-6`. -/
def document : Layout := ⟨.even, fun e => decide (-5 ≤ e ∧ e < 16), true, true⟩

end Layout

/-- The text of a number with `count` digits after the point and an exponent,
such as `1.50e-3`. -/
def scientific (count : Nat) (x : Float) : String :=
  match Binary64.ofFloat x with
  | .nan => "NaN"
  | .infinite negative => signText negative ++ "inf"
  | .finite negative m =>
    let d : Decimal := if m.mantissa = 0 then ⟨0, 0⟩ else .significant count m
    let ds := Nat.toDigits 10 d.digits
    signText negative ++ String.singleton (ds.headD '0')
      ++ Decimal.fraction (ds.drop 1 ++ List.replicate (count + 1 - ds.length) '0')
      ++ Layout.exponent.exponentText d.leading

/-- The text of a number with `count` places after the point, such as `1.60`. -/
def fixed (count : Nat) (x : Float) : String :=
  match Binary64.ofFloat x with
  | .nan => "NaN"
  | .infinite negative => signText negative ++ "inf"
  | .finite negative m => signText negative ++ (Decimal.places count m).positional

end QuadOpt
