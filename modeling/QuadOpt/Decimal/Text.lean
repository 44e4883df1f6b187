/-
# Numbers in text

`ScalarText` is what a number system needs for its numbers to appear in
expressions and reports; binary64 numbers are written by `Layout.write`,
`scientific` and `fixed`.

Key definitions: `NumberStyle`, `ScalarText`.
-/
import QuadOpt.Decimal.Layout

namespace QuadOpt

/-- A way to write a number. -/
inductive NumberStyle where
  /-- as few digits as possible, without an exponent: `0.1` -/
  | plain
  /-- as few digits as possible, with a point or an exponent: `1.0` -/
  | journal
  /-- digits after the point and an exponent: `1.0e-1` -/
  | scientific (count : Nat)
  /-- the same with a sign in any case: `+1.0e-1` -/
  | signedScientific (count : Nat)
  /-- places after the point: `0.10` -/
  | fixed (count : Nat)
  deriving DecidableEq, Repr

/-- Numbers that can be written. -/
class ScalarText (α : Type) where
  /-- the text of a number -/
  text : NumberStyle → α → String

/-- The text of a binary64 number. One that is undefined has no sign. -/
def floatText (style : NumberStyle) (x : Float) : String :=
  match style with
  | .plain => Layout.plain.write x
  | .journal => Layout.journal.write x
  | .scientific count => scientific count x
  | .signedScientific count =>
    match Binary64.ofFloat x with
    | .infinite false | .finite false _ => "+" ++ scientific count x
    | _ => scientific count x
  | .fixed count => fixed count x

instance : ScalarText Float := ⟨floatText⟩

end QuadOpt
