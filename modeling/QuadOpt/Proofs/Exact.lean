/-
# Exact arithmetic

An ordered field computes exactly: nothing is rounded, every number is finite
and every comparison is decided. Read in such a field the library's definitions
are formulas. Of the square root, which is only ever divided by, it matters that
it is positive; what stands for an infinite or an undefined value does not
matter.

Key definitions: `ExactScalar`, `LawfulComparison`.
-/
import Mathlib.Algebra.Order.Field.Basic
import Mathlib.Algebra.Order.Field.Rat
import Mathlib.Data.Rat.Sqrt
import Mathlib.Tactic.Linarith
import Mathlib.Tactic.NormNum.OfScientific
import QuadOpt.Decimal.Text
import QuadOpt.Scalar

namespace QuadOpt

/-- What an ordered field needs to be used for scalars. -/
class ExactScalar (K : Type) [Field K] [LinearOrder K] where
  sqrt : K → K
  sqrt_pos : ∀ {x : K}, 0 < x → 0 < sqrt x
  /-- what stands for the bound that excludes nothing -/
  infinity : K
  /-- what stands for an undefined result -/
  nan : K

section Instance

variable {K : Type} [Field K] [LinearOrder K] [ExactScalar K]

instance : Scalar K where
  toBEq := instBEqOfDecidableEq
  toOfScientific := inferInstance
  decidableLT := inferInstance
  decidableLE := inferInstance
  ofCount k := (k : K)
  abs x := |x|
  sqrt := ExactScalar.sqrt
  maxNum := max
  minNum := min
  isFinite _ := true
  nan := ExactScalar.nan
  infinity := ExactScalar.infinity

end Instance

/-- What comparisons do in any number system, whether it rounds or not: equal numbers are
the same, unless they are zeros of two signs, and the larger or smaller of two numbers is
one of them. -/
class LawfulComparison (α : Type) [Scalar α] : Prop where
  eq_of_beq : ∀ {a b : α}, 0 < a → (a == b) = true → a = b
  maxNum_maxNum : ∀ a b : α, Scalar.maxNum (Scalar.maxNum a b) b = Scalar.maxNum a b
  minNum_minNum : ∀ a b : α, Scalar.minNum (Scalar.minNum a b) b = Scalar.minNum a b
  isNaN_maxNum : ∀ {a b : α}, Scalar.isNaN a = false → Scalar.isNaN (Scalar.maxNum a b) = false
  isNaN_minNum : ∀ {a b : α}, Scalar.isNaN a = false → Scalar.isNaN (Scalar.minNum a b) = false

instance {K : Type} [Field K] [LinearOrder K] [ExactScalar K] : LawfulComparison K where
  eq_of_beq _ h := eq_of_beq h
  maxNum_maxNum a b := max_eq_left (le_max_right a b)
  minNum_minNum a b := min_eq_left (min_le_right a b)
  isNaN_maxNum _ := bne_self_eq_false _
  isNaN_minNum _ := bne_self_eq_false _

/-- Roots of fractions, rounded down in numerator and denominator. -/
instance : ExactScalar ℚ where
  sqrt := Rat.sqrt
  sqrt_pos := by
    intro x hx
    have hnum : 0 < Int.sqrt x.num :=
      Int.natCast_pos.mpr (Nat.sqrt_pos.mpr (Int.pos_iff_toNat_pos.mp (Rat.num_pos.mpr hx)))
    exact Rat.mkRat_pos hnum (Nat.sqrt_pos.mpr x.den_pos).ne'
  infinity := 1e31
  nan := 0

/-- A fraction is written as one. -/
instance : ScalarText ℚ := ⟨fun _ x => s!"{x.num}/{x.den}"⟩

end QuadOpt
