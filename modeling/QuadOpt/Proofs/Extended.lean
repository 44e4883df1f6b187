/-
# Extended numbers

The numbers of an ordered field together with two infinities and a value that is
not a number. Finite numbers are computed with exactly, and the others as the
binary formats do: infinities absorb finite numbers, what has no value is not a
number, and comparisons with it are false.

Key definitions: `Extended`.
Key theorems: `Extended.sub_finite_le_finite`, `Extended.finite_le_sub_finite`.
-/
import Mathlib.Algebra.Order.Group.Basic
import QuadOpt.Proofs.Exact

namespace QuadOpt

/-- A number of `K`, an infinity, or not a number. -/
inductive Extended (K : Type) where
  | finite (x : K)
  | posInf
  | negInf
  | nan
  deriving DecidableEq

namespace Extended

section Operations

variable {K : Type} [Field K] [LinearOrder K]

/-- An infinity with the sign of `x`; a zero has none. -/
def infinityLike (x : K) : Extended K := if 0 < x then posInf else if x < 0 then negInf else nan

def add : Extended K → Extended K → Extended K
  | nan, _ | _, nan => nan
  | posInf, negInf | negInf, posInf => nan
  | posInf, _ | _, posInf => posInf
  | negInf, _ | _, negInf => negInf
  | finite x, finite y => finite (x + y)

def neg : Extended K → Extended K
  | nan => nan
  | posInf => negInf
  | negInf => posInf
  | finite x => finite (-x)

def mul : Extended K → Extended K → Extended K
  | nan, _ | _, nan => nan
  | finite x, finite y => finite (x * y)
  | finite x, posInf | posInf, finite x => infinityLike x
  | finite x, negInf | negInf, finite x => infinityLike (-x)
  | posInf, posInf | negInf, negInf => posInf
  | posInf, negInf | negInf, posInf => negInf

/-- The reciprocal. That of zero is taken for positive infinity. -/
def inv : Extended K → Extended K
  | nan => nan
  | posInf | negInf => finite 0
  | finite x => if x = 0 then posInf else finite (x⁻¹)

def lt : Extended K → Extended K → Bool
  | nan, _ | _, nan => false
  | finite x, finite y => x < y
  | negInf, finite _ | negInf, posInf | finite _, posInf => true
  | _, _ => false

def le : Extended K → Extended K → Bool
  | nan, _ | _, nan => false
  | finite x, finite y => x ≤ y
  | negInf, _ | _, posInf => true
  | _, _ => false

def abs : Extended K → Extended K
  | nan => nan
  | posInf | negInf => posInf
  | finite x => finite |x|

/-- The larger number, or the other operand of one that is not a number. -/
def max (x y : Extended K) : Extended K := if x = nan ∨ le x y then y else x

/-- The smaller number, or the other operand of one that is not a number. -/
def min (x y : Extended K) : Extended K := if x = nan ∨ le y x then y else x

variable [ExactScalar K]

/-- The square root, which negative numbers do not have. -/
def sqrt : Extended K → Extended K
  | nan | negInf => nan
  | posInf => posInf
  | finite x => if x < 0 then nan else finite (ExactScalar.sqrt x)

instance : Scalar (Extended K) where
  zero := finite 0
  one := finite 1
  add := add
  sub x y := add x (neg y)
  mul := mul
  div x y := mul x (inv y)
  neg := neg
  lt x y := lt x y
  le x y := le x y
  beq x y := x = y && x != nan
  ofScientific m s e := finite (OfScientific.ofScientific m s e)
  decidableLT _ _ := inferInstanceAs (Decidable (_ = true))
  decidableLE _ _ := inferInstanceAs (Decidable (_ = true))
  ofCount k := finite k
  abs := abs
  sqrt := sqrt
  maxNum := max
  minNum := min
  isFinite
    | finite _ => true
    | _ => false
  nan := nan
  infinity := posInf

end Operations

variable {K : Type} [Field K] [LinearOrder K] [ExactScalar K]

/-! ### Finite numbers -/

theorem finite_zero : finite (0 : K) = 0 := rfl

theorem finite_add (x y : K) : finite (x + y) = finite x + finite y := rfl

theorem finite_neg (x : K) : finite (-x) = -finite x := rfl

theorem finite_sub (x y : K) : finite (x - y) = finite x - finite y := by
  rw [sub_eq_add_neg]
  rfl

theorem finite_lt_finite {x y : K} : finite x < finite y ↔ x < y := decide_eq_true_iff

theorem finite_le_finite {x y : K} : finite x ≤ finite y ↔ x ≤ y := decide_eq_true_iff

/-! ### Bounds -/

theorem negInf_le_finite (x : K) : (negInf : Extended K) ≤ finite x := rfl

theorem finite_le_posInf (x : K) : finite x ≤ (posInf : Extended K) := rfl

variable [IsStrictOrderedRing K]

/-- A constant moves over to the other side of a lower bound, whatever the bound
is. -/
theorem sub_finite_le_finite (l : Extended K) (k x : K) :
    l - finite k ≤ finite x ↔ l ≤ finite (x + k) := by
  cases l with
  | finite l =>
    rw [← finite_sub, finite_le_finite, finite_le_finite]
    exact sub_le_iff_le_add
  | posInf => exact Iff.rfl
  | negInf => exact Iff.rfl
  | nan => exact Iff.rfl

theorem finite_le_sub_finite (u : Extended K) (k x : K) :
    finite x ≤ u - finite k ↔ finite (x + k) ≤ u := by
  cases u with
  | finite u =>
    rw [← finite_sub, finite_le_finite, finite_le_finite]
    exact le_sub_iff_add_le
  | posInf => exact Iff.rfl
  | negInf => exact Iff.rfl
  | nan => exact Iff.rfl

end Extended
end QuadOpt
