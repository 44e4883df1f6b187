/-
# Numbers and what is not a number

What comparisons, sums and products have in common in exact arithmetic, on extended
numbers and in a binary format: apart from NaN everything is ordered, a comparison
with a NaN is false, and a sum or a product with one is a NaN again. The larger or
smaller of two operands passes over a NaN. Equal numbers are the same but for the signs of
zeros, which may be added in any order. Two summands may be exchanged; no sum is regrouped.

Key definitions: `OrderedScalar`, `PropagatesNaN`, `SignedZeros`, `UnitalScalar`,
`CommutativeSums`.
Key theorems: `OrderedScalar.maxNum_le_iff`, `OrderedScalar.le_minNum_iff`.
-/
import QuadOpt.Admm.Limits
import QuadOpt.Proofs.Extended

namespace QuadOpt

open Scalar

/-- The numbers are ordered, the limits of bounds are among them, and what is not a number
compares with nothing. -/
class OrderedScalar (α : Type) [Scalar α] : Prop where
  le_trans : ∀ {a b c : α}, a ≤ b → b ≤ c → a ≤ c
  le_total : ∀ {a b : α}, isNaN a = false → isNaN b = false → a ≤ b ∨ b ≤ a
  lt_iff : ∀ {a b : α}, a < b ↔ a ≤ b ∧ ¬b ≤ a
  beq_iff : ∀ {a b : α}, (a == b) = true ↔ a ≤ b ∧ b ≤ a
  isNaN_left : ∀ {a b : α}, a ≤ b → isNaN a = false
  isNaN_right : ∀ {a b : α}, a ≤ b → isNaN b = false
  maxNum_eq : ∀ a b : α, maxNum a b = if isNaN a = true ∨ a ≤ b then b else a
  minNum_eq : ∀ a b : α, minNum a b = if isNaN a = true ∨ b ≤ a then b else a
  isNaN_of_isFinite : ∀ {a : α}, isFinite a = true → isNaN a = false
  limits : -Limits.infinity ≤ (Limits.infinity : α)

/-- Sums and products with a NaN are NaN. -/
class PropagatesNaN (α : Type) [Scalar α] : Prop extends OrderedScalar α where
  isNaN_add_left : ∀ {a : α} (b : α), isNaN a = true → isNaN (a + b) = true
  isNaN_add_right : ∀ (a : α) {b : α}, isNaN b = true → isNaN (a + b) = true
  isNaN_mul_left : ∀ {a : α} (b : α), isNaN a = true → isNaN (a * b) = true
  isNaN_mul_right : ∀ (a : α) {b : α}, isNaN b = true → isNaN (a * b) = true
  /-- if anything is not a number then what stands for it is not -/
  isNaN_nan : ∀ {a : α}, isNaN a = true → isNaN (nan : α) = true
  isNaN_zero : isNaN (0 : α) = false
  one_beq_zero : ((1 : α) == 0) = false

/-- Equal numbers are the same, unless they are zeros of two signs, and zeros may be added in
any order. -/
class SignedZeros (α : Type) [Scalar α] : Prop extends OrderedScalar α where
  eq_or_zeros : ∀ {a b : α}, a ≤ b → b ≤ a → a = b ∨ (a == 0) = true ∧ (b == 0) = true
  add_zeros : ∀ {a b : α}, (a == 0) = true → (b == 0) = true → a + b = b + a
  add_add_zeros : ∀ (s : α) {a b : α}, (a == 0) = true → (b == 0) = true →
    s + a + b = s + b + a

/-- Two summands may be exchanged, and a zero of either sign changes nothing but the sign of
another zero. -/
class CommutativeSums (α : Type) [Scalar α] : Prop where
  add_comm : ∀ a b : α, a + b = b + a
  add_zero : ∀ {a z : α}, (a == 0) = false → (z == 0) = true → a + z = a
  zero_add_zero : ∀ {z : α}, (z == 0) = true → 0 + z = 0
  zero_beq_zero : ((0 : α) == 0) = true

/-- Multiplication by one changes nothing. -/
class UnitalScalar (α : Type) [Scalar α] : Prop where
  mul_one : ∀ a : α, a * 1 = a

namespace OrderedScalar

variable {α : Type} [Scalar α] [OrderedScalar α] {a b c : α}

theorem isNaN_eq_false_iff : isNaN a = false ↔ a ≤ a := by
  have hself : (a == a) = true ↔ a ≤ a := by rw [beq_iff, and_self]
  rw [← hself]
  unfold isNaN bne
  rw [Bool.not_eq_false']

theorem beq_self (h : isNaN a = false) : (a == a) = true :=
  beq_iff.mpr ⟨isNaN_eq_false_iff.mp h, isNaN_eq_false_iff.mp h⟩

/-- A number that was compared is one. -/
theorem isNaN_of_lt (h : a < b) : isNaN a = false ∧ isNaN b = false :=
  ⟨isNaN_left (lt_iff.mp h).1, isNaN_right (lt_iff.mp h).1⟩

theorem not_lt_self (a : α) : ¬a < a := fun h => (lt_iff.mp h).2 (lt_iff.mp h).1

theorem not_lt_iff (ha : isNaN a = false) (hb : isNaN b = false) : ¬b < a ↔ a ≤ b := by
  rw [lt_iff]
  constructor
  · intro h
    rcases le_total ha hb with hab | hba
    · exact hab
    · by_contra hab
      exact h ⟨hba, hab⟩
  · exact fun hab h => h.2 hab

instance : PartialEquivBEq α where
  symm h := beq_iff.mpr (beq_iff.mp h).symm
  trans h h' := by
    obtain ⟨hab, hba⟩ := beq_iff.mp h
    obtain ⟨hbc, hcb⟩ := beq_iff.mp h'
    exact beq_iff.mpr ⟨le_trans hab hbc, le_trans hcb hba⟩

theorem maxNum_le_iff (ha : isNaN a = false) (hb : isNaN b = false) :
    maxNum a b ≤ c ↔ a ≤ c ∧ b ≤ c := by
  rw [maxNum_eq]
  simp only [ha, Bool.false_eq_true, false_or]
  split
  · rename_i hab
    exact ⟨fun hbc => ⟨le_trans hab hbc, hbc⟩, fun h => h.2⟩
  · rename_i hab
    have hba : b ≤ a := (le_total ha hb).resolve_left hab
    exact ⟨fun hac => ⟨hac, le_trans hba hac⟩, fun h => h.1⟩

theorem le_minNum_iff (ha : isNaN a = false) (hb : isNaN b = false) :
    c ≤ minNum a b ↔ c ≤ a ∧ c ≤ b := by
  rw [minNum_eq]
  simp only [ha, Bool.false_eq_true, false_or]
  split
  · rename_i hba
    exact ⟨fun hcb => ⟨le_trans hcb hba, hcb⟩, fun h => h.2⟩
  · rename_i hba
    have hab : a ≤ b := (le_total ha hb).resolve_right hba
    exact ⟨fun hca => ⟨hca, le_trans hca hab⟩, fun h => h.1⟩

theorem le_maxNum_right (hb : isNaN b = false) : b ≤ maxNum a b := by
  rw [maxNum_eq]
  split
  · exact isNaN_eq_false_iff.mp hb
  · rename_i h
    rw [not_or, Bool.not_eq_true] at h
    exact (le_total h.1 hb).resolve_left h.2

theorem minNum_le_right (hb : isNaN b = false) : minNum a b ≤ b := by
  rw [minNum_eq]
  split
  · exact isNaN_eq_false_iff.mp hb
  · rename_i h
    rw [not_or, Bool.not_eq_true] at h
    exact (le_total h.1 hb).resolve_right h.2

/-- The larger of a number and anything is a number. -/
theorem isNaN_maxNum_left (ha : isNaN a = false) (b : α) : isNaN (maxNum a b) = false := by
  rw [maxNum_eq]
  simp only [ha, Bool.false_eq_true, false_or]
  split
  · rename_i hab
    exact isNaN_right hab
  · exact ha

theorem isNaN_minNum_left (ha : isNaN a = false) (b : α) : isNaN (minNum a b) = false := by
  rw [minNum_eq]
  simp only [ha, Bool.false_eq_true, false_or]
  split
  · rename_i hba
    exact isNaN_left hba
  · exact ha

end OrderedScalar

open OrderedScalar in
instance (priority := low) {α : Type} [Scalar α] [SignedZeros α] : LawfulComparison α where
  eq_of_beq := by
    intro a b ha hab
    obtain ⟨hle, hge⟩ := beq_iff.mp hab
    rcases SignedZeros.eq_or_zeros hle hge with h | ⟨hzero, -⟩
    · exact h
    · exact absurd (beq_iff.mp hzero).1 (lt_iff.mp ha).2
  maxNum_maxNum := by
    intro a b
    rw [maxNum_eq a b]
    split
    · rw [maxNum_eq, ite_self]
    · rename_i h
      rw [maxNum_eq, if_neg h]
  minNum_minNum := by
    intro a b
    rw [minNum_eq a b]
    split
    · rw [minNum_eq, ite_self]
    · rename_i h
      rw [minNum_eq, if_neg h]
  isNaN_maxNum ha := isNaN_maxNum_left ha _
  isNaN_minNum ha := isNaN_minNum_left ha _

/-- Two summands may be added to zero in either order. -/
theorem CommutativeSums.zero_add_exchange {α : Type} [Scalar α] [CommutativeSums α] (a b : α) :
    0 + a + b = 0 + b + a := by
  have hneutral : ∀ {c : α}, (c == 0) = false → 0 + c = c := fun hc => by
    rw [add_comm, add_zero hc zero_beq_zero]
  cases ha : a == 0 <;> cases hb : b == 0
  · rw [hneutral ha, hneutral hb, add_comm]
  · rw [zero_add_zero hb, hneutral ha, add_zero ha hb]
  · rw [zero_add_zero ha, hneutral hb, add_zero hb ha]
  · rw [zero_add_zero ha, zero_add_zero hb, zero_add_zero ha]

/-! ### Exact and extended numbers -/

section Exact

variable {K : Type} [Field K] [LinearOrder K] [ExactScalar K]

theorem isNaN_exact (a : K) : isNaN a = false := bne_self_eq_false a

instance : UnitalScalar K where
  mul_one := mul_one

instance : CommutativeSums K where
  add_comm := add_comm
  add_zero _ hz := by rw [eq_of_beq hz, add_zero]
  zero_add_zero hz := by rw [eq_of_beq hz, add_zero]
  zero_beq_zero := beq_self_eq_true 0

variable [IsStrictOrderedRing K]

instance : PropagatesNaN K where
  le_trans h h' := h.trans h'
  le_total _ _ := le_total _ _
  lt_iff := lt_iff_le_not_ge
  beq_iff := by
    intro a b
    rw [beq_iff_eq, le_antisymm_iff]
  isNaN_left _ := isNaN_exact _
  isNaN_right _ := isNaN_exact _
  maxNum_eq a b := by
    simp only [isNaN_exact, Bool.false_eq_true, false_or]
    exact max_def a b
  minNum_eq a b := by
    simp only [isNaN_exact, Bool.false_eq_true, false_or]
    exact min_def' a b
  isNaN_of_isFinite _ := isNaN_exact _
  limits := by norm_num [Limits.infinity]
  isNaN_add_left _ h := absurd h (by simp [isNaN_exact])
  isNaN_add_right _ _ h := absurd h (by simp [isNaN_exact])
  isNaN_mul_left _ h := absurd h (by simp [isNaN_exact])
  isNaN_mul_right _ _ h := absurd h (by simp [isNaN_exact])
  isNaN_nan h := absurd h (by simp [isNaN_exact])
  isNaN_zero := isNaN_exact 0
  one_beq_zero := by simp

instance : SignedZeros K where
  eq_or_zeros h h' := .inl (h.antisymm h')
  add_zeros _ _ := add_comm _ _
  add_add_zeros s _ _ _ _ := add_right_comm s _ _

end Exact

namespace Extended

variable {K : Type} [Field K] [LinearOrder K] [ExactScalar K]

theorem isNaN_eq_false_iff {a : Extended K} : isNaN a = false ↔ a ≠ nan := by
  cases a <;> simp [isNaN, bne, BEq.beq]

theorem isNaN_eq_true_iff {a : Extended K} : isNaN a = true ↔ a = nan := by
  cases a <;> simp [isNaN, bne, BEq.beq]

theorem le_iff {a b : Extended K} : a ≤ b ↔ le a b = true := Iff.rfl

theorem lt_iff {a b : Extended K} : a < b ↔ lt a b = true := Iff.rfl

variable [IsStrictOrderedRing K]

instance : UnitalScalar (Extended K) where
  mul_one := by
    intro a
    show mul a (finite 1) = a
    cases a with
    | nan => rfl
    | finite a => exact congrArg finite (mul_one a)
    | posInf => exact if_pos one_pos
    | negInf =>
      have hneg : ¬0 < (-1 : K) := not_lt.mpr (neg_nonpos.mpr zero_le_one)
      exact (if_neg hneg).trans (if_pos (neg_lt_zero.mpr one_pos))

instance : PropagatesNaN (Extended K) where
  le_trans := by
    intro a b c hab hbc
    rw [le_iff] at hab hbc ⊢
    cases a <;> cases b <;> cases c <;> simp_all [le]
    exact hab.trans hbc
  le_total := by
    intro a b ha hb
    rw [isNaN_eq_false_iff] at ha hb
    rw [le_iff, le_iff]
    cases a <;> cases b <;> simp_all [le]
    exact le_total _ _
  lt_iff := by
    intro a b
    rw [lt_iff, le_iff, le_iff]
    cases a <;> cases b <;> simp [le, lt]
    exact le_of_lt
  beq_iff := by
    intro a b
    rw [le_iff, le_iff]
    cases a <;> cases b <;> simp [le, BEq.beq]
    exact le_antisymm_iff
  isNaN_left := by
    intro a b h
    rw [isNaN_eq_false_iff]
    rintro rfl
    cases h
  isNaN_right := by
    intro a b h
    rw [isNaN_eq_false_iff]
    rintro rfl
    rw [le_iff] at h
    cases a <;> cases h
  maxNum_eq a b := by
    simp only [isNaN_eq_true_iff]
    rfl
  minNum_eq a b := by
    simp only [isNaN_eq_true_iff]
    rfl
  isNaN_of_isFinite := by
    intro a h
    rw [isNaN_eq_false_iff]
    rintro rfl
    cases h
  limits := by
    show finite (-Limits.infinity) ≤ finite (Limits.infinity : K)
    rw [finite_le_finite]
    exact OrderedScalar.limits
  isNaN_add_left := by
    intro a b h
    rw [isNaN_eq_true_iff] at h ⊢
    subst h
    rfl
  isNaN_add_right := by
    intro a b h
    rw [isNaN_eq_true_iff] at h ⊢
    subst h
    cases a <;> rfl
  isNaN_mul_left := by
    intro a b h
    rw [isNaN_eq_true_iff] at h ⊢
    subst h
    rfl
  isNaN_mul_right := by
    intro a b h
    rw [isNaN_eq_true_iff] at h ⊢
    subst h
    cases a <;> rfl
  isNaN_nan _ := isNaN_eq_true_iff.mpr rfl
  isNaN_zero := isNaN_eq_false_iff.mpr nofun
  one_beq_zero := by
    show (finite (1 : K) == finite 0) = false
    simp [BEq.beq]

omit [IsStrictOrderedRing K] in
/-- Zero has one sign. -/
theorem eq_of_beq_zero {a : Extended K} (h : (a == 0) = true) : a = 0 := by
  simp only [BEq.beq, Bool.and_eq_true, decide_eq_true_eq] at h
  exact h.1

instance : SignedZeros (Extended K) where
  eq_or_zeros := by
    intro a b hab hba
    rw [le_iff] at hab hba
    cases a <;> cases b <;> simp_all [le]
    exact .inl (hab.antisymm hba)
  add_zeros ha hb := by rw [eq_of_beq_zero ha, eq_of_beq_zero hb]
  add_add_zeros s _ _ ha hb := by rw [eq_of_beq_zero ha, eq_of_beq_zero hb]

omit [IsStrictOrderedRing K] in
theorem add_zero (a : Extended K) : a + 0 = a := by
  cases a with
  | finite a => exact congrArg finite (add_comm a 0 |>.trans (zero_add a))
  | nan | posInf | negInf => rfl

omit [IsStrictOrderedRing K] in
instance : CommutativeSums (Extended K) where
  add_comm := by
    intro a b
    cases a with
    | finite a =>
      cases b with
      | finite b => exact congrArg finite (add_comm a b)
      | nan | posInf | negInf => rfl
    | nan | posInf | negInf => cases b <;> rfl
  add_zero _ hz := by rw [eq_of_beq_zero hz, add_zero]
  zero_add_zero hz := by rw [eq_of_beq_zero hz, add_zero]
  zero_beq_zero := by simp [BEq.beq]

end Extended
end QuadOpt
