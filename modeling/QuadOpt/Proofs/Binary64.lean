/-
# Numbers of the binary64 format

Comparisons of binary64 numbers are comparisons of their kinds, then of their exponents,
and then of their mantissas. So the numbers other than NaN are ordered, equal numbers are the
same but for the signs of zeros, and sums and products with a NaN are NaN. A product with one
and a sum with a zero are not rounded.

Key definitions: `Binary64.tier`, `Binary64.exponent`, `Binary64.mantissa`.
Key theorems: `Binary64.le_iff`, `Binary64.mul_one`, `Binary64.eq_or_zeros`.
-/
import Mathlib
import QuadOpt.Proofs.Numbers

namespace QuadOpt

open Float.Model UnpackedFloat

namespace Binary64

/-! ### Comparisons -/

/-- Infinities are outermost, and zeros in the middle. -/
def tier : UnpackedFloat → Int
  | .infinity .negative => -2
  | .finite .negative .. => -1
  | .finite .positive .. => 1
  | .infinity .positive => 2
  | _ => 0

/-- The exponent, with the sign of the number. -/
def exponent : UnpackedFloat → Int
  | .finite .negative _ e _ => -e
  | .finite .positive _ e _ => e
  | _ => 0

/-- The mantissa, with the sign of the number. -/
def mantissa : UnpackedFloat → Int
  | .finite .negative m .. => -m
  | .finite .positive m .. => m
  | _ => 0

/-- The numbers are ordered by tier, exponent and mantissa. -/
def Precedes (a b : UnpackedFloat) : Prop :=
  tier a < tier b ∨ tier a = tier b ∧ (exponent a < exponent b ∨
    exponent a = exponent b ∧ mantissa a ≤ mantissa b)

instance (a b : UnpackedFloat) : Decidable (Precedes a b) := inferInstanceAs (Decidable (_ ∨ _))

/-- The comparison of two finite numbers with one sign. -/
theorem compare_then (e e' : Int) (m m' : Nat) :
    (compare e e').then (compare m m')
      = if e < e' ∨ e = e' ∧ m < m' then .lt else if e = e' ∧ m = m' then .eq else .gt := by
  rcases lt_trichotomy e e' with he | he | he
  · rw [Int.compare_eq_lt.mpr he, if_pos (.inl he)]
    rfl
  · subst he
    rw [Int.compare_eq_eq.mpr rfl]
    rcases lt_trichotomy m m' with hm | hm | hm
    · rw [Nat.compare_eq_lt.mpr hm, if_pos (.inr ⟨rfl, hm⟩)]
      rfl
    · rw [Nat.compare_eq_eq.mpr hm, if_neg (by omega), if_pos ⟨rfl, hm⟩]
      rfl
    · rw [Nat.compare_eq_gt.mpr hm, if_neg (by omega), if_neg (by omega)]
      rfl
  · rw [Int.compare_eq_gt.mpr he, if_neg (by omega), if_neg (by omega)]
    rfl

theorem precedes_positive {m m' : Nat} {e e' : Int} {h : 0 < m} {h' : 0 < m'} :
    Precedes (.finite .positive m e h) (.finite .positive m' e' h') ↔
      e < e' ∨ e = e' ∧ m ≤ m' := by
  show (1 : Int) < 1 ∨ (1 : Int) = 1 ∧ (e < e' ∨ e = e' ∧ (m : Int) ≤ m') ↔ _
  omega

theorem precedes_negative {m m' : Nat} {e e' : Int} {h : 0 < m} {h' : 0 < m'} :
    Precedes (.finite .negative m e h) (.finite .negative m' e' h') ↔
      e' < e ∨ e' = e ∧ m' ≤ m := by
  show (-1 : Int) < -1 ∨ (-1 : Int) = -1 ∧ (-e < -e' ∨ -e = -e' ∧ -(m : Int) ≤ -m') ↔ _
  omega

theorem compare_eq (a b : UnpackedFloat) (ha : a.isNaN = false) (hb : b.isNaN = false) :
    a.compare b = some (if Precedes a b then if Precedes b a then .eq else .lt else .gt) := by
  cases a with
  | notANumber => cases ha
  | infinity s =>
    cases b with
    | notANumber => cases hb
    | infinity s' => cases s <;> cases s' <;> rfl
    | zero s' => cases s <;> rfl
    | finite s' m' e' h' => cases s <;> cases s' <;> rfl
  | zero s =>
    cases b with
    | notANumber => cases hb
    | infinity s' => cases s' <;> rfl
    | zero s' => rfl
    | finite s' m' e' h' => cases s' <;> rfl
  | finite s m e h =>
    cases b with
    | notANumber => cases hb
    | infinity s' => cases s <;> cases s' <;> rfl
    | zero s' => cases s <;> rfl
    | finite s' m' e' h' =>
      cases s <;> cases s'
      · -- of two negative numbers the larger one has the smaller digits
        show some ((compare e e').then (compare m m')).swap = _
        rw [compare_then, if_congr precedes_negative (if_congr precedes_negative rfl rfl) rfl]
        split_ifs <;> first | rfl | omega
      · rfl
      · rfl
      · show some ((compare e e').then (compare m m')) = _
        rw [compare_then, if_congr precedes_positive (if_congr precedes_positive rfl rfl) rfl]
        split_ifs <;> first | rfl | omega

theorem compare_of_isNaN {a b : UnpackedFloat} (h : a.isNaN = true ∨ b.isNaN = true) :
    a.compare b = none := by
  rcases h with h | h
  · rw [isNaN_iff.mp h]
    rfl
  · rw [isNaN_iff.mp h]
    cases a <;> rfl

/-- The kind and the digits of a number. -/
def parts (x : Float) : UnpackedFloat := x.toModel.unpack

theorem parts_of_isNaN {x : Float} (h : x.isNaN = true) : parts x = .notANumber :=
  isNaN_iff.mp h

/-- Two numbers are compared, or one of them is not a number. -/
theorem compare_cases (x y : Float) :
    (x.isNaN = false ∧ y.isNaN = false ∧ (parts x).compare (parts y) =
      some (if Precedes (parts x) (parts y) then
        if Precedes (parts y) (parts x) then .eq else .lt else .gt)) ∨
    (¬(x.isNaN = false ∧ y.isNaN = false) ∧ (parts x).compare (parts y) = none) := by
  by_cases h : x.isNaN = false ∧ y.isNaN = false
  · exact .inl ⟨h.1, h.2, compare_eq _ _ h.1 h.2⟩
  · refine .inr ⟨h, compare_of_isNaN ?_⟩
    rw [not_and_or, Bool.not_eq_false, Bool.not_eq_false] at h
    exact h

theorem le_iff {x y : Float} :
    x ≤ y ↔ x.isNaN = false ∧ y.isNaN = false ∧ Precedes (parts x) (parts y) := by
  have hle : x ≤ y ↔ ((parts x).compare (parts y)).any (·.isLE) = true := decide_eq_true_iff
  rw [hle]
  rcases compare_cases x y with ⟨hx, hy, h⟩ | ⟨hnan, h⟩
  · rw [h, hx, hy, Option.any_some]
    split_ifs <;> simp_all
  · rw [h]
    exact ⟨nofun, fun hle => absurd ⟨hle.1, hle.2.1⟩ hnan⟩

theorem lt_iff {x y : Float} : x < y ↔ x ≤ y ∧ ¬y ≤ x := by
  have hlt : x < y ↔ ((parts x).compare (parts y) == some .lt) = true := decide_eq_true_iff
  rw [hlt, le_iff, le_iff]
  rcases compare_cases x y with ⟨hx, hy, h⟩ | ⟨hnan, h⟩
  · rw [h, hx, hy]
    split_ifs <;> simp_all
  · rw [h]
    exact ⟨nofun, fun hboth => absurd ⟨hboth.1.1, hboth.1.2.1⟩ hnan⟩

theorem beq_iff {x y : Float} : (x == y) = true ↔ x ≤ y ∧ y ≤ x := by
  have hbeq : (x == y) = ((parts x).compare (parts y) == some .eq) := rfl
  rw [hbeq, le_iff, le_iff]
  rcases compare_cases x y with ⟨hx, hy, h⟩ | ⟨hnan, h⟩
  · rw [h, hx, hy]
    split_ifs <;> simp_all
  · rw [h]
    exact ⟨nofun, fun hboth => absurd ⟨hboth.1.1, hboth.1.2.1⟩ hnan⟩

theorem isNaN_eq (x : Float) : Scalar.isNaN x = x.isNaN := by
  have hself : (x == x) = true ↔ x.isNaN = false := by
    rw [beq_iff, and_self, le_iff]
    exact ⟨fun h => h.1, fun h => ⟨h, h, .inr ⟨rfl, .inr ⟨rfl, le_rfl⟩⟩⟩⟩
  have hbeq : Scalar.isNaN x = !(x == x) := rfl
  rw [hbeq]
  cases hx : x.isNaN with
  | false => rw [hself.mpr hx]; rfl
  | true =>
    have hne : (x == x) = false := by
      rw [Bool.eq_false_iff, Ne, hself, hx]
      exact Bool.noConfusion
    rw [hne]
    rfl

/-! ### Arithmetic -/

theorem isNaN_pack_notANumber : (Float.ofModel (pack .notANumber)).isNaN = true := by
  decide

theorem add_of_isNaN {x y : Float} (h : x.isNaN = true ∨ y.isNaN = true) :
    (x + y).isNaN = true := by
  have hadd : x + y = .ofModel (pack (UnpackedFloat.add Format.binary64 (parts x) (parts y))) := rfl
  have hnan : UnpackedFloat.add Format.binary64 (parts x) (parts y) = .notANumber := by
    rcases h with h | h
    · rw [parts_of_isNaN h]
      rfl
    · rw [parts_of_isNaN h]
      cases parts x <;> rfl
  rw [hadd, hnan]
  exact isNaN_pack_notANumber

theorem mul_of_isNaN {x y : Float} (h : x.isNaN = true ∨ y.isNaN = true) :
    (x * y).isNaN = true := by
  have hmul : x * y = .ofModel (pack (UnpackedFloat.mul Format.binary64 (parts x) (parts y))) := rfl
  have hnan : UnpackedFloat.mul Format.binary64 (parts x) (parts y) = .notANumber := by
    rcases h with h | h
    · rw [parts_of_isNaN h]
      rfl
    · rw [parts_of_isNaN h]
      cases parts x <;> rfl
  rw [hmul, hnan]
  exact isNaN_pack_notANumber

/-! ### Multiplication by one -/

theorem toNat_append_one (v : BitVec 52) : (1#1 ++ v).toNat = 2 ^ 52 + v.toNat := by
  rw [BitVec.toNat_append, ← Nat.shiftLeft_add_eq_or_of_lt v.isLt]
  rfl

theorem log2_mul_pow {m : Nat} (hm : 0 < m) (k : Nat) : (m * 2 ^ k).log2 = m.log2 + k := by
  have hpow : 0 < 2 ^ k := Nat.two_pow_pos k
  obtain ⟨hle, hlt⟩ := (Nat.log2_eq_iff hm.ne').mp rfl
  refine (Nat.log2_eq_iff (Nat.mul_pos hm hpow).ne').mpr ⟨?_, ?_⟩
  · rw [Nat.pow_add]
    exact Nat.mul_le_mul_right _ hle
  · rw [Nat.add_right_comm, Nat.pow_add]
    exact Nat.mul_lt_mul_of_pos_right hlt hpow

/-- Zeros at the end of a mantissa are shifted out without a remainder. -/
theorem shiftRight_mul_pow (m j k : Nat) :
    Nat.repeat ExtendedMantissa.shiftRightOne j ⟨m * 2 ^ (k + j), false, false⟩
      = ⟨m * 2 ^ k, false, false⟩ := by
  induction j generalizing k with
  | zero => rfl
  | succ j ih =>
    have hshift := ih (k + 1)
    rw [Nat.add_right_comm, Nat.add_assoc] at hshift
    show ExtendedMantissa.shiftRightOne
      (Nat.repeat ExtendedMantissa.shiftRightOne j ⟨m * 2 ^ (k + (j + 1)), false, false⟩) = _
    rw [hshift]
    simp [ExtendedMantissa.shiftRightOne, Nat.pow_succ, ← Nat.mul_assoc]

/-- A number of the format is not rounded. -/
theorem roundWithAccuracy_mul_pow {s : Sign} {m : Nat} {e : Int} (hm : 0 < m)
    (he : Format.binary64.targetExponent (totalExponent m e) = e) (k : Nat) :
    roundWithAccuracy Format.binary64 s (m * 2 ^ k) (e - k) .exact = .finite s m e hm := by
  have htotal : totalExponent (m * 2 ^ k) (e - k) = totalExponent m e := by
    unfold totalExponent
    rw [log2_mul_pow hm]
    omega
  have hfirst : shiftToTargetExponent Format.binary64 (m * 2 ^ k) (e - k) .exact
      = (⟨m, false, false⟩, e) := by
    have hshift := shiftRight_mul_pow m k 0
    rw [Nat.zero_add, Nat.pow_zero, Nat.mul_one] at hshift
    have hcount : (e - (e - (k : Int))).toNat = k := by omega
    simp only [shiftToTargetExponent, shiftToExponent, htotal, he, hcount]
    exact Prod.ext hshift (Int.sub_add_cancel e k)
  have hsecond : shiftToTargetExponent Format.binary64
      (ExtendedMantissa.roundedMantissa ⟨m, false, false⟩) e .exact
        = (⟨m, false, false⟩, e) := by
    show shiftToTargetExponent Format.binary64 m e .exact = _
    simp only [shiftToTargetExponent, shiftToExponent, he, Int.sub_self]
    exact Prod.ext rfl (Int.add_zero e)
  simp only [roundWithAccuracy, hfirst, hsecond]
  exact dif_neg hm.ne'

/-- A subnormal mantissa is short, and a normal one has its leading digit in place. -/
theorem log2_mantissa (v : BitVec 52) :
    v.toNat.log2 + 1 ≤ 52 ∧ (1#1 ++ v).toNat.log2 + 1 = 53 := by
  have hlt : v.toNat < 2 ^ 52 := v.isLt
  constructor
  · by_cases hzero : v.toNat = 0
    · simp [hzero]
    · exact (Nat.log2_lt hzero).mpr hlt
  · rw [toNat_append_one, (Nat.log2_eq_iff (k := 52) (by omega)).mpr ⟨by omega, by omega⟩]

theorem targetExponent_eq (t : Int) : Format.binary64.targetExponent t = max (t - 53) (-1074) := rfl

theorem exponentBias_eq : Format.binary64.exponentBias = 1023 := rfl

/-- The exponent of a finite number is the one that the format asks for. -/
theorem targetExponent_unpack {b : BitVec Format.binary64.numBits} {s : Sign} {m : Nat} {e : Int}
    {hm : 0 < m} (h : unpack Format.binary64 b = .finite s m e hm) :
    Format.binary64.targetExponent (totalExponent m e) = e := by
  obtain ⟨hshort, hlong⟩ := log2_mantissa (unpackMantissa b)
  unfold UnpackedFloat.unpack at h
  simp only [exponentBias_eq] at h
  rw [targetExponent_eq, totalExponent]
  split_ifs at h with hinf hzero hsub hzero
  · injection h with hs hm he
    subst hm he
    rw [hsub, show (BitVec.ofNat Format.binary64.exponentBits 0).toNat = 0 from rfl]
    omega
  · injection h with hs hm he
    have hpos : 0 < (unpackExponent b).toNat := by
      rw [Nat.pos_iff_ne_zero]
      exact fun h => hsub (BitVec.toNat_inj.mp h)
    subst hm he
    omega

/-- A word is what the number that it stands for is written as. -/
theorem pack_unpack (v : Float.Model) : Float.Model.pack v.unpack = v := by
  obtain ⟨bits, hvalid⟩ := v
  have hword : UnpackedFloat.pack Format.binary64 (UnpackedFloat.unpack Format.binary64
      bits.toBitVec) = bits.toBitVec := pack_unpack_of_valid hvalid
  simp only [Float.Model.pack, Float.Model.unpack, hword]

theorem ofModel_pack_parts (x : Float) : Float.ofModel (Float.Model.pack (parts x)) = x :=
  congrArg Float.ofModel (pack_unpack x.toModel)

/-- One has a whole word of zeros behind its leading digit, so a product with it has the
digits of the other factor. -/
theorem mul_one (x : Float) : x * 1 = x := by
  have hone : parts 1 = .finite .positive (2 ^ 52) (-52) (by decide) := rfl
  have hmul : UnpackedFloat.mul Format.binary64 (parts x) (parts 1) = parts x := by
    rw [hone]
    cases h : parts x with
    | notANumber => rfl
    | infinity s => cases s <;> rfl
    | zero s => cases s <;> rfl
    | finite s m e hm =>
      have hs : s * Sign.positive = s := by cases s <;> rfl
      show roundWithAccuracy Format.binary64 (s * Sign.positive) (m * 2 ^ 52)
        (e - (52 : Nat)) .exact = _
      rw [hs]
      exact roundWithAccuracy_mul_pow hm (targetExponent_unpack h) 52
  show Float.ofModel (Float.Model.pack
    (UnpackedFloat.mul Format.binary64 (parts x) (parts 1))) = x
  rw [hmul, ofModel_pack_parts]

/-! ### Zeros -/

/-- A zero with a sign. -/
def signedZero (s : Sign) : Float := .ofModel (Float.Model.pack (.zero s))

theorem eq_signedZero {x : Float} {s : Sign} (h : parts x = .zero s) : x = signedZero s := by
  rw [← ofModel_pack_parts x, h]
  rfl

theorem eq_or_zeros_of_precedes {a b : UnpackedFloat} (ha : a.isNaN = false)
    (hb : b.isNaN = false) (hab : Precedes a b) (hba : Precedes b a) :
    a = b ∨ (∃ s, a = .zero s) ∧ ∃ s, b = .zero s := by
  unfold Precedes at hab hba
  have htier : tier a = tier b := by omega
  have hexponent : exponent a = exponent b := by omega
  have hmantissa : mantissa a = mantissa b := by omega
  cases a with
  | notANumber => cases ha
  | infinity s =>
    cases b with
    | notANumber => cases hb
    | infinity s' => cases s <;> cases s' <;> simp_all [tier]
    | zero s' => cases s <;> simp [tier] at htier
    | finite s' => cases s <;> cases s' <;> simp [tier] at htier
  | zero s =>
    cases b with
    | notANumber => cases hb
    | infinity s' => cases s' <;> simp [tier] at htier
    | zero s' => exact .inr ⟨⟨s, rfl⟩, s', rfl⟩
    | finite s' => cases s' <;> simp [tier] at htier
  | finite s =>
    cases b with
    | notANumber => cases hb
    | infinity s' => cases s <;> cases s' <;> simp [tier] at htier
    | zero s' => cases s <;> simp [tier] at htier
    | finite s' =>
      cases s <;> cases s' <;> simp_all [tier, exponent, mantissa]

/-- Equal numbers are the same, or zeros. -/
theorem eq_or_zeros {x y : Float} (hxy : x ≤ y) (hyx : y ≤ x) :
    x = y ∨ (∃ s, parts x = .zero s) ∧ ∃ s, parts y = .zero s := by
  obtain ⟨hx, hy, hxy⟩ := le_iff.mp hxy
  obtain ⟨-, -, hyx⟩ := le_iff.mp hyx
  have hnumbers : parts x = parts y ∨ _ := eq_or_zeros_of_precedes hx hy hxy hyx
  refine hnumbers.imp_left fun h => ?_
  rw [← ofModel_pack_parts x, h, ofModel_pack_parts]

theorem beq_zero_iff {x : Float} : (x == 0) = true ↔ ∃ s, parts x = .zero s := by
  have hzero : parts 0 = .zero .positive := rfl
  rw [beq_iff]
  constructor
  · rintro ⟨hle, hge⟩
    rcases eq_or_zeros hle hge with h | h
    · exact ⟨.positive, by rw [h, hzero]⟩
    · exact h.1
  · rintro ⟨s, h⟩
    rw [le_iff, le_iff, hzero, h, eq_signedZero h]
    cases s <;> decide

/-- Adding a zero changes nothing but a zero. -/
theorem add_signedZero {x : Float} (hzero : ¬∃ u, parts x = .zero u) (s : Sign) :
    x + signedZero s = x := by
  have hs : parts (signedZero s) = .zero s := by cases s <;> rfl
  have hsum : UnpackedFloat.add Format.binary64 (parts x) (parts (signedZero s)) = parts x := by
    rw [hs]
    cases hx : parts x with
    | zero u => exact absurd ⟨u, hx⟩ hzero
    | notANumber | infinity | finite => rfl
  show Float.ofModel (Float.Model.pack (UnpackedFloat.add Format.binary64 (parts x)
    (parts (signedZero s)))) = x
  rw [hsum, ofModel_pack_parts]

/-- The sum of zeros has one sign whatever their order. -/
theorem add_zeros (s t : Sign) (x : Float) : signedZero s + signedZero t
      = signedZero t + signedZero s ∧
    x + signedZero s + signedZero t = x + signedZero t + signedZero s := by
  refine ⟨by cases s <;> cases t <;> decide, ?_⟩
  by_cases hzero : ∃ u, parts x = .zero u
  · obtain ⟨u, hu⟩ := hzero
    rw [eq_signedZero hu]
    cases s <;> cases t <;> cases u <;> decide
  · rw [add_signedZero hzero, add_signedZero hzero, add_signedZero hzero]

theorem add_comm (x y : Float) : x + y = y + x := by
  have hparts : ∀ a b : UnpackedFloat,
      UnpackedFloat.add Format.binary64 a b = UnpackedFloat.add Format.binary64 b a := by
    intro a b
    cases a with
    | notANumber => cases b <;> rfl
    | infinity s =>
      cases b with
      | infinity t => cases s <;> cases t <;> rfl
      | notANumber | zero | finite => rfl
    | zero s =>
      cases b with
      | zero t => cases s <;> cases t <;> rfl
      | notANumber | infinity | finite => rfl
    | finite s m e hm =>
      cases b with
      | finite t m' e' hm' =>
        simp only [UnpackedFloat.add]
        rw [min_comm e e', Int.add_comm]
      | notANumber | infinity | zero => rfl
  exact congrArg (fun u => Float.ofModel (Float.Model.pack u)) (hparts (parts x) (parts y))

end Binary64

instance : UnitalScalar Float where
  mul_one := Binary64.mul_one

open Binary64 in
instance : PropagatesNaN Float where
  le_trans := by
    intro a b c hab hbc
    obtain ⟨ha, hb, hab⟩ := le_iff.mp hab
    obtain ⟨-, hc, hbc⟩ := le_iff.mp hbc
    refine le_iff.mpr ⟨ha, hc, ?_⟩
    unfold Precedes at hab hbc ⊢
    omega
  le_total := by
    intro a b ha hb
    rw [isNaN_eq] at ha hb
    rw [le_iff, le_iff, ha, hb]
    simp only [true_and]
    unfold Precedes
    omega
  lt_iff := lt_iff
  beq_iff := beq_iff
  isNaN_left h := by
    rw [isNaN_eq]
    exact (le_iff.mp h).1
  isNaN_right h := by
    rw [isNaN_eq]
    exact (le_iff.mp h).2.1
  maxNum_eq a b := by
    show (if a.isNaN || decide (a ≤ b) then b else a) = _
    simp only [Bool.or_eq_true, decide_eq_true_eq, isNaN_eq]
  minNum_eq a b := by
    show (if a.isNaN || decide (b ≤ a) then b else a) = _
    simp only [Bool.or_eq_true, decide_eq_true_eq, isNaN_eq]
  isNaN_of_isFinite := by
    intro a h
    have h : (parts a).isFinite = true := h
    rw [isNaN_eq]
    show (parts a).isNaN = false
    cases hparts : parts a with
    | notANumber =>
      rw [hparts] at h
      cases h
    | infinity | zero | finite => rfl
  limits := by decide +kernel
  isNaN_add_left b h := by
    rw [isNaN_eq] at h ⊢
    exact add_of_isNaN (.inl h)
  isNaN_add_right a _ h := by
    rw [isNaN_eq] at h ⊢
    exact add_of_isNaN (.inr h)
  isNaN_mul_left b h := by
    rw [isNaN_eq] at h ⊢
    exact mul_of_isNaN (.inl h)
  isNaN_mul_right a _ h := by
    rw [isNaN_eq] at h ⊢
    exact mul_of_isNaN (.inr h)
  isNaN_nan _ := by decide
  isNaN_zero := by decide
  one_beq_zero := by decide

instance : SignedZeros Float where
  eq_or_zeros hab hba := (Binary64.eq_or_zeros hab hba).imp id
    (And.imp Binary64.beq_zero_iff.mpr Binary64.beq_zero_iff.mpr)
  add_zeros ha hb := by
    obtain ⟨s, hs⟩ := Binary64.beq_zero_iff.mp ha
    obtain ⟨t, ht⟩ := Binary64.beq_zero_iff.mp hb
    rw [Binary64.eq_signedZero hs, Binary64.eq_signedZero ht]
    exact (Binary64.add_zeros s t 0).1
  add_add_zeros x _ _ ha hb := by
    obtain ⟨s, hs⟩ := Binary64.beq_zero_iff.mp ha
    obtain ⟨t, ht⟩ := Binary64.beq_zero_iff.mp hb
    rw [Binary64.eq_signedZero hs, Binary64.eq_signedZero ht]
    exact (Binary64.add_zeros s t x).2

instance : CommutativeSums Float where
  add_comm := Binary64.add_comm
  add_zero ha hz := by
    obtain ⟨s, hs⟩ := Binary64.beq_zero_iff.mp hz
    rw [Binary64.eq_signedZero hs]
    exact Binary64.add_signedZero (fun h => Bool.eq_false_iff.mp ha (Binary64.beq_zero_iff.mpr h)) s
  zero_add_zero hz := by
    obtain ⟨s, hs⟩ := Binary64.beq_zero_iff.mp hz
    rw [Binary64.eq_signedZero hs]
    cases s <;> decide
  zero_beq_zero := by decide

end QuadOpt
