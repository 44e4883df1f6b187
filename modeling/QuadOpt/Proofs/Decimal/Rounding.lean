/-
# Rounding to the binary64 format

A number of the format is the nearest one to every rational number in an interval around it,
and rounding takes all of these to it. Rounding knows a number by its leading digits and two
residual bits, the sticky one of which stands for whatever is left. Just below a power of two,
where the distance between neighbours changes, one digit too many is kept first and rounding
carries into it.

Key definitions: `Magnitude.Fits`, `Magnitude.Near`, `Binary64.Stands`.
Key theorems: `Binary64.Stands.roundedMantissa_eq`, `Binary64.targetExponent_of_near`,
`Binary64.roundWithAccuracy_of_near`.
-/
import Mathlib
import QuadOpt.Decimal.Shortest
import QuadOpt.Proofs.Binary64

namespace QuadOpt

open Float.Model UnpackedFloat

/-! ### Values -/

/-- The number that a mantissa and an exponent stand for. -/
def Magnitude.value (x : Magnitude) : ℚ := x.mantissa * 2 ^ x.exponent

/-- The number that digits and an exponent stand for. -/
def Decimal.value (d : Decimal) : ℚ := d.digits * 10 ^ d.exponent

/-- The format has a word for the number, and keeps it with this mantissa. -/
structure Magnitude.Fits (x : Magnitude) : Prop where
  pos : 0 < x.mantissa
  lt : x.mantissa < 2 ^ 53
  ge : -1074 ≤ x.exponent
  le : x.exponent ≤ 971
  /-- only the least exponent goes with a mantissa that has no leading one -/
  subnormal : x.mantissa < 2 ^ 52 → x.exponent = -1074

namespace Magnitude

/-- Half the distance to the next smaller number is as half of that to the next larger one at a
power of two. -/
def IsNarrow (x : Magnitude) : Prop := x.mantissa = 2 ^ 52 ∧ -1074 < x.exponent

instance (x : Magnitude) : Decidable x.IsNarrow := inferInstanceAs (Decidable (_ ∧ _))

/-- The lower end of the interval of the numbers that are rounded to `x`, in quarters of the last
binary place. -/
def low (x : Magnitude) : ℚ := if x.IsNarrow then 4 * x.mantissa - 1 else 4 * x.mantissa - 2

/-- The number is in the interval of those that are rounded to `x`. -/
def Near (x : Magnitude) (v : ℚ) : Prop :=
  if x.mantissa % 2 = 0 then
    x.low * 2 ^ x.exponent ≤ 4 * v ∧ 4 * v ≤ (4 * x.mantissa + 2) * 2 ^ x.exponent
  else x.low * 2 ^ x.exponent < 4 * v ∧ 4 * v < (4 * x.mantissa + 2) * 2 ^ x.exponent

theorem Near.bounds {x : Magnitude} {v : ℚ} (h : x.Near v) :
    x.low * 2 ^ x.exponent ≤ 4 * v ∧ 4 * v ≤ (4 * x.mantissa + 2) * 2 ^ x.exponent := by
  unfold Near at h
  split at h
  · exact h
  · exact ⟨h.1.le, h.2.le⟩

theorem two_zpow_pos (e : ℤ) : (0 : ℚ) < 2 ^ e := zpow_pos two_pos e

end Magnitude

namespace Binary64

/-! ### Extended mantissas -/

/-- The residual bits tell how the mantissa differs from a number: it is less by half the round bit
and a remainder below one half, which is there if the sticky bit is set. -/
def Stands (em : ExtendedMantissa) (w : ℚ) : Prop :=
  ∃ r : ℚ, 0 ≤ r ∧ r < 1 ∧ (em.stickyBit = true ↔ r ≠ 0) ∧
    2 * w = 2 * em.mantissa + em.roundBit.toNat + r

@[simp]
theorem mantissa_ofMantissaAndAccuracy (m : ℕ) (a : Accuracy) :
    (ExtendedMantissa.ofMantissaAndAccuracy m a).mantissa = m := by
  cases a with
  | exact => rfl
  | inexact o => cases o <;> rfl

theorem stands_exact (m : ℕ) : Stands (.ofMantissaAndAccuracy m .exact) m :=
  ⟨0, le_rfl, one_pos, by simp [ExtendedMantissa.ofMantissaAndAccuracy],
    by simp [ExtendedMantissa.ofMantissaAndAccuracy]⟩

theorem stands_fraction (n : ℕ) {d : ℕ} (hd : 0 < d) :
    Stands (.ofMantissaAndAccuracy (n / d) (accuracyOfFraction (n % d) d)) (n / d) := by
  have hdq : (0 : ℚ) < d := Nat.cast_pos.mpr hd
  have hdivmod : (n : ℚ) = d * (n / d : ℕ) + (n % d : ℕ) := by
    exact_mod_cast (Nat.div_add_mod n d).symm
  have hlt : ((n % d : ℕ) : ℚ) < d := Nat.cast_lt.mpr (Nat.mod_lt n hd)
  have htwice : 2 * ((n : ℚ) / d) = 2 * (n / d : ℕ) + 2 * (n % d : ℕ) / d := by
    rw [hdivmod]
    field_simp
  generalize n / d = q at *
  generalize n % d = k at *
  have hfraction : 0 ≤ 2 * (k : ℚ) / d := by positivity
  unfold accuracyOfFraction
  split_ifs with hk
  · exact ⟨0, le_rfl, one_pos, by simp [ExtendedMantissa.ofMantissaAndAccuracy],
      by simp [ExtendedMantissa.ofMantissaAndAccuracy, htwice, hk]⟩
  have hkq : (0 : ℚ) < k := Nat.cast_pos.mpr (Nat.pos_of_ne_zero hk)
  rcases lt_trichotomy (2 * k) d with hcmp | hcmp | hcmp
  · rw [Nat.compare_eq_lt.mpr hcmp]
    have hcmpq : 2 * (k : ℚ) < d := by exact_mod_cast hcmp
    refine ⟨2 * k / d, hfraction, (div_lt_one hdq).mpr hcmpq, ?_, ?_⟩
    · simp [ExtendedMantissa.ofMantissaAndAccuracy, hk, hd.ne']
    · simp [ExtendedMantissa.ofMantissaAndAccuracy, htwice]
  · rw [Nat.compare_eq_eq.mpr hcmp]
    have hcmpq : 2 * (k : ℚ) = d := by exact_mod_cast hcmp
    refine ⟨0, le_rfl, one_pos, by simp [ExtendedMantissa.ofMantissaAndAccuracy], ?_⟩
    simp [ExtendedMantissa.ofMantissaAndAccuracy, htwice, hcmpq, hdq.ne']
  · rw [Nat.compare_eq_gt.mpr hcmp]
    have hcmpq : (d : ℚ) < 2 * k := by exact_mod_cast hcmp
    have hone : 1 < 2 * (k : ℚ) / d := (one_lt_div hdq).mpr hcmpq
    have htwo : 2 * (k : ℚ) / d < 2 := by
      rw [div_lt_iff₀ hdq]
      linarith
    refine ⟨2 * k / d - 1, by linarith, by linarith, ?_, ?_⟩
    · have hne : 2 * (k : ℚ) / d - 1 ≠ 0 := by linarith
      simpa [ExtendedMantissa.ofMantissaAndAccuracy] using hne
    · simp only [ExtendedMantissa.ofMantissaAndAccuracy, htwice, Bool.toNat_true, Nat.cast_one]
      ring

theorem Stands.shiftRightOne {em : ExtendedMantissa} {w : ℚ} (h : Stands em w) :
    Stands em.shiftRightOne (w / 2) := by
  obtain ⟨r, hr, hr1, hsticky, hw⟩ := h
  obtain ⟨m, b, s⟩ := em
  have hb : (b.toNat : ℚ) ≤ 1 ∧ (0 : ℚ) ≤ b.toNat := by cases b <;> simp
  have hm : (m : ℚ) = 2 * (m / 2 : ℕ) + (m % 2 : ℕ) := by exact_mod_cast (Nat.div_add_mod m 2).symm
  have hodd : ((m % 2 != 0).toNat : ℚ) = (m % 2 : ℕ) := by
    rcases Nat.mod_two_eq_zero_or_one m with h | h <;> simp [h]
  refine ⟨(b.toNat + r) / 2, by linarith, by linarith, ?_, ?_⟩
  · simp only [ExtendedMantissa.shiftRightOne, Bool.or_eq_true]
    simp only at hsticky
    rw [hsticky]
    cases b with
    | false => simp
    | true =>
      have : (1 + r) / 2 ≠ 0 := by linarith
      simpa using this
  · simp only [ExtendedMantissa.shiftRightOne, hodd] at hw ⊢
    linarith

theorem Stands.shiftRight {em : ExtendedMantissa} {w : ℚ} (h : Stands em w) (k : ℕ) :
    Stands (em >>> k) (w / 2 ^ k) := by
  induction k with
  | zero =>
    rw [pow_zero, div_one]
    exact h
  | succ k ih =>
    have hshift : em >>> (k + 1) = (em >>> k).shiftRightOne := rfl
    rw [hshift, pow_succ, ← div_div]
    exact ih.shiftRightOne

/-- A number is rounded to the whole number nearest to it, and if two are as near, to the even
one. -/
theorem Stands.roundedMantissa_eq {em : ExtendedMantissa} {w : ℚ} (h : Stands em w) {m : ℕ}
    (hlow : 2 * (m : ℚ) - 1 ≤ 2 * w) (hhigh : 2 * w ≤ 2 * m + 1)
    (hodd : m % 2 = 1 → 2 * (m : ℚ) - 1 < 2 * w ∧ 2 * w < 2 * m + 1) :
    em.roundedMantissa = m := by
  obtain ⟨r, hr, hr1, hsticky, hw⟩ := h
  obtain ⟨k, b, s⟩ := em
  simp only at hw hsticky
  cases b with
  | false =>
    have hround : ExtendedMantissa.roundedMantissa ⟨k, false, s⟩ = k := by cases s <;> rfl
    simp only [Bool.toNat_false, Nat.cast_zero, add_zero] at hw
    have hle : k < m + 1 := by
      have : (k : ℚ) < m + 1 := by linarith
      exact_mod_cast this
    have hge : m < k + 1 := by
      have : (m : ℚ) < k + 1 := by linarith
      exact_mod_cast this
    omega
  | true =>
    simp only [Bool.toNat_true, Nat.cast_one] at hw
    cases s with
    | false =>
      have hr0 : r = 0 := by
        by_contra hne
        exact absurd (hsticky.mpr hne) Bool.false_ne_true
      have hround : ExtendedMantissa.roundedMantissa ⟨k, true, false⟩ = k + k % 2 := rfl
      have hle : k ≤ m := by
        have : (k : ℚ) ≤ m := by linarith
        exact_mod_cast this
      have hge : m ≤ k + 1 := by
        have : (m : ℚ) ≤ k + 1 := by linarith
        exact_mod_cast this
      have heven : m % 2 = 0 := by
        by_contra hne
        obtain ⟨h1, h2⟩ := hodd (by omega)
        have h1 : m < k + 1 := by
          have : (m : ℚ) < k + 1 := by linarith
          exact_mod_cast this
        have h2 : k < m := by
          have : (k : ℚ) < m := by linarith
          exact_mod_cast this
        omega
      omega
    | true =>
      have hpos : 0 < r := lt_of_le_of_ne hr (Ne.symm (hsticky.mp rfl))
      have hround : ExtendedMantissa.roundedMantissa ⟨k, true, true⟩ = k + 1 := rfl
      have hle : k < m := by
        have : (k : ℚ) < m := by linarith
        exact_mod_cast this
      have hge : m < k + 2 := by
        have : (m : ℚ) < k + 2 := by linarith
        exact_mod_cast this
      omega

/-- The mantissa is the whole part. -/
theorem Stands.floor {em : ExtendedMantissa} {w : ℚ} (h : Stands em w) :
    (em.mantissa : ℚ) ≤ w ∧ w < em.mantissa + 1 := by
  obtain ⟨r, hr, hr1, -, hw⟩ := h
  have hb : (em.roundBit.toNat : ℚ) ≤ 1 ∧ (0 : ℚ) ≤ em.roundBit.toNat := by
    cases em.roundBit <;> simp
  constructor <;> linarith

/-- The leading digit of a number is that of its whole part. -/
theorem totalExponent_bounds {m : ℕ} (hm : 0 < m) {e : ℤ} {v : ℚ} (hfloor : (m : ℚ) ≤ v / 2 ^ e)
    (hceil : v / 2 ^ e < m + 1) :
    (2 : ℚ) ^ (totalExponent m e - 1) ≤ v ∧ v < 2 ^ totalExponent m e := by
  obtain ⟨hlow, hhigh⟩ := (Nat.log2_eq_iff hm.ne').mp rfl
  have hpos := Magnitude.two_zpow_pos e
  have hlow' : (2 : ℚ) ^ (m.log2 : ℤ) ≤ m := by
    rw [zpow_natCast]
    exact_mod_cast hlow
  have hhigh' : (m : ℚ) + 1 ≤ 2 ^ ((m.log2 : ℤ) + 1) := by
    have : m + 1 ≤ 2 ^ (m.log2 + 1) := hhigh
    rw [← Nat.cast_succ m.log2, zpow_natCast]
    exact_mod_cast this
  have htotal : totalExponent m e = (m.log2 : ℤ) + 1 + e := rfl
  rw [htotal, show (m.log2 : ℤ) + 1 + e - 1 = m.log2 + e by ring, zpow_add₀ two_ne_zero,
    zpow_add₀ two_ne_zero]
  rw [le_div_iff₀ hpos] at hfloor
  rw [div_lt_iff₀ hpos] at hceil
  constructor
  · exact (mul_le_mul_of_nonneg_right hlow' hpos.le).trans hfloor
  · exact hceil.trans_le (mul_le_mul_of_nonneg_right hhigh' hpos.le)

end Binary64

namespace Magnitude

variable {x : Magnitude} {v : ℚ}

theorem low_ge (x : Magnitude) : 4 * (x.mantissa : ℚ) - 2 ≤ x.low := by
  unfold low
  split <;> linarith

theorem Near.lt (hx : x.Fits) (h : x.Near v) : v < 2 ^ (53 + x.exponent) := by
  have hpos := two_zpow_pos x.exponent
  have hm : (x.mantissa : ℚ) + 1 ≤ 2 ^ 53 := by exact_mod_cast hx.lt
  rw [zpow_add₀ two_ne_zero]
  have hprod := mul_le_mul_of_nonneg_right hm hpos.le
  have hhigh := h.bounds.2
  norm_num at hprod ⊢
  linarith

/-- A leading one stays in place, unless the number is just below a power of two. -/
theorem Near.ge (h : x.Near v) (hnormal : 2 ^ 52 ≤ x.mantissa) :
    2 ^ (52 + x.exponent) ≤ v ∨
      x.mantissa = 2 ^ 52 ∧ 2 ^ (51 + x.exponent) ≤ v := by
  have hpos := two_zpow_pos x.exponent
  have hlow := mul_le_mul_of_nonneg_right x.low_ge hpos.le
  have hv := h.bounds.1
  rw [zpow_add₀ two_ne_zero, zpow_add₀ two_ne_zero]
  rcases hnormal.eq_or_lt with heq | hlt
  · refine .inr ⟨heq.symm, ?_⟩
    rw [← heq] at hlow
    push_cast at hlow
    norm_num at hlow ⊢
    linarith
  · left
    have hm : (2 : ℚ) ^ 52 + 1 ≤ x.mantissa := by exact_mod_cast hlt
    have hprod := mul_le_mul_of_nonneg_right hm hpos.le
    norm_num at hprod ⊢
    linarith

end Magnitude

namespace Binary64

open Magnitude

variable {x : Magnitude} {v : ℚ}

/-- The last place that rounding keeps is that of the number, except that the first rounding keeps
one place more just below a power of two. -/
theorem targetExponent_of_near (hx : x.Fits) (h : x.Near v) {m : ℕ} {e : ℤ}
    (hfloor : (m : ℚ) ≤ v / 2 ^ e) (hceil : v / 2 ^ e < m + 1)
    (he : e ≤ Format.binary64.targetExponent (totalExponent m e)) :
    Format.binary64.targetExponent (totalExponent m e) = x.exponent ∨
      Format.binary64.targetExponent (totalExponent m e) = x.exponent - 1 ∧
        x.IsNarrow ∧ v < 2 ^ (52 + x.exponent) := by
  have hge := hx.ge
  have hlt := h.lt hx
  rw [targetExponent_eq] at he ⊢
  rcases Nat.eq_zero_or_pos m with rfl | hm
  · -- nothing is left of a number below the least one
    have hzero : totalExponent 0 e = 1 + e := by
      unfold totalExponent
      simp
    rw [hzero] at he ⊢
    have hsmall : v < 2 ^ e := by
      rw [div_lt_iff₀ (two_zpow_pos e)] at hceil
      simpa using hceil
    by_cases hnormal : 2 ^ 52 ≤ x.mantissa
    · have hbig : (2 : ℚ) ^ (51 + x.exponent) ≤ v := by
        rcases h.ge hnormal with hv | ⟨-, hv⟩
        · exact (zpow_le_zpow_right₀ one_le_two (by omega)).trans hv
        · exact hv
      have := (zpow_lt_zpow_iff_right₀ one_lt_two).mp (hbig.trans_lt hsmall)
      omega
    · have := hx.subnormal (Nat.lt_of_not_le hnormal)
      omega
  · obtain ⟨hlow, hhigh⟩ := totalExponent_bounds hm hfloor hceil
    have htop : totalExponent m e - 1 < 53 + x.exponent :=
      (zpow_lt_zpow_iff_right₀ one_lt_two).mp (hlow.trans_lt hlt)
    by_cases hnormal : 2 ^ 52 ≤ x.mantissa
    · rcases lt_or_ge v (2 ^ (52 + x.exponent)) with hbelow | habove
      · obtain ⟨hm52, hv⟩ := (h.ge hnormal).resolve_left hbelow.not_ge
        have := (zpow_lt_zpow_iff_right₀ one_lt_two).mp (hv.trans_lt hhigh)
        have := (zpow_lt_zpow_iff_right₀ one_lt_two).mp (hlow.trans_lt hbelow)
        by_cases hleast : x.exponent = -1074
        · omega
        · exact .inr ⟨by omega, ⟨hm52, by omega⟩, hbelow⟩
      · have := (zpow_lt_zpow_iff_right₀ one_lt_two).mp (habove.trans_lt hhigh)
        omega
    · have := hx.subnormal (Nat.lt_of_not_le hnormal)
      omega

/-- A number that fits has the exponent that the format asks for. -/
theorem targetExponent_of_fits (hx : x.Fits) :
    Format.binary64.targetExponent (totalExponent x.mantissa x.exponent) = x.exponent := by
  have hge := hx.ge
  have hlog : x.mantissa.log2 < 53 := (Nat.log2_lt hx.pos.ne').mpr hx.lt
  rw [targetExponent_eq, totalExponent]
  by_cases hnormal : 2 ^ 52 ≤ x.mantissa
  · have := (Nat.le_log2 hx.pos.ne').mpr hnormal
    omega
  · have := hx.subnormal (Nat.lt_of_not_le hnormal)
    have := (Nat.log2_lt hx.pos.ne').mpr (Nat.lt_of_not_le hnormal)
    omega

/-- The halves next to a mantissa are rounded to it. -/
theorem roundedMantissa_of_near (h : x.Near v) {em : ExtendedMantissa}
    (hstands : Stands em (v / 2 ^ x.exponent)) : em.roundedMantissa = x.mantissa := by
  have hpos := two_zpow_pos x.exponent
  have hlow := x.low_ge
  have hscale : 2 * (v / 2 ^ x.exponent) = 4 * v / 2 ^ x.exponent / 2 := by ring
  obtain ⟨hge, hle⟩ := h.bounds
  rw [← le_div_iff₀ hpos] at hge
  rw [← div_le_iff₀ hpos] at hle
  refine hstands.roundedMantissa_eq (by linarith) (by linarith) fun hodd => ?_
  unfold Near at h
  rw [if_neg (by omega), ← lt_div_iff₀ hpos, ← div_lt_iff₀ hpos] at h
  exact ⟨by linarith [h.1], by linarith [h.2]⟩

/-- Just below a power of two, the mantissa gets a digit more. -/
theorem roundedMantissa_of_narrow (h : x.Near v) (hnarrow : x.IsNarrow)
    (hv : v < 2 ^ (52 + x.exponent)) {em : ExtendedMantissa}
    (hstands : Stands em (v / 2 ^ (x.exponent - 1))) : em.roundedMantissa = 2 ^ 53 := by
  have hpos := two_zpow_pos x.exponent
  have hlow : x.low = 2 ^ 54 - 1 := by
    rw [low, if_pos hnarrow, hnarrow.1]
    norm_num
  have hge := h.bounds.1
  rw [hlow, ← le_div_iff₀ hpos] at hge
  rw [zpow_add₀ two_ne_zero, ← div_lt_iff₀ hpos] at hv
  have hscale : 2 * (v / 2 ^ (x.exponent - 1)) = 4 * (v / 2 ^ x.exponent) := by
    rw [zpow_sub₀ two_ne_zero]
    ring
  have hquarter : 4 * v / 2 ^ x.exponent = 4 * (v / 2 ^ x.exponent) := by ring
  rw [hquarter] at hge
  norm_num at hv hge
  refine hstands.roundedMantissa_eq ?_ ?_ fun hodd => absurd hodd (by norm_num)
  · rw [hscale]
    norm_num
    linarith
  · rw [hscale]
    norm_num
    linarith

/-- A shift to a larger exponent loses nothing that the residual bits do not tell. -/
theorem exists_shiftToTargetExponent {m : ℕ} {e : ℤ} {a : Accuracy}
    (hstands : Stands (.ofMantissaAndAccuracy m a) (v / 2 ^ e))
    (he : e ≤ Format.binary64.targetExponent (totalExponent m e)) :
    ∃ em, shiftToTargetExponent Format.binary64 m e a
        = (em, Format.binary64.targetExponent (totalExponent m e)) ∧
      Stands em (v / 2 ^ Format.binary64.targetExponent (totalExponent m e)) := by
  obtain ⟨k, hk⟩ := Int.le.dest he
  have hcount : (Format.binary64.targetExponent (totalExponent m e) - e).toNat = k := by omega
  refine ⟨ExtendedMantissa.ofMantissaAndAccuracy m a >>> k, ?_, ?_⟩
  · simp only [shiftToTargetExponent, shiftToExponent, hcount, hk]
  · rw [← hk, zpow_add₀ two_ne_zero, zpow_natCast, ← div_div]
    exact hstands.shiftRight k

/-- Whatever is near to a number of the format is rounded to it, from as many places as the format
keeps or more. -/
theorem roundWithAccuracy_of_near (hx : x.Fits) (h : x.Near v) {m : ℕ} {e : ℤ} {a : Accuracy}
    (hstands : Stands (.ofMantissaAndAccuracy m a) (v / 2 ^ e))
    (he : e ≤ Format.binary64.targetExponent (totalExponent m e)) (s : Sign) :
    roundWithAccuracy Format.binary64 s m e a = .finite s x.mantissa x.exponent hx.pos := by
  obtain ⟨hfloor, hceil⟩ := hstands.floor
  rw [mantissa_ofMantissaAndAccuracy] at hfloor hceil
  obtain ⟨em, hfirst, hem⟩ := exists_shiftToTargetExponent hstands he
  rcases targetExponent_of_near hx h hfloor hceil he with htarget | ⟨htarget, hnarrow, hv⟩
  · rw [htarget] at hfirst hem
    have hsecond : shiftToTargetExponent Format.binary64 x.mantissa x.exponent .exact
        = (⟨x.mantissa, false, false⟩, x.exponent) := by
      simp only [shiftToTargetExponent, shiftToExponent, targetExponent_of_fits hx, Int.sub_self]
      exact Prod.ext rfl (Int.add_zero _)
    simp only [roundWithAccuracy, hfirst, roundedMantissa_of_near h hem, hsecond]
    exact dif_neg hx.pos.ne'
  · rw [htarget] at hfirst hem
    have hsecond : shiftToTargetExponent Format.binary64 (2 ^ 53) (x.exponent - 1) .exact
        = (⟨x.mantissa, false, false⟩, x.exponent) := by
      have htotal : Format.binary64.targetExponent (totalExponent (2 ^ 53) (x.exponent - 1))
          = x.exponent := by
        rw [targetExponent_eq, totalExponent, Nat.log2_two_pow]
        have := hnarrow.2
        omega
      have hone : (x.exponent - (x.exponent - 1)).toNat = 1 := by omega
      simp only [shiftToTargetExponent, shiftToExponent, htotal, hone, hnarrow.1]
      exact Prod.ext rfl (Int.sub_add_cancel _ _)
    simp only [roundWithAccuracy, hfirst, roundedMantissa_of_narrow h hnarrow hv hem, hsecond]
    exact dif_neg hx.pos.ne'

end Binary64
end QuadOpt
