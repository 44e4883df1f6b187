/-
# The number nearest to a decimal

Division and multiplication round the exact quotient and the exact product. So a decimal is
converted to the number of the format that it is near to, be its digits and its power of ten
numbers of the format that are divided or multiplied, or be the quotient or product taken of
whole numbers. Numbers of the format are not near to decimals that the conversion leaves out
as too large or too small.

Key definitions: `Binary64.ofFinite`, `Decimal.value`.
Key theorems: `Binary64.unpack_pack`, `Binary64.div_of_near`, `Binary64.ofScientific_of_near`,
`Decimal.toFloat_of_near`.
-/
import QuadOpt.Decimal.Nearest
import QuadOpt.Proofs.Decimal.Rounding

namespace QuadOpt

open Float.Model UnpackedFloat

namespace Binary64

open Magnitude

variable {x : Magnitude} {v : ℚ}

/-! ### Packing -/

theorem unpackSign_packComponents {spec : Format} (s : Sign) (e : BitVec spec.exponentBits)
    (m : BitVec spec.mantissaBitsWithoutImplicit) :
    Sign.ofBitVec (unpackSign (packComponents spec s e m)) = s := by
  have hbit : unpackSign (packComponents spec s e m) = s.toBitVec := by
    ext i hi
    obtain rfl : i = 0 := by omega
    simp [unpackSign, packComponents, BitVec.getLsbD_append, BitVec.getElem_append]
  rw [hbit]
  cases s <;> rfl

/-- The bits of a number that fits: those without a leading one have the least exponent. -/
theorem pack_of_fits {m : ℕ} {e : ℤ} (hx : (⟨m, e⟩ : Magnitude).Fits) (s : Sign) :
    UnpackedFloat.pack Format.binary64 (.finite s m e hx.pos)
      = packComponents Format.binary64 s
        (if 2 ^ 52 ≤ m then BitVec.ofNat 11 (e + 1075).toNat else 0#11) (BitVec.ofNat 52 m) := by
  have hlt : m < 2 ^ 53 := hx.lt
  have hle : e ≤ 971 := hx.le
  have hbias : e + (Format.binary64.exponentBias : ℤ) + (52 : ℕ) = e + 1075 := by
    rw [exponentBias_eq]
    omega
  have hsmall : ¬2 ^ 11 ≤ (e + 1075).toNat + 1 := by omega
  have hbits : Format.binary64.mantissaBits = 53 := rfl
  unfold UnpackedFloat.pack
  simp only [hbias]
  rw [if_neg hsmall]
  by_cases hnormal : 2 ^ 52 ≤ m
  · have hlog : m.log2 = 52 := (Nat.log2_eq_iff hx.pos.ne').mpr ⟨hnormal, hlt⟩
    rw [if_pos hnormal, if_pos (by omega)]
  · have hlog : m.log2 < 52 := (Nat.log2_lt hx.pos.ne').mpr (Nat.lt_of_not_le hnormal)
    rw [if_neg hnormal, if_neg (by omega)]

/-- A number that fits is unpacked as it was packed. -/
theorem unpack_pack {m : ℕ} {e : ℤ} (hx : (⟨m, e⟩ : Magnitude).Fits) (s : Sign) :
    UnpackedFloat.unpack Format.binary64
        (UnpackedFloat.pack Format.binary64 (.finite s m e hx.pos))
      = .finite s m e hx.pos := by
  have hlt : m < 2 ^ 53 := hx.lt
  have hge : -1074 ≤ e := hx.ge
  have hle : e ≤ 971 := hx.le
  rw [pack_of_fits hx, UnpackedFloat.unpack]
  simp only [unpackMantissa_packComponents, unpackExponent_packComponents,
    unpackSign_packComponents, exponentBias_eq]
  by_cases hnormal : 2 ^ 52 ≤ m
  · have hexponent : (BitVec.ofNat 11 (e + 1075).toNat).toNat = (e + 1075).toNat :=
      Nat.mod_eq_of_lt (by omega)
    have hother : ∀ b : BitVec 11, b.toNat ≠ (e + 1075).toNat →
        BitVec.ofNat 11 (e + 1075).toNat ≠ b := by
      rintro b hb rfl
      exact hb hexponent
    have hmantissa : (1#1 ++ BitVec.ofNat 52 m).toNat = m := by
      rw [toNat_append_one, BitVec.toNat_ofNat]
      omega
    simp only [if_pos hnormal]
    rw [if_neg (hother (-1#11) (by rw [show (-1#11).toNat = 2047 from rfl]; omega)),
      if_neg (hother 0#11 (by rw [BitVec.toNat_zero]; omega))]
    simp only [hmantissa, hexponent]
    congr 1
    omega
  · have hmantissa : (BitVec.ofNat 52 m).toNat = m := Nat.mod_eq_of_lt (Nat.lt_of_not_le hnormal)
    have hzeros : BitVec.ofNat 52 m ≠ 0#52 := by
      intro h
      rw [h, BitVec.toNat_zero] at hmantissa
      exact hx.pos.ne hmantissa
    simp only [if_neg hnormal]
    rw [if_neg (by decide), if_pos trivial, dif_neg hzeros]
    have hleast : ((0#11 : BitVec 11).toNat : ℤ) - ((1023 : ℕ) + (52 : ℕ)) + 1 = e :=
      (hx.subnormal (Nat.lt_of_not_le hnormal)).symm
    simp only [hmantissa, hleast]

/-- The word for a number that fits. -/
def ofFinite (s : Sign) (x : Magnitude) (h : 0 < x.mantissa) : Float :=
  .ofModel (Float.Model.pack (.finite s x.mantissa x.exponent h))

theorem parts_ofFinite (hx : x.Fits) (s : Sign) :
    parts (ofFinite s x hx.pos) = .finite s x.mantissa x.exponent hx.pos := unpack_pack hx s

theorem exponent_le_of_unpack {b : BitVec Format.binary64.numBits} {s : Sign} {m : ℕ} {e : ℤ}
    {hm : 0 < m} (h : UnpackedFloat.unpack Format.binary64 b = .finite s m e hm) : e ≤ 971 := by
  have hlt : (unpackExponent b).toNat < 2048 := (unpackExponent b).isLt
  unfold UnpackedFloat.unpack at h
  simp only [exponentBias_eq] at h
  split_ifs at h with hinf hzero hsub hzero
  · injection h with hs hm he
    rw [hsub, show (BitVec.ofNat Format.binary64.exponentBits 0).toNat = 0 from rfl] at he
    omega
  · injection h with hs hm he
    have hne : (unpackExponent b).toNat ≠ 2047 := fun heq => hinf (BitVec.eq_of_toNat_eq heq)
    omega

/-- Every finite number fits. -/
theorem fits_of_parts {y : Float} {s : Sign} {m : ℕ} {e : ℤ} {hm : 0 < m}
    (h : parts y = .finite s m e hm) : (⟨m, e⟩ : Magnitude).Fits := by
  have htarget := targetExponent_unpack h
  rw [targetExponent_eq, totalExponent] at htarget
  have hlog : m.log2 < 53 := by omega
  refine ⟨hm, (Nat.log2_lt hm.ne').mp hlog, by dsimp only; omega, exponent_le_of_unpack h,
    fun hlt => ?_⟩
  have : m.log2 < 52 := (Nat.log2_lt hm.ne').mpr hlt
  dsimp only
  omega

/-! ### Products and quotients -/

theorem mul_of_near (hx : x.Fits) {m₁ m₂ : ℕ} {e₁ e₂ : ℤ} (h₁ : 0 < m₁) (h₂ : 0 < m₂)
    (hnear : x.Near (m₁ * 2 ^ e₁ * (m₂ * 2 ^ e₂))) (hlong : 2 ^ 52 ≤ m₁ * m₂) (s₁ s₂ : Sign) :
    UnpackedFloat.mul Format.binary64 (.finite s₁ m₁ e₁ h₁) (.finite s₂ m₂ e₂ h₂)
      = .finite (s₁ * s₂) x.mantissa x.exponent hx.pos := by
  have hvalue : (m₁ * 2 ^ e₁ * (m₂ * 2 ^ e₂) : ℚ) / 2 ^ (e₁ + e₂) = (m₁ * m₂ : ℕ) := by
    rw [zpow_add₀ two_ne_zero]
    push_cast
    field_simp
  refine roundWithAccuracy_of_near hx hnear ?_ ?_ (s₁ * s₂)
  · rw [hvalue]
    exact stands_exact _
  · have := (Nat.le_log2 (Nat.mul_pos h₁ h₂).ne').mpr hlong
    rw [targetExponent_eq, totalExponent]
    omega

/-- The leading digit of a quotient is at most one below what those of its operands tell. -/
theorem quotient_gt {m₁ m₂ : ℕ} (h₁ : 0 < m₁) (h₂ : 0 < m₂) (e₁ e₂ : ℤ) :
    (2 : ℚ) ^ (totalExponent m₁ e₁ - totalExponent m₂ e₂ - 1) < m₁ * 2 ^ e₁ / (m₂ * 2 ^ e₂) := by
  have hfloor : ∀ {m : ℕ}, 0 < m → ∀ e : ℤ,
      (2 : ℚ) ^ (totalExponent m e - 1) ≤ m * 2 ^ e ∧ (m * 2 ^ e : ℚ) < 2 ^ totalExponent m e := by
    intro m hm e
    have hcancel : (m * 2 ^ e : ℚ) / 2 ^ e = m := mul_div_cancel_right₀ _ (two_zpow_pos e).ne'
    exact totalExponent_bounds hm (by rw [hcancel]) (by rw [hcancel]; linarith)
  have hpos : (0 : ℚ) < m₂ * 2 ^ e₂ := mul_pos (Nat.cast_pos.mpr h₂) (two_zpow_pos e₂)
  rw [lt_div_iff₀ hpos]
  calc (2 : ℚ) ^ (totalExponent m₁ e₁ - totalExponent m₂ e₂ - 1) * (m₂ * 2 ^ e₂)
      < 2 ^ (totalExponent m₁ e₁ - totalExponent m₂ e₂ - 1) * 2 ^ totalExponent m₂ e₂ :=
        mul_lt_mul_of_pos_left (hfloor h₂ e₂).2 (two_zpow_pos _)
    _ = 2 ^ (totalExponent m₁ e₁ - 1) := by
        rw [← zpow_add₀ two_ne_zero]
        congr 1
        ring
    _ ≤ m₁ * 2 ^ e₁ := (hfloor h₁ e₁).1

theorem div_of_near (hx : x.Fits) {m₁ m₂ : ℕ} {e₁ e₂ : ℤ} (h₁ : 0 < m₁) (h₂ : 0 < m₂)
    (hnear : x.Near (m₁ * 2 ^ e₁ / (m₂ * 2 ^ e₂))) (s₁ s₂ : Sign) :
    UnpackedFloat.div Format.binary64 (.finite s₁ m₁ e₁ h₁) (.finite s₂ m₂ e₂ h₂)
      = .finite (s₁ / s₂) x.mantissa x.exponent hx.pos := by
  set D := totalExponent m₁ e₁ - totalExponent m₂ e₂ with hD
  set t := min (e₁ - e₂) (Format.binary64.targetExponent D) with ht
  obtain ⟨k, hk⟩ := Int.le.dest (show t ≤ e₁ - e₂ from min_le_left _ _)
  have hcount : (e₁ - e₂ - t).toNat = k := by omega
  have hstands := stands_fraction (m₁ * 2 ^ k) h₂
  have hvalue : ((m₁ * 2 ^ k : ℕ) : ℚ) / m₂ = m₁ * 2 ^ e₁ / (m₂ * 2 ^ e₂) / 2 ^ t := by
    have hexponent : e₁ = t + k + e₂ := by omega
    rw [hexponent, zpow_add₀ two_ne_zero, zpow_add₀ two_ne_zero, zpow_natCast]
    push_cast
    have hm₂ : (m₂ : ℚ) ≠ 0 := Nat.cast_ne_zero.mpr h₂.ne'
    have ht0 : (2 : ℚ) ^ t ≠ 0 := (two_zpow_pos t).ne'
    have he0 : (2 : ℚ) ^ e₂ ≠ 0 := (two_zpow_pos e₂).ne'
    field_simp
  rw [hvalue] at hstands
  have hdiv : UnpackedFloat.div Format.binary64 (.finite s₁ m₁ e₁ h₁) (.finite s₂ m₂ e₂ h₂)
      = roundWithAccuracy Format.binary64 (s₁ / s₂) (m₁ * 2 ^ k / m₂) t
          (accuracyOfFraction (m₁ * 2 ^ k % m₂) m₂) := by
    simp only [UnpackedFloat.div, divCore, ← hD, ← ht, hcount, Nat.shiftLeft_eq]
  rw [hdiv]
  refine roundWithAccuracy_of_near hx hnear hstands ?_ _
  -- the quotient has as many digits as its operands tell, or it is below the least number
  have hgt := quotient_gt h₁ h₂ e₁ e₂
  rw [← hD] at hgt
  have htarget : t ≤ max (D - 53) (-1074) := min_le_right _ _
  obtain ⟨hfloor, hceil⟩ := hstands.floor
  rw [mantissa_ofMantissaAndAccuracy] at hfloor hceil
  rw [targetExponent_eq]
  rcases Nat.eq_zero_or_pos (m₁ * 2 ^ k / m₂) with hzero | hpos
  · rw [hzero, div_lt_iff₀ (two_zpow_pos t)] at hceil
    norm_num at hceil
    have := (zpow_lt_zpow_iff_right₀ one_lt_two).mp (hgt.trans hceil)
    omega
  · have hhigh := (totalExponent_bounds hpos hfloor hceil).2
    have := (zpow_lt_zpow_iff_right₀ one_lt_two).mp (hgt.trans hhigh)
    omega

/-! ### Decimals -/

/-- The powers of two on both sides of a ratio. -/
theorem zpow_eq_toNat {a : ℚ} (ha : a ≠ 0) (e : ℤ) : a ^ e = a ^ e.toNat / a ^ (-e).toNat := by
  rw [← zpow_natCast, ← zpow_natCast, ← zpow_sub₀ ha]
  congr 1
  omega

/-- The number is a power of ten, with a leading one. -/
def isPowerOfTen (k : ℕ) : UnpackedFloat → Bool
  | .finite .positive p q _ => decide (2 ^ 52 ≤ p ∧ p * 2 ^ q.toNat = 10 ^ k * 2 ^ (-q).toNat)
  | _ => false

/-- The powers of ten that are held in a table are exact. -/
theorem isPowerOfTen_table : ∀ k : Fin 23,
    isPowerOfTen k (parts (Float.exactlyRepresentablePowersOfTen[k])) = true := by
  decide +kernel

theorem parts_powerOfTen {k : ℕ} (hk : k < Float.exactlyRepresentablePowersOfTen.size) :
    ∃ (p : ℕ) (q : ℤ) (hp : 0 < p),
      parts Float.exactlyRepresentablePowersOfTen[k] = .finite .positive p q hp ∧
        2 ^ 52 ≤ p ∧ (p : ℚ) * 2 ^ q = 10 ^ k := by
  have htable : isPowerOfTen k (parts Float.exactlyRepresentablePowersOfTen[k]) = true :=
    isPowerOfTen_table ⟨k, hk⟩
  unfold isPowerOfTen at htable
  split at htable
  · rename_i p q hp hparts
    obtain ⟨hlong, hvalue⟩ := of_decide_eq_true htable
    refine ⟨p, q, hp, hparts, hlong, ?_⟩
    have hvalue : (p : ℚ) * 2 ^ q.toNat = 10 ^ k * 2 ^ (-q).toNat := by exact_mod_cast hvalue
    rw [zpow_eq_toNat two_ne_zero, ← mul_div_assoc, hvalue, mul_div_cancel_right₀ _ (by positivity)]
  · cases htable

/-- A whole number that fits, if it is written with more binary places, is not rounded. -/
theorem ofNat_of_fits {n k : ℕ} (hfits : (⟨n * 2 ^ k, -k⟩ : Magnitude).Fits)
    (hk : n.log2 + k = 52) :
    UnpackedFloat.ofNat Format.binary64 n = .finite .positive (n * 2 ^ k) (-k) hfits.pos := by
  have hn : 0 < n := Nat.pos_of_mul_pos_right hfits.pos
  have htotal : Format.binary64.targetExponent (totalExponent n 0) = -k := by
    rw [targetExponent_eq, totalExponent]
    omega
  have hcount : (0 - (-(k : ℤ))).toNat = k := by omega
  have hcompare : compare (n : ℤ) 0 = .gt := Int.compare_eq_gt.mpr (by omega)
  have hexponent : (0 : ℤ) - k = -k := by omega
  have hkept := roundWithAccuracy_mul_pow (s := .positive) hfits.pos (targetExponent_of_fits hfits) 0
  simp only [pow_zero, Nat.mul_one, Nat.cast_zero, Int.sub_zero] at hkept
  simp only [UnpackedFloat.ofNat, UnpackedFloat.ofInt, UnpackedFloat.normalize, hcompare,
    Int.toNat_natCast, UnpackedFloat.round, htotal, decreaseExponent, hcount, Nat.shiftLeft_eq,
    hexponent, hkept]

/-- A whole number below `2 ^ 53` is not rounded. -/
theorem exists_parts_toFloat {n : ℕ} (hn : 0 < n) (hlt : n < 2 ^ 53) :
    ∃ (p : ℕ) (q : ℤ) (hp : 0 < p), parts n.toUInt64.toFloat = .finite .positive p q hp ∧
      2 ^ 52 ≤ p ∧ (p : ℚ) * 2 ^ q = n := by
  have hlog : n.log2 < 53 := (Nat.log2_lt hn.ne').mpr hlt
  obtain ⟨hlow, hhigh⟩ := (Nat.log2_eq_iff hn.ne').mp rfl
  obtain ⟨k, hk⟩ := Nat.le.dest (show n.log2 ≤ 52 by omega)
  have hlong : 2 ^ 52 ≤ n * 2 ^ k := by
    rw [← hk, pow_add]
    exact Nat.mul_le_mul_right _ hlow
  have hshort : n * 2 ^ k < 2 ^ 53 := by
    rw [show 53 = n.log2 + 1 + k by omega, pow_add]
    exact Nat.mul_lt_mul_of_pos_right hhigh (Nat.two_pow_pos k)
  have hfits : (⟨n * 2 ^ k, -k⟩ : Magnitude).Fits :=
    ⟨by dsimp only; omega, hshort, by dsimp only; omega, by dsimp only; omega,
      fun h => absurd h (Nat.not_lt.mpr hlong)⟩
  have hvalue : ((n * 2 ^ k : ℕ) : ℚ) * 2 ^ (-k : ℤ) = n := by
    rw [zpow_neg, zpow_natCast]
    push_cast
    field_simp
  have hword : n.toUInt64.toNat = n := by
    rw [Nat.toUInt64_eq, UInt64.toNat_ofNat']
    omega
  have hfloat : n.toUInt64.toFloat = ofFinite .positive ⟨n * 2 ^ k, -k⟩ hfits.pos := by
    show Float.ofModel (Float.Model.pack (UnpackedFloat.ofNat Format.binary64 n.toUInt64.toNat)) = _
    rw [hword, ofNat_of_fits hfits hk]
    rfl
  exact ⟨_, _, hfits.pos, hfloat ▸ parts_ofFinite hfits .positive, hlong, hvalue⟩

/-- The numbers near to one that fits are between powers of two. -/
theorem bounds_of_near (hx : x.Fits) (h : x.Near v) : (2 : ℚ) ^ (-1075 : ℤ) ≤ v ∧ v < 2 ^ (1024 : ℤ) := by
  have hge := hx.ge
  have hle := hx.le
  constructor
  · have hm : (1 : ℚ) ≤ x.mantissa := by exact_mod_cast hx.pos
    have hlow := mul_le_mul_of_nonneg_right x.low_ge (two_zpow_pos x.exponent).le
    have hv := h.bounds.1
    have hunit : (2 : ℚ) ^ (-1074 : ℤ) ≤ 2 ^ x.exponent := zpow_le_zpow_right₀ one_le_two hge
    have hhalf : (2 : ℚ) ^ (-1074 : ℤ) = 2 * 2 ^ (-1075 : ℤ) := by
      rw [show (-1074 : ℤ) = 1 + -1075 by norm_num, zpow_add₀ two_ne_zero, zpow_one]
    have hprod : 2 * (2 : ℚ) ^ x.exponent ≤ (4 * x.mantissa - 2) * 2 ^ x.exponent :=
      mul_le_mul_of_nonneg_right (by linarith) (two_zpow_pos x.exponent).le
    linarith
  · exact (h.lt hx).trans_le (zpow_le_zpow_right₀ one_le_two (by omega))

theorem ofScientific_fast (hx : x.Fits) {m k : ℕ} (hm : 0 < m) (hlt : m < 2 ^ 53)
    (hk : k < Float.exactlyRepresentablePowersOfTen.size) :
    (x.Near (m / 10 ^ k) →
      m.toUInt64.toFloat / Float.exactlyRepresentablePowersOfTen[k]
        = ofFinite .positive x hx.pos) ∧
    (x.Near (m * 10 ^ k) →
      m.toUInt64.toFloat * Float.exactlyRepresentablePowersOfTen[k]
        = ofFinite .positive x hx.pos) := by
  obtain ⟨p, q, hp, hparts, hlong, hvalue⟩ := exists_parts_toFloat hm hlt
  obtain ⟨p', q', hp', hparts', hlong', hvalue'⟩ := parts_powerOfTen hk
  rw [← hvalue, ← hvalue']
  constructor
  · intro hnear
    have hdiv := div_of_near hx hp hp' hnear .positive .positive
    rw [← hparts, ← hparts'] at hdiv
    exact congrArg (fun u => Float.ofModel (Float.Model.pack u)) hdiv
  · intro hnear
    have hmul := mul_of_near hx hp hp' hnear (hlong.trans (Nat.le_mul_of_pos_right p hp'))
      .positive .positive
    rw [← hparts, ← hparts'] at hmul
    exact congrArg (fun u => Float.ofModel (Float.Model.pack u)) hmul

/-- A power of ten that a number of the format is near to is not left out. -/
theorem exponent_of_near (hx : x.Fits) {m : ℕ} {e : ℤ} (hm : 0 < m) (hnear : x.Near (m * 10 ^ e)) :
    -(1075 + (m.log2 : ℤ) + 1) ≤ e ∧ e < 1024 := by
  obtain ⟨hlow, hhigh⟩ := bounds_of_near hx hnear
  have hlog : (m : ℚ) < 2 ^ ((m.log2 : ℤ) + 1) := by
    have : m < 2 ^ (m.log2 + 1) := Nat.lt_log2_self
    rw [← Nat.cast_succ m.log2, zpow_natCast]
    exact_mod_cast this
  constructor
  · by_contra hsmall
    have hten : (10 : ℚ) ^ e ≤ 2 ^ e := by
      rw [show e = -(e.natAbs : ℤ) by omega, zpow_neg, zpow_neg, zpow_natCast, zpow_natCast]
      exact inv_anti₀ (by positivity) (pow_le_pow_left₀ (by norm_num) (by norm_num) _)
    have hprod : (m : ℚ) * 10 ^ e < 2 ^ ((m.log2 : ℤ) + 1) * 2 ^ e :=
      mul_lt_mul hlog hten (zpow_pos (by norm_num) e) (two_zpow_pos _).le
    rw [← zpow_add₀ two_ne_zero] at hprod
    have := (zpow_lt_zpow_iff_right₀ one_lt_two).mp (hlow.trans_lt hprod)
    omega
  · by_contra hlarge
    have hten : (2 : ℚ) ^ (1024 : ℤ) ≤ 10 ^ e :=
      (zpow_le_zpow_right₀ one_le_two (by omega)).trans
        (zpow_le_zpow_left₀ (by omega) (by norm_num) (by norm_num))
    have hone : (1 : ℚ) ≤ m := by exact_mod_cast hm
    have := le_mul_of_one_le_left (zpow_pos (by norm_num : (0 : ℚ) < 10) e).le hone
    linarith

/-- The quotient or product of whole numbers that stands for a decimal. -/
theorem unpackedOfScientific_of_near (hx : x.Fits) {m : ℕ} {e : ℤ} (hm : 0 < m)
    (hnear : x.Near (m * 10 ^ e)) :
    UnpackedFloat.ofScientific Format.binary64 m e
      = .finite .positive x.mantissa x.exponent hx.pos := by
  obtain ⟨hlow, hhigh⟩ := exponent_of_near hx hm hnear
  unfold UnpackedFloat.ofScientific
  rw [dif_neg hm.ne', if_neg (by norm_num; omega), if_neg (by norm_num; omega)]
  split
  · rename_i he
    obtain ⟨k, rfl⟩ := Int.eq_ofNat_of_zero_le he
    have hten : 0 < 10 ^ k := Nat.pow_pos (by norm_num)
    have hshift : 0 < m <<< 53 := Nat.shiftLeft_pos_iff.mpr hm
    have hvalue : ((m <<< 53 : ℕ) : ℚ) * 2 ^ (-53 : ℤ) * ((10 ^ k : ℕ) * 2 ^ (0 : ℤ))
        = m * 10 ^ (k : ℤ) := by
      rw [Nat.shiftLeft_eq, zpow_natCast, zpow_neg, zpow_zero]
      push_cast
      field_simp
    have hlong : 2 ^ 52 ≤ (m <<< 53) * 10 ^ k := by
      rw [Nat.shiftLeft_eq]
      have := Nat.le_mul_of_pos_right (m * 2 ^ 53) hten
      omega
    rw [← hvalue] at hnear
    exact mul_of_near hx hshift hten hnear hlong .positive .positive
  · rename_i he
    obtain ⟨k, rfl⟩ : ∃ k : ℕ, e = -k := ⟨e.natAbs, by omega⟩
    have hten : 0 < 10 ^ k := Nat.pow_pos (by norm_num)
    have hvalue : (m : ℚ) * 2 ^ (0 : ℤ) / ((10 ^ k : ℕ) * 2 ^ (0 : ℤ)) = m * 10 ^ (-k : ℤ) := by
      rw [zpow_neg, zpow_natCast, zpow_zero]
      push_cast
      field_simp
    have hcount : (-(-(k : ℤ))).toNat = k := by omega
    rw [← hvalue] at hnear
    have hdiv := div_of_near hx hm hten hnear .positive .positive
    simp only [hcount]
    exact hdiv

/-- Decimals are rounded to the number that they are near to. -/
theorem ofScientific_of_near (hx : x.Fits) {m : ℕ} {e : ℤ} (hm : 0 < m)
    (hnear : x.Near (m * 10 ^ e)) :
    Float.ofScientific m (decide (e < 0)) e.natAbs = ofFinite .positive x hx.pos := by
  unfold Float.ofScientific
  split
  · rename_i hfast
    have hk : e.natAbs < Float.exactlyRepresentablePowersOfTen.size := Nat.lt_succ_of_le hfast.2
    obtain ⟨hdiv, hmul⟩ := ofScientific_fast hx hm hfast.1 hk
    by_cases he : e < 0
    · simp only [he, decide_true, if_true]
      refine hdiv ?_
      have hexponent : e = -(e.natAbs : ℤ) := by omega
      rw [hexponent, zpow_neg, zpow_natCast] at hnear
      exact hnear
    · simp only [he, decide_false, Bool.false_eq_true, if_false]
      refine hmul ?_
      have hexponent : e = (e.natAbs : ℤ) := by omega
      rw [hexponent, zpow_natCast] at hnear
      exact hnear
  · have hexponent : (if decide (e < 0) = true then Int.negOfNat e.natAbs else Int.ofNat e.natAbs)
        = e := by
      by_cases he : e < 0
      · rw [if_pos (by simpa using he), Int.negOfNat_eq, Int.ofNat_eq_natCast]
        omega
      · rw [if_neg (by simpa using he), Int.ofNat_eq_natCast]
        omega
    simp only [hexponent]
    exact congrArg (fun u => Float.ofModel (Float.Model.pack u))
      (unpackedOfScientific_of_near hx hm hnear)

end Binary64

namespace Decimal

open Binary64

variable {x : Magnitude}

/-- The leading digit of a decimal tells its size. -/
theorem value_bounds {d : Decimal} (hd : 0 < d.digits) :
    (10 : ℚ) ^ (d.exponent + (Nat.toDigits 10 d.digits).length - 1) ≤ d.value ∧
      d.value < 10 ^ (d.exponent + (Nat.toDigits 10 d.digits).length) := by
  set k := (Nat.toDigits 10 d.digits).length with hk
  have hkpos : 0 < k := Nat.length_toDigits_pos
  have hten : (0 : ℚ) < 10 ^ d.exponent := zpow_pos (by norm_num) _
  have hhigh : d.digits < 10 ^ k := (Nat.length_toDigits_le_iff (by norm_num) hkpos).mp le_rfl
  have hlow : 10 ^ (k - 1) ≤ d.digits := by
    rcases Nat.eq_zero_or_pos (k - 1) with hzero | hpos
    · rw [hzero]
      exact hd
    · by_contra hlt
      have := (Nat.length_toDigits_le_iff (by norm_num) hpos).mpr (Nat.lt_of_not_le hlt)
      omega
  have hhigh : (d.digits : ℚ) < 10 ^ k := by exact_mod_cast hhigh
  have hlow : (10 : ℚ) ^ (k - 1) ≤ d.digits := by exact_mod_cast hlow
  constructor
  · rw [show d.exponent + (k : ℤ) - 1 = d.exponent + (k - 1 : ℕ) by omega,
      zpow_add₀ (by norm_num), zpow_natCast, mul_comm]
    exact mul_le_mul_of_nonneg_right hlow hten.le
  · rw [zpow_add₀ (by norm_num), zpow_natCast, value, mul_comm]
    exact mul_lt_mul_of_pos_left hhigh hten

theorem two_zpow_le_ten_zpow (k : ℕ) : (2 : ℚ) ^ (3 * k : ℤ) ≤ 10 ^ (k : ℤ) := by
  rw [zpow_mul, zpow_natCast, zpow_natCast]
  exact pow_le_pow_left₀ (by norm_num) (by norm_num) k

/-- A decimal is converted to the number that it is near to. -/
theorem toFloat_of_near (hx : x.Fits) {d : Decimal} (hnear : x.Near d.value) :
    d.toFloat = ofFinite .positive x hx.pos := by
  obtain ⟨hlow, hhigh⟩ := bounds_of_near hx hnear
  have hdigits : 0 < d.digits := by
    rw [Nat.pos_iff_ne_zero]
    intro hzero
    rw [value, hzero, Nat.cast_zero, zero_mul] at hlow
    exact absurd hlow (not_le.mpr (by positivity))
  obtain ⟨hfloor, hceil⟩ := value_bounds hdigits
  have htop : ¬d.exponent + (Nat.toDigits 10 d.digits).length < -400 := by
    intro hsmall
    have hten : (10 : ℚ) ^ (d.exponent + (Nat.toDigits 10 d.digits).length) ≤ 10 ^ (-401 : ℤ) :=
      zpow_le_zpow_right₀ (by norm_num) (by omega)
    have htwo : (10 : ℚ) ^ (-401 : ℤ) ≤ 2 ^ (-1075 : ℤ) := by
      rw [zpow_neg, zpow_neg]
      exact inv_anti₀ (by positivity)
        ((zpow_le_zpow_right₀ one_le_two (by norm_num)).trans (two_zpow_le_ten_zpow 401))
    exact ((hceil.trans_le hten).trans_le htwo).not_ge hlow
  have hbottom : ¬400 < d.exponent + (Nat.toDigits 10 d.digits).length := by
    intro hlarge
    have hten : (10 : ℚ) ^ (400 : ℤ) ≤ 10 ^ (d.exponent + (Nat.toDigits 10 d.digits).length - 1) :=
      zpow_le_zpow_right₀ (by norm_num) (by omega)
    have htwo : (2 : ℚ) ^ (1024 : ℤ) ≤ 10 ^ (400 : ℤ) :=
      (zpow_le_zpow_right₀ one_le_two (by norm_num)).trans (two_zpow_le_ten_zpow 400)
    exact (htwo.trans (hten.trans hfloor)).not_gt hhigh
  unfold toFloat
  rw [if_neg (by omega), if_neg hbottom]
  exact ofScientific_of_near hx hdigits hnear

end Decimal
end QuadOpt
