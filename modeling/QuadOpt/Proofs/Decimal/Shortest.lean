/-
# Seventeen digits read back

The bits of a number tell its sign, its mantissa and its exponent, from which the search for the
shortest decimal starts. It compares whole numbers, which decide whether a decimal is near to the
number. The estimate of the leading digit is never too large, so seventeen digits from there on
make a grid whose neighbours are closer to each other than numbers of the format are. One of the
two on both sides of the number is near to it, and the search ends with a decimal that reads back.

Key theorems: `Binary64.ofFloat_eq`, `Magnitude.reads_iff`, `Magnitude.decimalExponent_le`,
`Decimal.isSome_onGrid?`, `Decimal.near_shortest`.
-/
import QuadOpt.Proofs.Decimal.Nearest

namespace QuadOpt

open Float.Model UnpackedFloat

namespace Binary64

/-! ### Bit patterns -/

/-- The sign as it is marked in a bit pattern. -/
def isNegative : Sign → Bool
  | .negative => true
  | .positive => false

theorem toNat_unpackMantissa (b : BitVec Format.binary64.numBits) :
    (unpackMantissa b).toNat = b.toNat % 2 ^ 52 := by
  simp [unpackMantissa, BitVec.extractLsb_toNat]

theorem toNat_unpackExponent (b : BitVec Format.binary64.numBits) :
    (unpackExponent b).toNat = b.toNat / 2 ^ 52 % 2048 := by
  simp [unpackExponent, BitVec.extractLsb_toNat, Nat.shiftRight_eq_div_pow]

theorem isNegative_unpackSign (b : BitVec Format.binary64.numBits) :
    isNegative (Sign.ofBitVec (unpackSign b)) = decide (b.toNat / 2 ^ 63 = 1) := by
  have hlt : b.toNat < 2 ^ 64 := b.isLt
  have hsign : (unpackSign b).toNat = b.toNat / 2 ^ 63 := by
    simp [unpackSign, BitVec.extractLsb_toNat, Nat.shiftRight_eq_div_pow]
    omega
  unfold Sign.ofBitVec
  split
  · rename_i hzero
    rw [hzero] at hsign
    simp only [isNegative, Bool.false_eq, decide_eq_false_iff_not]
    simp at hsign
    omega
  · rename_i hone
    have hne : (unpackSign b).toNat ≠ 0 := fun h => hone (BitVec.eq_of_toNat_eq h)
    simp only [isNegative, Bool.true_eq, decide_eq_true_eq]
    omega

/-- Decimal text is computed from the sign, the mantissa and the exponent of a number. -/
theorem ofFloat_eq (x : Float) :
    (∃ s, parts x = .zero s ∧ ofFloat x = .finite (isNegative s) ⟨0, -1074⟩) ∨
    (∃ s m e hm, parts x = .finite s m e hm ∧ ofFloat x = .finite (isNegative s) ⟨m, e⟩) ∨
    (parts x).isFinite = false := by
  obtain ⟨b, hb⟩ : ∃ b : BitVec Format.binary64.numBits, x.toBits.toBitVec = b := ⟨_, rfl⟩
  have hparts : parts x = UnpackedFloat.unpack Format.binary64 b := by rw [← hb]; rfl
  have hofFloat : ofFloat x = if (unpackExponent b).toNat = 2047 then
      if (unpackMantissa b).toNat = 0 then .infinite (isNegative (Sign.ofBitVec (unpackSign b)))
      else .nan
      else if (unpackExponent b).toNat = 0 then
        .finite (isNegative (Sign.ofBitVec (unpackSign b))) ⟨(unpackMantissa b).toNat, -1074⟩
      else .finite (isNegative (Sign.ofBitVec (unpackSign b)))
        ⟨2 ^ 52 + (unpackMantissa b).toNat, ((unpackExponent b).toNat : ℤ) - 1075⟩ := by
    rw [isNegative_unpackSign, toNat_unpackMantissa, toNat_unpackExponent, ← hb]
    rfl
  rw [hparts, hofFloat]
  unfold UnpackedFloat.unpack
  simp only [exponentBias_eq]
  by_cases hones : unpackExponent b = -1#11
  · right; right
    rw [if_pos hones]
    split <;> rfl
  have hbelow : (unpackExponent b).toNat ≠ 2047 := fun h => hones (BitVec.eq_of_toNat_eq h)
  rw [if_neg hones, if_neg hbelow]
  by_cases hzeros : unpackExponent b = 0#11
  · have hzero : (unpackExponent b).toNat = 0 := by rw [hzeros]; rfl
    rw [if_pos hzeros, if_pos hzero]
    by_cases hnone : unpackMantissa b = 0#52
    · left
      exact ⟨_, dif_pos hnone, by rw [hnone]; rfl⟩
    · right; left
      have hpos : 0 < (unpackMantissa b).toNat :=
        Nat.pos_of_ne_zero fun h => hnone (BitVec.eq_of_toNat_eq h)
      refine ⟨_, _, _, hpos, dif_neg hnone, ?_⟩
      rw [hzero]
      rfl
  · right; left
    have hne : (unpackExponent b).toNat ≠ 0 := fun h => hzeros (BitVec.eq_of_toNat_eq h)
    rw [if_neg hzeros, if_neg hne]
    have hleading : (1#1 ++ unpackMantissa b).toNat = 2 ^ 52 + (unpackMantissa b).toNat :=
      toNat_append_one _
    have hpos : 0 < (1#1 ++ unpackMantissa b).toNat := by omega
    refine ⟨_, _, _, hpos, rfl, ?_⟩
    rw [hleading]
    rfl

end Binary64

namespace Magnitude

variable {x : Magnitude}

/-! ### Ratios -/

theorem scaled_snd_pos (x : Magnitude) (p : ℤ) : 0 < (x.scaled p).2 :=
  Nat.mul_pos x.denominator_pos (Nat.pow_pos (by norm_num))

theorem scaled_div (x : Magnitude) (p : ℤ) :
    ((x.scaled p).1 : ℚ) / (x.scaled p).2 = x.value * 10 ^ p := by
  have hscaled : x.scaled p = (x.mantissa * 2 ^ x.exponent.toNat * 10 ^ p.toNat,
      2 ^ (-x.exponent).toNat * 10 ^ (-p).toNat) := rfl
  rw [hscaled, value, Binary64.zpow_eq_toNat two_ne_zero,
    Binary64.zpow_eq_toNat (by norm_num : (10 : ℚ) ≠ 0)]
  push_cast
  field_simp

theorem isBelow_iff {p : ℤ} : x.isBelow p = true ↔ x.value < 10 ^ p := by
  have hpos : (0 : ℚ) < (x.scaled (-p)).2 := Nat.cast_pos.mpr (x.scaled_snd_pos _)
  have hten : (0 : ℚ) < 10 ^ p := zpow_pos (by norm_num) p
  have hratio := x.scaled_div (-p)
  rw [zpow_neg, ← div_eq_mul_inv] at hratio
  unfold isBelow
  simp only [decide_eq_true_eq]
  rw [← Nat.cast_lt (α := ℚ), ← div_lt_one hpos, hratio, div_lt_one hten]

/-- A decimal in quarters of the last binary place, as a ratio of whole numbers. -/
theorem quarters_value (x : Magnitude) (d : Decimal) :
    (d.digits * 10 ^ d.exponent.toNat * 2 ^ (2 - x.exponent).toNat : ℚ)
      / (10 ^ (-d.exponent).toNat * 2 ^ (x.exponent - 2).toNat) = 4 * d.value / 2 ^ x.exponent := by
  have hten := Binary64.zpow_eq_toNat (by norm_num : (10 : ℚ) ≠ 0) d.exponent
  have hquarter := Binary64.zpow_eq_toNat (two_ne_zero (α := ℚ)) (2 - x.exponent)
  rw [neg_sub, zpow_sub₀ two_ne_zero] at hquarter
  rw [Decimal.value, hten]
  calc _ = (d.digits : ℚ) * (10 ^ d.exponent.toNat / 10 ^ (-d.exponent).toNat)
        * (2 ^ (2 - x.exponent).toNat / 2 ^ (x.exponent - 2).toNat) := by
        field_simp
    _ = _ := by
        rw [← hquarter]
        norm_num
        ring

theorem cast_low (hpos : 0 < x.mantissa) :
    ((if x.IsNarrow then 4 * x.mantissa - 1 else 4 * x.mantissa - 2 : ℕ) : ℚ) = x.low := by
  unfold low
  split
  · rw [Nat.cast_sub (by omega)]
    push_cast
    rfl
  · rw [Nat.cast_sub (by omega)]
    push_cast
    rfl

/-- The comparison with whole numbers is that of the intervals. -/
theorem reads_iff (hpos : 0 < x.mantissa) {d : Decimal} : x.reads d = true ↔ x.Near d.value := by
  have hunit : (0 : ℚ) < 10 ^ (-d.exponent).toNat * 2 ^ (x.exponent - 2).toNat := by positivity
  have htwo := two_zpow_pos x.exponent
  have hratio := x.quarters_value d
  have hlow := cast_low hpos
  have hreads : x.reads d = if x.mantissa % 2 = 0 then
      decide ((if x.IsNarrow then 4 * x.mantissa - 1 else 4 * x.mantissa - 2)
          * (10 ^ (-d.exponent).toNat * 2 ^ (x.exponent - 2).toNat)
          ≤ d.digits * 10 ^ d.exponent.toNat * 2 ^ (2 - x.exponent).toNat ∧
        d.digits * 10 ^ d.exponent.toNat * 2 ^ (2 - x.exponent).toNat
          ≤ (4 * x.mantissa + 2) * (10 ^ (-d.exponent).toNat * 2 ^ (x.exponent - 2).toNat))
      else decide ((if x.IsNarrow then 4 * x.mantissa - 1 else 4 * x.mantissa - 2)
          * (10 ^ (-d.exponent).toNat * 2 ^ (x.exponent - 2).toNat)
          < d.digits * 10 ^ d.exponent.toNat * 2 ^ (2 - x.exponent).toNat ∧
        d.digits * 10 ^ d.exponent.toNat * 2 ^ (2 - x.exponent).toNat
          < (4 * x.mantissa + 2) * (10 ^ (-d.exponent).toNat * 2 ^ (x.exponent - 2).toNat)) := rfl
  rw [hreads]
  unfold Near
  split
  · rw [decide_eq_true_eq, ← Nat.cast_le (α := ℚ), ← Nat.cast_le (α := ℚ)]
    push_cast [hlow]
    rw [← le_div_iff₀ hunit, ← div_le_iff₀ hunit, hratio, le_div_iff₀ htwo, div_le_iff₀ htwo]
  · rw [decide_eq_true_eq, ← Nat.cast_lt (α := ℚ), ← Nat.cast_lt (α := ℚ)]
    push_cast [hlow]
    rw [← lt_div_iff₀ hunit, ← div_lt_iff₀ hunit, hratio, lt_div_iff₀ htwo, div_lt_iff₀ htwo]

/-! ### The leading digit -/

/-- `1233 / 4096` is the decimal logarithm of two as nearly as the exponents of the format need,
by way of `59 / 196` below it and `28 / 93` above it. -/
theorem ten_zpow_le_two_zpow {a g : ℤ} (ha : -1100 ≤ a) (ha' : a ≤ 1100)
    (hg : 4096 * g ≤ 1233 * a) : (10 : ℚ) ^ (g - 1) ≤ 2 ^ a := by
  have hpower : ∀ {b : ℚ} (c : ℤ) (k : ℕ), (b ^ c) ^ k = b ^ (c * k) := fun c k => by
    rw [zpow_mul, zpow_natCast]
  rcases le_total 0 a with hpos | hneg
  · refine (pow_le_pow_iff_left₀ (by positivity) (by positivity) (show 196 ≠ 0 by norm_num)).mp ?_
    calc ((10 : ℚ) ^ (g - 1)) ^ 196 ≤ 10 ^ (59 * a) := by
          rw [hpower]
          exact zpow_le_zpow_right₀ (by norm_num) (by push_cast; omega)
      _ = (10 ^ 59) ^ a := zpow_mul 10 59 a
      _ ≤ (2 ^ 196) ^ a := zpow_le_zpow_left₀ hpos (by norm_num) (by norm_num)
      _ = (2 ^ a) ^ 196 := by rw [hpower, mul_comm, zpow_mul]; rfl
  · refine (pow_le_pow_iff_left₀ (by positivity) (by positivity) (show 93 ≠ 0 by norm_num)).mp ?_
    have hinv : ((10 : ℚ) ^ 28) ^ a ≤ (2 ^ 93) ^ a := by
      rw [show a = -(a.natAbs : ℤ) by omega, zpow_neg, zpow_neg, zpow_natCast, zpow_natCast]
      exact inv_anti₀ (by positivity) (pow_le_pow_left₀ (by norm_num) (by norm_num) _)
    calc ((10 : ℚ) ^ (g - 1)) ^ 93 ≤ 10 ^ (28 * a) := by
          rw [hpower]
          exact zpow_le_zpow_right₀ (by norm_num) (by push_cast; omega)
      _ = (10 ^ 28) ^ a := zpow_mul 10 28 a
      _ ≤ (2 ^ 93) ^ a := hinv
      _ = (2 ^ a) ^ 93 := by rw [hpower, mul_comm, zpow_mul]; rfl

/-- The estimate of the leading digit is not too large. -/
theorem decimalExponent_le (hx : x.Fits) : (10 : ℚ) ^ x.decimalExponent ≤ x.value := by
  have hge := hx.ge
  have hle := hx.le
  have hlog : x.mantissa.log2 < 53 := (Nat.log2_lt hx.pos.ne').mpr hx.lt
  set a := (x.mantissa.log2 : ℤ) + x.exponent with ha
  set g := a * 1233 / 4096 with hg
  have hvalue : (2 : ℚ) ^ a ≤ x.value := by
    have : 2 ^ x.mantissa.log2 ≤ x.mantissa := Nat.log2_self_le hx.pos.ne'
    rw [ha, zpow_add₀ two_ne_zero, zpow_natCast, value]
    exact mul_le_mul_of_nonneg_right (by exact_mod_cast this) (two_zpow_pos _).le
  have hexponent : x.decimalExponent
      = if x.isBelow g then g - 1 else if x.isBelow (g + 1) then g else g + 1 := rfl
  rw [hexponent]
  split_ifs with hbelow hbelow'
  · exact (ten_zpow_le_two_zpow (by omega) (by omega) (by omega)).trans hvalue
  · rw [isBelow_iff, not_lt] at hbelow
    exact hbelow
  · rw [isBelow_iff, not_lt] at hbelow'
    exact hbelow'

end Magnitude

namespace Decimal

variable {x : Magnitude}

/-! ### Neighbours on a grid -/

theorem roundDiv_cases (tie : Tie) (n d : ℕ) : roundDiv tie n d = n / d ∨ roundDiv tie n d = n / d + 1 := by
  unfold roundDiv
  dsimp only
  split_ifs
  · exact .inl rfl
  · exact .inr rfl
  · cases tie with
    | up => exact .inr rfl
    | even => rcases Nat.mod_two_eq_zero_or_one (n / d) with h | h <;> simp [h]

/-- A decimal on the grid is taken only if it reads back. -/
theorem reads_of_onGrid? {tie : Tie} {leading : ℤ} {count : ℕ} {d : Decimal}
    (h : onGrid? tie x leading count = some d) : x.reads d = true := by
  unfold onGrid? at h
  simp only at h
  split at h
  · rename_i hbelow habove
    cases h
    rcases roundDiv_cases tie (x.scaled (-(leading + 1 - count))).1
      (x.scaled (-(leading + 1 - count))).2 with hround | hround
    · rw [hround]
      exact hbelow
    · rw [hround]
      exact habove
  · rename_i hbelow _
    cases h
    exact hbelow
  · rename_i _ habove
    cases h
    exact habove
  · cases h

/-- One of two neighbours reads back if their distance is less than that of two numbers of the
format. -/
theorem near_or_near {b u : ℚ} (hb : b ≤ x.value) (ha : x.value < b + u)
    (hu : u < 2 ^ x.exponent) (hnarrow : x.mantissa = 2 ^ 52 → 4 * u < 3 * 2 ^ x.exponent) :
    x.Near b ∨ x.Near (b + u) := by
  have hpos := Magnitude.two_zpow_pos x.exponent
  have hstrict : ∀ {v : ℚ}, x.low * 2 ^ x.exponent < 4 * v →
      4 * v < (4 * x.mantissa + 2) * 2 ^ x.exponent → x.Near v := by
    intro v hlow hhigh
    unfold Magnitude.Near
    split
    · exact ⟨hlow.le, hhigh.le⟩
    · exact ⟨hlow, hhigh⟩
  have hvalue : x.value = x.mantissa * 2 ^ x.exponent := rfl
  by_cases hlow : x.low * 2 ^ x.exponent < 4 * b
  · exact .inl (hstrict hlow (by linarith))
  · right
    rw [not_lt] at hlow
    unfold Magnitude.low at hlow hstrict
    split at hlow
    · rename_i hn
      rw [if_pos hn] at hstrict
      have := hnarrow hn.1
      exact hstrict (by linarith) (by linarith)
    · rename_i hn
      rw [if_neg hn] at hstrict
      exact hstrict (by linarith) (by linarith)

/-- A number lies between two neighbours on a grid of decimals. -/
theorem grid_bounds (x : Magnitude) (e : ℤ) :
    (((x.scaled (-e)).1 / (x.scaled (-e)).2 : ℕ) : ℚ) * 10 ^ e ≤ x.value ∧
      x.value < ((x.scaled (-e)).1 / (x.scaled (-e)).2 : ℕ) * 10 ^ e + 10 ^ e := by
  set s := x.scaled (-e) with hs
  have hten : (0 : ℚ) < 10 ^ e := zpow_pos (by norm_num) e
  have hsecond : 0 < s.2 := x.scaled_snd_pos (-e)
  have hratio : (s.1 : ℚ) / s.2 * 10 ^ e = x.value := by
    rw [hs, x.scaled_div, mul_assoc, ← zpow_add₀ (by norm_num), neg_add_cancel, zpow_zero, mul_one]
  have hlt : (s.1 : ℚ) / s.2 < (s.1 / s.2 : ℕ) + 1 := by
    rw [div_lt_iff₀ (Nat.cast_pos.mpr hsecond)]
    have := Nat.lt_mul_div_succ s.1 hsecond
    rw [mul_comm] at this
    exact_mod_cast this
  rw [← hratio]
  refine ⟨mul_le_mul_of_nonneg_right Nat.cast_div_le hten.le, ?_⟩
  rw [← add_one_mul]
  exact mul_lt_mul_of_pos_right hlt hten

/-- Seventeen digits read back. -/
theorem isSome_onGrid? (hx : x.Fits) {leading : ℤ} (hleading : (10 : ℚ) ^ leading ≤ x.value)
    (tie : Tie) : (onGrid? tie x leading 17).isSome = true := by
  have hpos := Magnitude.two_zpow_pos x.exponent
  have hmantissa : (x.mantissa : ℚ) < 2 ^ 53 := by exact_mod_cast hx.lt
  set e : ℤ := leading + 1 - (17 : ℕ) with he
  set s := x.scaled (-e) with hs
  have hunit : 10 ^ 16 * (10 : ℚ) ^ e ≤ x.mantissa * 2 ^ x.exponent := by
    rw [← zpow_natCast, ← zpow_add₀ (by norm_num)]
    refine le_of_eq_of_le ?_ hleading
    congr 1
    omega
  obtain ⟨hfloor, hceil⟩ := grid_bounds x e
  have hgrid := near_or_near hfloor hceil
    (by
      have := mul_lt_mul_of_pos_right hmantissa hpos
      norm_num at this hunit
      linarith)
    fun hpower => by
      rw [hpower] at hunit
      norm_num at hunit
      linarith
  rw [← add_one_mul] at hgrid
  have hreads : x.reads ⟨s.1 / s.2, e⟩ = true ∨ x.reads ⟨s.1 / s.2 + 1, e⟩ = true := by
    rw [Magnitude.reads_iff hx.pos, Magnitude.reads_iff hx.pos, value, value]
    push_cast
    exact hgrid
  unfold onGrid?
  simp only
  rw [← he, ← hs]
  rcases hreads with hread | hread
  · rw [hread]
    cases x.reads ⟨s.1 / s.2 + 1, e⟩ <;> rfl
  · rw [hread]
    cases x.reads ⟨s.1 / s.2, e⟩ <;> rfl

theorem value_strip (d : Decimal) : d.strip.value = d.value := by
  fun_induction strip d with
  | case1 d h ih =>
    rw [ih]
    have hten : d.digits = 10 * (d.digits / 10) := by omega
    have hcast : (d.digits : ℚ) = 10 * (d.digits / 10 : ℕ) := by exact_mod_cast hten
    rw [value, value, hcast, zpow_add₀ (by norm_num), zpow_one]
    ring
  | case2 d h => rfl

/-- The shortest decimal reads back. -/
theorem near_shortest (hx : x.Fits) (tie : Tie) : x.Near (shortest tie x).value := by
  have hsome : ((List.range' 1 17).findSome? (onGrid? tie x x.decimalExponent)).isSome = true := by
    rw [List.findSome?_isSome_iff]
    exact ⟨17, by decide, isSome_onGrid? hx (Magnitude.decimalExponent_le hx) tie⟩
  obtain ⟨d, hd⟩ := Option.isSome_iff_exists.mp hsome
  obtain ⟨count, -, hgrid⟩ := List.exists_of_findSome?_eq_some hd
  rw [shortest, hd]
  simp only [value_strip]
  exact (Magnitude.reads_iff hx.pos).mp (reads_of_onGrid? hgrid)

end Decimal
end QuadOpt
