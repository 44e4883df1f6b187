/-
# The text of a number

A `Spelling` is the text of a number taken apart: a sign, a whole part, places after the point and
an exponent. Scanning takes in the whole text and no more, wherever it ends, and the numeral that
is read off it has the value that was spelled. Every finite number is spelled by its shortest
decimal, to which it is the nearest number, so it is what its text is read as, be it zero or
negative.

Key definitions: `Spelling`, `Spelling.chars`, `Spelling.decimal`, `EndsNumber`.
Key theorems: `Spelling.scanNumber_chars`, `Spelling.ofLiteral_chars`,
`Decimal.exists_spelling`, `exists_spelling_write`.
-/
import QuadOpt.Json.Codec
import QuadOpt.Json.Scan
import QuadOpt.Proofs.Decimal.Shortest

namespace QuadOpt
namespace Json

/-! ### Digits -/

/-- The text does not go on with a number that is before it. -/
def EndsNumber (rest : List Char) : Prop :=
  ∀ c ∈ rest.head?, c.isDigit = false ∧ c ≠ '.' ∧ Numeral.isExponentMark c = false

theorem isDigit_toDigits {n : ℕ} : ∀ c ∈ Nat.toDigits 10 n, c.isDigit = true := fun _ hc =>
  Nat.isDigit_of_mem_toDigits (by norm_num) (by norm_num) hc

theorem exists_toDigits (n : ℕ) :
    ∃ d ds, Nat.toDigits 10 n = d :: ds ∧ d.isDigit = true := by
  obtain ⟨d, ds, hds⟩ := List.exists_cons_of_ne_nil (Nat.toDigits_ne_nil (n := n) (b := 10))
  exact ⟨d, ds, hds, isDigit_toDigits d (by rw [hds]; exact List.mem_cons_self)⟩

theorem isExponentMark_of_isDigit {c : Char} (h : c.isDigit = true) :
    Numeral.isExponentMark c = false := by
  rw [Numeral.isExponentMark, Bool.or_eq_false_iff, decide_eq_false_iff_not, decide_eq_false_iff_not]
  constructor
  all_goals
    rintro rfl
    exact absurd h (by decide)

/-- A digit is that of its value. -/
theorem exists_digitChar {c : Char} (h : c.isDigit = true) : ∃ k < 10, c = Nat.digitChar k := by
  rw [Char.isDigit_iff_toNat] at h
  have hlow : 48 ≤ c.toNat := h.1
  have hhigh : c.toNat ≤ 57 := h.2
  refine ⟨c.toNat - 48, by omega, Char.toNat_inj.mp ?_⟩
  rw [Nat.toNat_digitChar_of_lt_ten (by omega)]
  omega

theorem digitsValue_eq (ds : List Char) : Numeral.digitsValue ds = Nat.ofDigitChars 10 ds 0 := by
  rw [Nat.ofDigitChars_eq_foldl, Numeral.digitsValue]
  congr 1
  funext n d
  rw [mul_comm]

@[simp]
theorem digitsValue_toDigits (n : ℕ) : Numeral.digitsValue (Nat.toDigits 10 n) = n := by
  rw [digitsValue_eq, Nat.ofDigitChars_ten_toDigits]

theorem digitsValue_append (ds es : List Char) :
    Numeral.digitsValue (ds ++ es)
      = Numeral.digitsValue ds * 10 ^ es.length + Numeral.digitsValue es := by
  rw [digitsValue_eq, digitsValue_eq, digitsValue_eq, Nat.ofDigitChars_append,
    Nat.ofDigitChars_eq_ofDigitChars_zero, mul_comm]

/-- Zeros in front fill a number up to a width. -/
theorem digitsValue_replicate_append (k : ℕ) (ds : List Char) :
    Numeral.digitsValue (List.replicate k '0' ++ ds) = Numeral.digitsValue ds := by
  rw [digitsValue_eq, digitsValue_eq, Nat.ofDigitChars_append, Nat.ofDigitChars_replicate_zero,
    mul_zero]

/-- No zero leads the digits of a positive number. -/
theorem toDigits_head_ne {n : ℕ} (hn : 0 < n) : (Nat.toDigits 10 n).head? ≠ some '0' := by
  induction n using Nat.strong_induction_on with
  | _ n ih =>
    rcases Nat.lt_or_ge n 10 with hlt | hge
    · rw [Nat.toDigits_of_lt_base hlt, List.head?_cons]
      intro h
      injection h with h
      rw [Nat.digitChar_eq_zero] at h
      omega
    · rw [Nat.toDigits_of_base_le (by norm_num) hge, List.head?_append_of_ne_nil _ Nat.toDigits_ne_nil]
      exact ih (n / 10) (by omega) (by omega)

/-! ### Scanning digits -/

section

variable {ds rest : List Char}

theorem spanDigits_append (hds : ∀ c ∈ ds, c.isDigit = true)
    (hrest : ∀ c ∈ rest.head?, c.isDigit = false) : spanDigits (ds ++ rest) = (ds, rest) := by
  have hnone : rest.takeWhile Char.isDigit = [] ∧ rest.dropWhile Char.isDigit = rest := by
    cases rest with
    | nil => exact ⟨rfl, rfl⟩
    | cons c rest =>
      have := hrest c rfl
      simp [this]
  rw [spanDigits, List.takeWhile_append_of_pos hds, List.dropWhile_append_of_pos hds, hnone.1,
    hnone.2, List.append_nil]

theorem scanDigits_append (hne : ds ≠ []) (hds : ∀ c ∈ ds, c.isDigit = true)
    (hrest : ∀ c ∈ rest.head?, c.isDigit = false) : scanDigits (ds ++ rest) = .found ds rest := by
  rw [scanDigits, spanDigits_append hds hrest]
  cases ds with
  | nil => exact absurd rfl hne
  | cons c ds => rfl

theorem scanWhole_toDigits (n : ℕ) (hrest : ∀ c ∈ rest.head?, c.isDigit = false) :
    scanWhole (Nat.toDigits 10 n ++ rest) = .found (Nat.toDigits 10 n) rest := by
  rcases Nat.eq_zero_or_pos n with rfl | hn
  · have hnone : rest.head?.any Char.isDigit = false := by
      cases h : rest.head? with
      | none => rfl
      | some c => exact hrest c h
    rw [Nat.toDigits_zero]
    simp [scanWhole, hnone]
  · obtain ⟨c, ds, hds, -⟩ := exists_toDigits n
    have hscan := scanDigits_append (Nat.toDigits_ne_nil (n := n)) isDigit_toDigits hrest
    have hhead := toDigits_head_ne hn
    rw [hds] at hscan hhead ⊢
    rw [List.cons_append] at hscan ⊢
    rw [scanWhole]
    · exact hscan
    · nofun
    · intro tail h
      injection h with hc
      exact hhead (by rw [hc]; rfl)

end

/-! ### Spelled numbers -/

/-- The text of a number, taken apart. No zero leads the digits of the whole part, which are those
of a natural number. -/
structure Spelling where
  negative : Bool
  whole : ℕ
  places : List Char
  exponent : Option ℤ
  isDigit_places : ∀ c ∈ places, c.isDigit = true

namespace Spelling

/-- The sign of a negative number. -/
def signChars (negative : Bool) : List Char := if negative then ['-'] else []

/-- The point and the places after it, if there are any. -/
def pointChars : List Char → List Char
  | [] => []
  | ds => '.' :: ds

/-- The mark of an exponent with its sign and its digits, if there is an exponent. -/
def exponentChars : Option ℤ → List Char
  | none => []
  | some e => 'e' :: (if e < 0 then '-' else '+') :: Nat.toDigits 10 e.natAbs

variable (x : Spelling)

/-- The characters of a number. -/
def chars : List Char :=
  signChars x.negative ++
    (Nat.toDigits 10 x.whole ++ (pointChars x.places ++ exponentChars x.exponent))

/-- The decimal that is spelled, without its sign. -/
def decimal : Decimal where
  digits := Numeral.digitsValue (Nat.toDigits 10 x.whole ++ x.places)
  exponent := x.exponent.getD 0 - x.places.length

/-- The same text with another sign. -/
def withSign (negative : Bool) : Spelling := { x with negative := negative }

theorem chars_withSign (negative : Bool) (h : x.negative = false) :
    (x.withSign negative).chars = signChars negative ++ x.chars := by
  simp only [chars, h]
  rfl

/-! ### Scanning a spelled number -/

variable {x} {ds rest : List Char}

theorem scanFraction_pointChars (hds : ∀ c ∈ ds, c.isDigit = true)
    (hrest : ∀ c ∈ rest.head?, c.isDigit = false ∧ c ≠ '.') :
    scanFraction (pointChars ds ++ rest) = .found (pointChars ds) rest := by
  cases ds with
  | nil =>
    rw [pointChars, List.nil_append, scanFraction]
    rintro cs rfl
    exact (hrest '.' rfl).2 rfl
  | cons d ds =>
    simp only [pointChars, List.cons_append, scanFraction]
    rw [← List.cons_append, scanDigits_append (List.cons_ne_nil d ds) hds fun c hc => (hrest c hc).1]

theorem scanExponent_exponentChars (e : Option ℤ) (hrest : EndsNumber rest) :
    scanExponent (exponentChars e ++ rest) = .found (exponentChars e) rest := by
  cases e with
  | none =>
    rw [exponentChars, List.nil_append]
    cases rest with
    | nil => rfl
    | cons c rest =>
      have hmark := (hrest c rfl).2.2
      simp only [Numeral.isExponentMark, Bool.or_eq_false_iff, decide_eq_false_iff_not] at hmark
      rw [scanExponent, if_neg (not_or.mpr hmark)]
  | some e =>
    have hscan := scanDigits_append (Nat.toDigits_ne_nil (n := e.natAbs)) isDigit_toDigits
      fun c hc => (hrest c hc).1
    rw [exponentChars, List.cons_append, List.cons_append, scanExponent, if_pos (.inl rfl)]
    by_cases hneg : e < 0
    · simp only [if_pos hneg, spanSign, hscan, List.cons_append, List.nil_append]
    · simp only [if_neg hneg, spanSign, hscan, List.cons_append, List.nil_append]

theorem pointChars_head : ∀ c ∈ (pointChars ds).head?, c = '.' := by
  cases ds <;> simp [pointChars]

theorem exponentChars_head (e : Option ℤ) : ∀ c ∈ (exponentChars e).head?, c = 'e' := by
  cases e <;> simp [exponentChars]

/-- What may come first after some characters comes first in them or, if there are none, after
them. -/
theorem head?_append_cases {cs rest : List Char} {c : Char} (h : c ∈ (cs ++ rest).head?) :
    c ∈ cs.head? ∨ c ∈ rest.head? := by
  cases cs with
  | nil => exact .inr h
  | cons d cs => exact .inl h

/-- The exponent, or what comes after the number, does not go on with digits or a point. -/
theorem ends_exponentChars (e : Option ℤ) (hrest : EndsNumber rest) :
    ∀ c ∈ (exponentChars e ++ rest).head?, c.isDigit = false ∧ c ≠ '.' := by
  intro c hc
  rcases head?_append_cases hc with hc | hc
  · rw [exponentChars_head e c hc]
    decide
  · exact ⟨(hrest c hc).1, (hrest c hc).2.1⟩

theorem ends_pointChars (e : Option ℤ) (hrest : EndsNumber rest) :
    ∀ c ∈ (pointChars ds ++ (exponentChars e ++ rest)).head?, c.isDigit = false := by
  intro c hc
  rcases head?_append_cases hc with hc | hc
  · rw [pointChars_head c hc]
    decide
  · exact (ends_exponentChars e hrest c hc).1

/-- A digit or a minus comes first. -/
theorem chars_head (x : Spelling) :
    ∃ c cs, x.chars = c :: cs ∧ (c = '-' ∨ c.isDigit = true) := by
  obtain ⟨d, ds, hds, hdigit⟩ := exists_toDigits x.whole
  unfold chars
  rw [hds]
  cases x.negative with
  | true => exact ⟨'-', _, rfl, .inl rfl⟩
  | false => exact ⟨d, _, rfl, .inr hdigit⟩

theorem scanMinus_signChars (negative : Bool) {c : Char} (hc : c ∈ rest.head?)
    (hdigit : c.isDigit = true) :
    scanMinus (signChars negative ++ rest) = .found (signChars negative) rest := by
  cases negative with
  | true => rfl
  | false =>
    rw [signChars, if_neg Bool.false_ne_true, List.nil_append, scanMinus]
    rintro cs rfl
    injection hc with hc
    rw [← hc] at hdigit
    exact absurd hdigit (by decide)

/-- A number is scanned up to its end. -/
theorem scanNumber_chars (x : Spelling) (hrest : EndsNumber rest) :
    scanNumber (x.chars ++ rest) = .found x.chars rest := by
  obtain ⟨d, ds, hds, hdigit⟩ := exists_toDigits x.whole
  have hhead : d ∈ (Nat.toDigits 10 x.whole ++
      (pointChars x.places ++ (exponentChars x.exponent ++ rest))).head? := by
    rw [hds]
    rfl
  unfold scanNumber chars
  simp only [List.append_assoc]
  rw [scanMinus_signChars x.negative hhead hdigit]
  simp only [Scanned.andThen, scanWhole_toDigits x.whole (ends_pointChars x.exponent hrest),
    scanFraction_pointChars x.isDigit_places (ends_exponentChars x.exponent hrest),
    scanExponent_exponentChars x.exponent hrest, List.append_assoc]

/-! ### Reading a spelled number -/

theorem takeWhile_mantissa (hds : ∀ c ∈ ds, c.isDigit = true) (e : Option ℤ) (n : ℕ) :
    ((Nat.toDigits 10 n ++ (pointChars ds ++ exponentChars e)).takeWhile
        fun c => !Numeral.isExponentMark c) = Nat.toDigits 10 n ++ pointChars ds ∧
      ((Nat.toDigits 10 n ++ (pointChars ds ++ exponentChars e)).dropWhile
        fun c => !Numeral.isExponentMark c) = exponentChars e := by
  have hmantissa : ∀ c ∈ Nat.toDigits 10 n ++ pointChars ds,
      (!Numeral.isExponentMark c) = true := by
    intro c hc
    rw [Bool.not_eq_true']
    rcases List.mem_append.mp hc with hc | hc
    · exact isExponentMark_of_isDigit (isDigit_toDigits c hc)
    · cases ds with
      | nil => cases hc
      | cons d ds =>
        rcases List.mem_cons.mp hc with rfl | hc
        · rfl
        · exact isExponentMark_of_isDigit (hds c hc)
  rw [← List.append_assoc, List.takeWhile_append_of_pos hmantissa,
    List.dropWhile_append_of_pos hmantissa]
  cases e with
  | none => exact ⟨List.append_nil _, rfl⟩
  | some e => exact ⟨List.append_nil _, rfl⟩

theorem exponentValue_exponentChars (e : Option ℤ) :
    Numeral.exponentValue ((exponentChars e).drop 1) = e.getD 0 := by
  cases e with
  | none => rfl
  | some e =>
    rw [exponentChars]
    split
    · rename_i hneg
      simp only [List.drop_succ_cons, List.drop_zero, Numeral.exponentValue, digitsValue_toDigits,
        Option.getD_some]
      omega
    · rename_i hnonneg
      simp only [List.drop_succ_cons, List.drop_zero, Numeral.exponentValue, digitsValue_toDigits,
        Option.getD_some]
      omega

theorem all_isDigit (n : ℕ) (e : Option ℤ) :
    (Nat.toDigits 10 n ++ (pointChars ds ++ exponentChars e)).all Char.isDigit
      = (ds.isEmpty && e.isNone) := by
  rw [List.all_append, List.all_eq_true.mpr isDigit_toDigits, Bool.true_and]
  cases ds <;> cases e <;> rfl

/-- The numeral of a text is what the text spells. -/
theorem ofLiteral_chars (x : Spelling) : Numeral.ofLiteral x.chars
    = ⟨x.negative, x.decimal, x.places.isEmpty && x.exponent.isNone⟩ := by
  have hnegative : (x.chars.head? == some '-') = x.negative := by
    obtain ⟨d, ds, hds, hdigit⟩ := exists_toDigits x.whole
    unfold chars
    rw [hds]
    cases x.negative with
    | true => rfl
    | false =>
      simp only [signChars, List.cons_append, List.head?_cons, Bool.false_eq_true, if_false,
        List.nil_append, beq_eq_false_iff_ne, ne_eq, Option.some.injEq]
      rintro rfl
      exact absurd hdigit (by decide)
  have hbody : (if x.negative = true then x.chars.drop 1 else x.chars)
      = Nat.toDigits 10 x.whole ++ (pointChars x.places ++ exponentChars x.exponent) := by
    unfold chars
    cases x.negative <;> rfl
  obtain ⟨hmantissa, hexponent⟩ := takeWhile_mantissa x.isDigit_places x.exponent x.whole
  have hspan : spanDigits (Nat.toDigits 10 x.whole ++ pointChars x.places)
      = (Nat.toDigits 10 x.whole, pointChars x.places) :=
    spanDigits_append isDigit_toDigits fun c hc => by rw [pointChars_head c hc]; rfl
  have hplaces : (pointChars x.places).drop 1 = x.places := by cases x.places <;> rfl
  obtain ⟨hwhole, hrest⟩ := Prod.mk.inj hspan
  unfold Numeral.ofLiteral
  simp only [hnegative, hbody, hmantissa, hexponent, exponentValue_exponentChars, all_isDigit]
  rw [hwhole, hrest, hplaces]
  rfl

end Spelling

end Json

/-! ### The text of a decimal -/

namespace Decimal

open Json Spelling

theorem toList_digitString (width n : ℕ) : (digitString width n).toList
    = List.replicate (width - (Nat.toDigits 10 n).length) '0' ++ Nat.toDigits 10 n := by
  rw [digitString, String.toList_ofList]

theorem toList_digitString_one (n : ℕ) : (digitString 1 n).toList = Nat.toDigits 10 n := by
  have hpos : 0 < (Nat.toDigits 10 n).length := Nat.length_toDigits_pos
  rw [toList_digitString, Nat.sub_eq_zero_of_le hpos, List.replicate_zero, List.nil_append]

theorem length_digitString {width n : ℕ} (hwidth : 0 < width) (hn : n < 10 ^ width) :
    (digitString width n).toList.length = width := by
  have hle := (Nat.length_toDigits_le_iff (by norm_num) hwidth).mpr hn
  rw [toList_digitString, List.length_append, List.length_replicate]
  omega

theorem isDigit_digitString {width n : ℕ} :
    ∀ c ∈ (digitString width n).toList, c.isDigit = true := by
  intro c hc
  rw [toList_digitString] at hc
  rcases List.mem_append.mp hc with hc | hc
  · rw [List.eq_of_mem_replicate hc]
    rfl
  · exact isDigit_toDigits c hc

theorem digitsValue_digitString (width n : ℕ) :
    Numeral.digitsValue (digitString width n).toList = n := by
  rw [toList_digitString, digitsValue_replicate_append, digitsValue_toDigits]

theorem value_decimal (x : Spelling) : x.decimal.value
    = (x.whole * 10 ^ x.places.length + Numeral.digitsValue x.places : ℕ)
      * (10 : ℚ) ^ (x.exponent.getD 0 - x.places.length) := by
  rw [value, decimal, digitsValue_append, digitsValue_toDigits]

/-- The spelling of a whole number has a point, and a zero after it. -/
theorem exists_spelling_whole {d : Decimal} (h : 0 ≤ d.exponent) : ∃ x : Spelling,
    x.negative = false ∧ (d.positional ++ ".0").toList = x.chars ∧ x.decimal.value = d.value := by
  refine ⟨⟨false, d.digits * 10 ^ d.exponent.toNat, ['0'], none, by simp⟩, rfl, ?_, ?_⟩
  · rw [positional, if_pos h, String.toList_append, toList_digitString_one]
    rfl
  · have hpower : (10 : ℚ) ^ d.exponent = 10 ^ d.exponent.toNat := by
      rw [← zpow_natCast, Int.toNat_of_nonneg h]
    have hzero : Numeral.digitsValue ['0'] = 0 := rfl
    rw [value_decimal, value, hpower]
    simp [hzero]

/-- The places of a spelling are those of the decimal, with zeros in front. -/
theorem exists_spelling_places {d : Decimal} (h : d.exponent < 0) : ∃ x : Spelling,
    x.negative = false ∧ d.positional.toList = x.chars ∧ x.decimal.value = d.value := by
  set p := (-d.exponent).toNat with hp
  have hppos : 0 < p := by omega
  have hlt : d.digits % 10 ^ p < 10 ^ p := Nat.mod_lt _ (by positivity)
  have hlength := length_digitString hppos hlt
  refine ⟨⟨false, d.digits / 10 ^ p, (digitString p (d.digits % 10 ^ p)).toList, none,
    isDigit_digitString⟩, rfl, ?_, ?_⟩
  · have hpoint : pointChars (digitString p (d.digits % 10 ^ p)).toList
        = '.' :: (digitString p (d.digits % 10 ^ p)).toList := by
      cases hcases : (digitString p (d.digits % 10 ^ p)).toList with
      | nil => simp only [hcases, List.length_nil] at hlength; omega
      | cons c cs => rfl
    rw [positional, if_neg (not_le.mpr h), chars, hpoint]
    simp only [String.toList_append, Nat.pow_eq, ← hp, toList_digitString_one]
    simp [signChars, exponentChars]
  · rw [value_decimal, value]
    simp only [hlength, digitsValue_digitString, Nat.div_add_mod', Option.getD_none]
    congr 2
    omega

/-- The first digit is the whole part of a spelling with an exponent. -/
theorem exists_spelling_exponent (d : Decimal) (hd : d.digits ≠ 0) : ∃ x : Spelling,
    x.negative = false ∧
      (d.significand ++ Layout.document.exponentText d.leading).toList = x.chars ∧
      x.decimal.value = d.value := by
  obtain ⟨c, ds, hds, hc⟩ := exists_toDigits d.digits
  obtain ⟨k, hk, rfl⟩ := exists_digitChar hc
  have hplaces : ∀ c ∈ ds, c.isDigit = true := fun c hc =>
    isDigit_toDigits c (by rw [hds]; exact List.mem_cons_of_mem _ hc)
  have hdigit : Nat.toDigits 10 k = [Nat.digitChar k] := Nat.toDigits_of_lt_base hk
  refine ⟨⟨false, k, ds, some d.leading, hplaces⟩, rfl, ?_, ?_⟩
  · have hfraction : (fraction ds).toList = pointChars ds := by
      cases ds <;> simp [fraction, pointChars]
    have hexponent : (Layout.document.exponentText d.leading).toList
        = exponentChars (some d.leading) := by
      unfold Layout.exponentText exponentChars
      split_ifs with hneg hsigned
      · have : (-d.leading).toNat = d.leading.natAbs := by omega
        simp only [String.toList_append, Nat.toString_eq_repr, Nat.toList_repr, this, if_pos hneg]
        rfl
      · have : d.leading.toNat = d.leading.natAbs := by omega
        simp only [String.toList_append, Nat.toString_eq_repr, Nat.toList_repr, this, if_neg hneg]
        rfl
      · exact absurd rfl hsigned
    rw [significand, hds, String.toList_append, String.toList_append, hfraction, hexponent, chars,
      hdigit, String.toList_singleton]
    rfl
  · have hleading : d.leading - ds.length = d.exponent := by
      rw [leading, if_neg hd, hds, List.length_cons]
      push_cast
      omega
    rw [value, value, decimal, hdigit, List.singleton_append, ← hds, digitsValue_toDigits,
      Option.getD_some, hleading]

/-- The text of a decimal is a spelling of its value. -/
theorem exists_spelling (d : Decimal) : ∃ x : Spelling, x.negative = false ∧
    (Layout.document.decimalText d).toList = x.chars ∧ x.decimal.value = d.value := by
  unfold Layout.decimalText
  split_ifs with hpositional hpoint
  · exact exists_spelling_whole (by simpa [Layout.document] using hpoint)
  · rw [String.append_empty]
    exact exists_spelling_places (by simpa [Layout.document] using hpoint)
  · refine exists_spelling_exponent d fun hzero => hpositional ?_
    rw [leading, if_pos hzero]
    rfl

end Decimal

/-! ### The text of a number -/

namespace Binary64

open Float.Model UnpackedFloat

theorem neg_ofFinite {x : Magnitude} (hx : x.Fits) :
    -ofFinite .positive x hx.pos = ofFinite .negative x hx.pos := by
  have hneg : -ofFinite .positive x hx.pos
      = Float.ofModel (pack (neg (parts (ofFinite .positive x hx.pos)))) := rfl
  rw [hneg, parts_ofFinite hx]
  rfl

/-- The decimal that a number is the nearest to, with the sign of the number. -/
theorem toFloat_signed {x : Magnitude} (hx : x.Fits) (s : Sign) {d : Decimal} {w : Bool}
    (hnear : x.Near d.value) :
    (⟨isNegative s, d, w⟩ : Json.Numeral).toFloat = ofFinite s x hx.pos := by
  unfold Json.Numeral.toFloat
  rw [Decimal.toFloat_of_near hx hnear]
  cases s with
  | positive => rfl
  | negative => exact neg_ofFinite hx

theorem toFloat_zero (s : Sign) {d : Decimal} {w : Bool} (hd : d.value = 0) :
    (⟨isNegative s, d, w⟩ : Json.Numeral).toFloat = signedZero s := by
  have hten : (10 : ℚ) ^ d.exponent ≠ 0 := zpow_ne_zero _ (by norm_num)
  have hdigits : d.digits = 0 := by exact_mod_cast (mul_eq_zero.mp hd).resolve_right hten
  have hzero : d.toFloat = 0.0 := by
    unfold Decimal.toFloat
    exact if_pos (.inl hdigits)
  unfold Json.Numeral.toFloat
  rw [hzero]
  cases s <;> rfl

end Binary64

open Binary64 Json

/-- The text of a decimal with its sign is a spelling of its value. -/
theorem Decimal.exists_spelling_signed (negative : Bool) (d : Decimal) : ∃ x : Spelling,
    x.negative = negative ∧
      (signText negative ++ Layout.document.decimalText d).toList = x.chars ∧
      x.decimal.value = d.value := by
  obtain ⟨x, hpositive, hchars, hvalue⟩ := d.exists_spelling
  refine ⟨x.withSign negative, rfl, ?_, hvalue⟩
  rw [Spelling.chars_withSign _ _ hpositive, String.toList_append, hchars]
  cases negative <;> rfl

/-- **Numbers read back.** The text of a finite number spells one that is read as that number. -/
theorem exists_spelling_write {y : Float} (hy : y.isFinite = true) : ∃ x : Spelling,
    (Layout.document.write y).toList = x.chars ∧ (Numeral.ofLiteral x.chars).toFloat = y := by
  have hpack : Float.ofModel (Float.Model.pack (parts y)) = y := ofModel_pack_parts y
  rcases ofFloat_eq y with ⟨s, hparts, hbits⟩ | ⟨s, m, e, hm, hparts, hbits⟩ | hparts
  · obtain ⟨x, hsign, hchars, hvalue⟩ := Decimal.exists_spelling_signed (isNegative s) ⟨0, 0⟩
    refine ⟨x, by rw [Layout.write, hbits, ← hchars]; rfl, ?_⟩
    rw [Spelling.ofLiteral_chars, hsign, eq_signedZero hparts]
    exact toFloat_zero s (by rw [hvalue, Decimal.value, Nat.cast_zero, zero_mul])
  · have hfits := fits_of_parts hparts
    obtain ⟨x, hsign, hchars, hvalue⟩ :=
      Decimal.exists_spelling_signed (isNegative s) (.shortest .even ⟨m, e⟩)
    have hnear := Decimal.near_shortest hfits .even
    rw [← hvalue] at hnear
    refine ⟨x, ?_, ?_⟩
    · rw [Layout.write, hbits, ← hchars]
      simp only [if_neg hm.ne']
      rfl
    · rw [Spelling.ofLiteral_chars, hsign, toFloat_signed hfits s hnear, ← hpack, hparts]
      rfl
  · have hfinite : y.isFinite = (parts y).isFinite := rfl
    rw [hfinite, hparts] at hy
    cases hy

end QuadOpt
