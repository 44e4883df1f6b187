/-
# Scanning what was written

Tokens are written without blanks between them. All of them but a number tell where they end, and
a number ends before any other token. So a list of tokens is scanned from its text if each token
stands for itself and no number follows another.

Key definitions: `Token.IsLegible`, `Token.Apart`, `Legible`.
Key theorems: `scanToken_write`, `scan_writeAll`, `Legible.append_cons`.
-/
import QuadOpt.Proofs.Json.Number

namespace QuadOpt.Json

namespace Token

/-- A number has the form of one, and a string no character that is written as a unit. -/
def IsLegible : Token → Prop
  | number literal => ∃ x : Spelling, literal = x.chars
  | string units => ∀ u ∈ units, ∃ c, u = .char c ∧ 32 ≤ c.toNat
  | _ => True

/-- The token is a number. -/
def isNumber : Token → Bool
  | number _ => true
  | _ => false

/-- One of the tokens is not a number. -/
def Apart (t u : Token) : Prop := t.isNumber = false ∨ u.isNumber = false

end Token

/-- The tokens can be told apart in their text. -/
structure Legible (ts : List Token) : Prop where
  isLegible : ∀ t ∈ ts, t.IsLegible
  apart : ts.IsChain Token.Apart

/-! ### Single tokens -/

theorem scanString_write {units : List StringUnit} (rest : List Char)
    (h : ∀ u ∈ units, ∃ c, u = .char c ∧ 32 ≤ c.toNat) :
    scanString (units.flatMap StringUnit.write ++ '"' :: rest) = .found units rest := by
  induction units with
  | nil => rfl
  | cons u units ih =>
    obtain ⟨c, rfl, hc⟩ := h u List.mem_cons_self
    have htail := ih fun u hu => h u (List.mem_cons_of_mem _ hu)
    rw [List.flatMap_cons, List.append_assoc, StringUnit.write]
    split_ifs with hescape hcontrol
    · rcases hescape with rfl | rfl
      all_goals
        simp only [List.cons_append, List.nil_append]
        rw [scanString]
        · simp only [shortEscape?, htail, Scanned.prepend]
        all_goals simp
    · omega
    · rw [not_or] at hescape
      rw [List.singleton_append, scanString, if_neg hcontrol, htail]
      · rfl
      all_goals simp_all

/-- The characters of a token, with one in front. -/
theorem Token.exists_write {t : Token} (h : t.IsLegible) :
    ∃ c cs, t.write = c :: cs ∧ isBlank c = false ∧
      (t.isNumber = false → c.isDigit = false ∧ c ≠ '.' ∧ Numeral.isExponentMark c = false) := by
  cases t with
  | number literal =>
    obtain ⟨x, rfl⟩ := h
    obtain ⟨c, cs, hchars, hc⟩ := x.chars_head
    refine ⟨c, cs, hchars, ?_, fun h => by cases h⟩
    rcases hc with rfl | hc
    · rfl
    · obtain ⟨k, hk, rfl⟩ := exists_digitChar hc
      interval_cases k <;> rfl
  | word w => cases w <;> exact ⟨_, _, rfl, rfl, fun _ => by decide⟩
  | _ => exact ⟨_, _, rfl, rfl, fun _ => by decide⟩

theorem scanToken_number {c : Char} (hc : c = '-' ∨ c.isDigit = true) {cs ds rest : List Char}
    (hscan : scanNumber (c :: cs) = .found ds rest) : scanToken c cs = .ok (.number ds, rest) := by
  rcases hc with rfl | hc
  · simp [scanToken, hscan]
  · obtain ⟨k, hk, rfl⟩ := exists_digitChar hc
    interval_cases k <;> simp [scanToken, hscan]

/-- A token is scanned from the front of a text, if the text after it does not go on with it. -/
theorem scanToken_write {t : Token} (h : t.IsLegible) {rest : List Char}
    (hrest : t.isNumber = true → EndsNumber rest) {c : Char} {cs : List Char}
    (hwrite : t.write = c :: cs) : scanToken c (cs ++ rest) = .ok (t, rest) := by
  cases t with
  | number literal =>
    obtain ⟨x, rfl⟩ := h
    have hscan := x.scanNumber_chars (hrest rfl)
    obtain ⟨d, ds, hchars, hd⟩ := x.chars_head
    have hcons : x.chars = c :: cs := hwrite
    rw [hchars] at hcons
    injection hcons with hdc hds
    subst hdc hds
    rw [hchars] at hscan ⊢
    exact scanToken_number hd hscan
  | string units =>
    have hcons : '"' :: (units.flatMap StringUnit.write ++ ['"']) = c :: cs := hwrite
    injection hcons with hc hcs
    subst hc hcs
    have hscan := scanString_write rest h
    simp only [scanToken, List.append_assoc, List.singleton_append, hscan]
  | word w =>
    cases w
    all_goals
      injection hwrite with hc hcs
      subst hc hcs
      rfl
  | _ =>
    injection hwrite with hc hcs
    subst hc hcs
    rfl

/-! ### Texts -/

/-- A text that does not begin with a number does not go on with one. -/
theorem endsNumber_flatMap {ts : List Token} (h : ∀ t ∈ ts, t.IsLegible)
    (hfirst : ∀ t ∈ ts.head?, t.isNumber = false) : EndsNumber (ts.flatMap Token.write) := by
  cases ts with
  | nil => nofun
  | cons t ts =>
    obtain ⟨c, cs, hwrite, -, hends⟩ := Token.exists_write (h t List.mem_cons_self)
    rw [List.flatMap_cons, hwrite]
    rintro d ⟨⟩
    exact hends (hfirst t rfl)

/-- Legible tokens are scanned from their text. -/
theorem scanUpTo_flatMap {ts : List Token} (h : Legible ts) {limit : ℕ} (hlimit : ts.length < limit) :
    scanUpTo limit (ts.flatMap Token.write) = (ts, .done) := by
  obtain ⟨hlegible, hapart⟩ := h
  induction ts generalizing limit with
  | nil =>
    obtain ⟨limit, rfl⟩ := Nat.exists_eq_succ_of_ne_zero hlimit.ne_bot
    rfl
  | cons t ts ih =>
    obtain ⟨limit, rfl⟩ := Nat.exists_eq_succ_of_ne_zero (Nat.ne_zero_of_lt hlimit)
    have ht := hlegible t List.mem_cons_self
    have hts : ∀ u ∈ ts, u.IsLegible := fun u hu => hlegible u (List.mem_cons_of_mem _ hu)
    obtain ⟨c, cs, hwrite, hblank, -⟩ := Token.exists_write ht
    have hnext : t.isNumber = true → EndsNumber (ts.flatMap Token.write) := by
      intro hnumber
      refine endsNumber_flatMap hts fun u hu => ?_
      rw [List.isChain_cons] at hapart
      exact (hapart.1 u hu).resolve_left (by simp [hnumber])
    have hscan := scanToken_write ht hnext hwrite
    rw [List.flatMap_cons, hwrite, List.cons_append, scanUpTo, List.dropWhile_cons, hblank]
    simp only [Bool.false_eq_true, if_false, hscan]
    rw [ih (by simpa using hlimit) hts hapart.tail]

theorem length_le_flatMap {ts : List Token} (h : ∀ t ∈ ts, t.IsLegible) :
    ts.length ≤ (ts.flatMap Token.write).length := by
  induction ts with
  | nil => exact le_rfl
  | cons t ts ih =>
    obtain ⟨c, cs, hwrite, -⟩ := Token.exists_write (h t List.mem_cons_self)
    have := ih fun u hu => h u (List.mem_cons_of_mem _ hu)
    rw [List.flatMap_cons, hwrite, List.length_append]
    simp only [List.length_cons]
    omega

/-- The tokens of a text that was written are those it was written from. -/
theorem scan_writeAll {ts : List Token} (h : Legible ts) :
    scan (Token.writeAll ts).toList = (ts, .done) := by
  rw [Token.writeAll, String.toList_ofList]
  exact scanUpTo_flatMap h (Nat.lt_succ_of_le (length_le_flatMap h.isLegible))

/-! ### Legible lists -/

namespace Legible

variable {ts us : List Token} {t : Token}

theorem singleton (h : t.IsLegible) : Legible [t] :=
  ⟨by simpa using h, List.isChain_singleton t⟩

/-- A token that is not a number keeps two lists apart. -/
theorem append_cons (hts : Legible ts) (ht : t.IsLegible) (hnumber : t.isNumber = false)
    (hus : Legible us) : Legible (ts ++ t :: us) := by
  refine ⟨?_, ?_⟩
  · intro v hv
    rcases List.mem_append.mp hv with hv | hv
    · exact hts.isLegible v hv
    · rcases List.mem_cons.mp hv with rfl | hv
      · exact ht
      · exact hus.isLegible v hv
  · rw [List.isChain_append]
    refine ⟨hts.apart, ?_, ?_⟩
    · rw [List.isChain_cons]
      exact ⟨fun _ _ => .inl hnumber, hus.apart⟩
    · rintro v - u ⟨⟩
      exact .inr hnumber

theorem nil : Legible [] := ⟨nofun, List.isChain_nil⟩

theorem cons (ht : t.IsLegible) (hnumber : t.isNumber = false) (hts : Legible ts) :
    Legible (t :: ts) := append_cons nil ht hnumber hts

/-- Commas keep the parts of a list apart. -/
theorem separate {parts : List (List Token)} (h : ∀ part ∈ parts, Legible part) :
    Legible (separate parts) := by
  fun_induction Json.separate parts with
  | case1 => exact nil
  | case2 part => exact h part List.mem_cons_self
  | case3 part parts hne ih =>
    exact append_cons (h part List.mem_cons_self) trivial rfl
      (ih fun p hp => h p (List.mem_cons_of_mem _ hp))

end Legible

end QuadOpt.Json
