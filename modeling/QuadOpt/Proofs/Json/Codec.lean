/-
# Values read back

A codec is exact for a property of values if it reads values with the property only, and what it
writes for each of them is legible and read as that value, whatever follows. Whole numbers, truth
values and finite numbers have exact codecs; arrays have one if their items do, and so do values
that are written in place of others.

Key definitions: `Codec.Restores`, `Codec.Refuses`, `Codec.Exact`.
Key theorems: `Codec.float_exact`, `Codec.float_refuses`, `Codec.natBelow_exact`,
`Codec.array_exact`, `Codec.Exact.through`.
-/
import QuadOpt.Proofs.Json.Scan

namespace QuadOpt.Json

theorem bind_eq_ok {β γ : Type} {x : Except Fault β} {f : β → Except Fault γ} {z : γ} :
    (x >>= f) = .ok z ↔ ∃ y, x = .ok y ∧ f y = .ok z := by
  cases x with
  | error e => exact ⟨nofun, fun ⟨_, h, _⟩ => by cases h⟩
  | ok y => exact ⟨fun h => ⟨y, rfl, h⟩, fun ⟨_, h, hf⟩ => by cases h; exact hf⟩

namespace Codec

variable {β γ : Type} {c : Codec β} {P : β → Prop}

/-- What the codec writes for the value is read as the value. -/
structure Restores (c : Codec β) (x : β) : Prop where
  legible : Legible (c.write x)
  /-- it cannot be taken for the end of an array -/
  opens : ∃ t ts, c.write x = t :: ts ∧ t ≠ .closeBracket
  read_write : ∀ tail ts, c.read tail (c.write x ++ ts) = .ok (x, ts)

/-- What the codec writes for the value is not read. -/
structure Refuses (c : Codec β) (x : β) : Prop where
  legible : Legible (c.write x)
  read_write : ∀ tail ts, c.read tail (c.write x ++ ts) = .error .malformed

/-- The codec reads values with the property only, and restores all of them. -/
structure Exact (c : Codec β) (P : β → Prop) : Prop where
  holds : ∀ {tail ts x us}, c.read tail ts = .ok (x, us) → P x
  restores : ∀ {x}, P x → c.Restores x

/-- A value that is written as one token is restored if that token is. -/
theorem Restores.of_singleton {x : β} {t : Token} (hwrite : c.write x = [t]) (ht : t.IsLegible)
    (hclose : t ≠ .closeBracket) (hread : ∀ tail ts, c.read tail (t :: ts) = .ok (x, ts)) :
    c.Restores x where
  legible := by
    rw [hwrite]
    exact .singleton ht
  opens := ⟨t, [], hwrite, hclose⟩
  read_write tail ts := by
    rw [hwrite]
    exact hread tail ts

/-! ### Single values -/

/-- The numbers that are written and read are the finite ones. -/
theorem float_exact : float.Exact (·.isFinite = true) where
  holds {tail ts x us} h := by
    unfold float at h
    simp only at h
    split at h
    · split at h
      · rename_i hfinite
        cases h
        exact hfinite
      · cases h
    · cases h
    · cases h
  restores {x} hx := by
    obtain ⟨s, hchars, hread⟩ := exists_spelling_write hx
    refine .of_singleton (t := .number (Layout.document.write x).toList) ?_ ⟨s, hchars⟩ (by simp) ?_
    · simp only [float, hx, if_true]
    · intro tail ts
      simp only [float, hchars, hread, hx, if_true]

/-- A number that is not finite is written all the same, as a word that is no number. -/
theorem float_refuses {x : Float} (hx : x.isFinite = false) : float.Refuses x := by
  have hwrite : float.write x = [.word .null] := by
    simp only [float, hx, Bool.false_eq_true, if_false]
  refine ⟨?_, fun tail ts => ?_⟩
  · rw [hwrite]
    exact .singleton trivial
  · rw [hwrite]
    rfl

theorem float_legible (x : Float) : Legible (float.write x) := by
  cases hx : x.isFinite with
  | true => exact (float_exact.restores hx).legible
  | false => exact (float_refuses hx).legible

/-- The spelling of a natural number. -/
def spellNat (k : ℕ) : Spelling := ⟨false, k, [], none, nofun⟩

theorem chars_spellNat (k : ℕ) : (spellNat k).chars = Nat.toDigits 10 k := by
  simp [spellNat, Spelling.chars, Spelling.signChars, Spelling.pointChars, Spelling.exponentChars]

theorem natBelow_exact (limit : ℕ) : (natBelow limit).Exact (· < limit) where
  holds {tail ts x us} h := by
    unfold natBelow at h
    simp only at h
    split at h
    · split at h
      · rename_i hbelow
        cases h
        exact hbelow.2.2
      · cases h
    · cases h
    · cases h
  restores {k} hk := by
    refine .of_singleton (t := .number (Nat.toDigits 10 k)) rfl ⟨spellNat k, (chars_spellNat k).symm⟩
      (by simp) ?_
    intro tail ts
    have hdigits : (spellNat k).decimal.digits = k := by
      simp [spellNat, Spelling.decimal, digitsValue_toDigits]
    simp only [natBelow]
    rw [← chars_spellNat, Spelling.ofLiteral_chars, hdigits, if_pos ⟨rfl, Bool.false_ne_true, hk⟩]

theorem bool_exact : bool.Exact fun _ => True where
  holds _ := trivial
  restores {b} _ :=
    .of_singleton rfl (by cases b <;> trivial) (by simp) fun _ _ => by cases b <;> rfl

/-! ### Values in place of others -/

/-- Values of one type may be written in place of those of another, if they are found again. -/
theorem Exact.through (h : c.Exact P) {d : Codec γ} {Q : γ → Prop} {conceal : γ → β} {find : β → γ}
    (hwrite : ∀ x, d.write x = c.write (conceal x))
    (hread : ∀ tail ts, d.read tail ts = do
      let (y, ts) ← c.read tail ts
      return (find y, ts))
    (hfind : ∀ y, P y → Q (find y)) (hconceal : ∀ x, Q x → P (conceal x) ∧ find (conceal x) = x) :
    d.Exact Q where
  holds {tail ts x us} hx := by
    rw [hread, bind_eq_ok] at hx
    obtain ⟨⟨y, vs⟩, hy, hx⟩ := hx
    cases hx
    exact hfind y (h.holds hy)
  restores {x} hx := by
    obtain ⟨hP, hfound⟩ := hconceal x hx
    obtain ⟨hlegible, hopens, hrestores⟩ := h.restores hP
    refine ⟨?_, ?_, fun tail ts => ?_⟩
    · rw [hwrite]
      exact hlegible
    · rw [hwrite]
      exact hopens
    · rw [hread, hwrite, hrestores]
      exact congrArg (fun y => Except.ok (y, ts)) hfound

theorem uint32_exact : uint32.Exact fun _ => True :=
  (natBelow_exact 4294967296).through (fun _ => rfl) (fun _ _ => rfl) (fun _ _ => trivial)
    fun k _ => ⟨k.toNat_lt, UInt32.ofNat_toNat⟩

/-! ### Arrays -/

/-- What is read as items has the property of items. -/
theorem readItems_holds (h : c.Exact P) {tail : Tail} {limit : ℕ} {ts us : List Token} {xs : List β}
    (hread : readItems c.read tail limit ts = .ok (xs, us)) : ∀ x ∈ xs, P x := by
  induction limit generalizing ts us xs with
  | zero => cases hread
  | succ limit ih =>
    rw [readItems, bind_eq_ok] at hread
    obtain ⟨⟨x, vs⟩, hx, hread⟩ := hread
    have hPx := h.holds hx
    simp only at hread
    split at hread
    · rw [bind_eq_ok] at hread
      obtain ⟨⟨ys, ws⟩, hys, hread⟩ := hread
      cases hread
      exact List.forall_mem_cons.mpr ⟨hPx, ih hys⟩
    · cases hread
      simpa using hPx
    · cases hread
    · cases hread

/-- Every item takes a token at least. -/
theorem length_le_separate (xs : List β) (hxs : ∀ x ∈ xs, c.Restores x) :
    xs.length ≤ (separate (xs.map c.write)).length := by
  have hpos : ∀ x ∈ xs, 0 < (c.write x).length := by
    intro x hx
    obtain ⟨t, ts, hwrite, -⟩ := (hxs x hx).opens
    rw [hwrite]
    exact Nat.succ_pos _
  clear hxs
  induction xs with
  | nil => exact le_rfl
  | cons x xs ih =>
    have hx := hpos x List.mem_cons_self
    have hrest := ih fun y hy => hpos y (List.mem_cons_of_mem _ hy)
    cases xs with
    | nil => exact hx
    | cons y xs =>
      simp only [List.map_cons, separate, List.length_append, List.length_cons] at hrest ⊢
      omega

/-- Items with commas between them are read up to the end of the array. -/
theorem readItems_separate (xs : List β) (hxs : ∀ x ∈ xs, c.Restores x) (hne : xs ≠ [])
    (tail : Tail) (ts : List Token) (limit : ℕ) (hlimit : xs.length ≤ limit) :
    readItems c.read tail limit (separate (xs.map c.write) ++ .closeBracket :: ts) = .ok (xs, ts) := by
  induction xs generalizing limit with
  | nil => exact absurd rfl hne
  | cons x xs ih =>
    obtain ⟨limit, rfl⟩ := Nat.exists_eq_succ_of_ne_zero (Nat.ne_zero_of_lt hlimit)
    have hx := (hxs x List.mem_cons_self).read_write tail
    cases xs with
    | nil =>
      simp only [List.map_cons, List.map_nil, separate, readItems, hx]
      rfl
    | cons y xs =>
      have hrest := ih (fun z hz => hxs z (List.mem_cons_of_mem _ hz)) (List.cons_ne_nil y xs)
        limit (Nat.le_of_succ_le_succ hlimit)
      rw [List.map_cons] at hrest
      rw [List.map_cons, List.map_cons, separate, List.append_assoc, List.cons_append, readItems, hx]
      · simp only [Except.bind, bind, hrest]
        rfl
      · simp

theorem array_read_cons {t : Token} (ht : t ≠ .closeBracket) (tail : Tail) (ts : List Token) :
    (array c).read tail (.openBracket :: t :: ts) = do
      let (xs, us) ← readItems c.read tail (t :: ts).length.succ (t :: ts)
      return (xs.toArray, us) := by
  simp only [array]
  split
  · rename_i heq
    injection heq with _ heq
    injection heq with heq _
    exact absurd heq ht
  · rename_i heq
    injection heq with _ heq
    rw [heq]
  · rename_i heq
    cases heq
  · rename_i hnone _
    exact absurd rfl (hnone _)

/-- The first item of several comes first. -/
theorem separate_cons (part : List Token) (parts : List (List Token)) :
    ∃ rest, separate (part :: parts) = part ++ rest := by
  cases parts with
  | nil => exact ⟨[], (List.append_nil part).symm⟩
  | cons next parts => exact ⟨_, rfl⟩

theorem array_read_write {xs : Array β} (hxs : ∀ x ∈ xs.toList, c.Restores x) (tail : Tail)
    (ts : List Token) : (array c).read tail ((array c).write xs ++ ts) = .ok (xs, ts) := by
  obtain ⟨xs⟩ := xs
  have hwrite : (array c).write ⟨xs⟩ ++ ts
      = .openBracket :: (separate (xs.map c.write) ++ .closeBracket :: ts) := by
    simp [array]
  rw [hwrite]
  cases xs with
  | nil => rfl
  | cons x xs =>
    have hlength := length_le_separate (x :: xs) hxs
    have hread := readItems_separate (x :: xs) hxs (List.cons_ne_nil x xs) tail ts
    obtain ⟨t, us, hwrite, ht⟩ := (hxs x List.mem_cons_self).opens
    obtain ⟨vs, hfirst⟩ := separate_cons (c.write x) (xs.map c.write)
    rw [List.map_cons, hfirst, hwrite] at hread hlength ⊢
    rw [List.cons_append, List.cons_append] at hread ⊢
    rw [array_read_cons ht, hread _ (by simp at hlength ⊢; omega)]
    rfl

/-- Arrays are read and written if their items are. -/
theorem array_exact (h : c.Exact P) : (array c).Exact fun xs => ∀ x ∈ xs, P x where
  holds {tail ts xs us} hread := by
    unfold array at hread
    simp only at hread
    split at hread
    · cases hread
      nofun
    · rw [bind_eq_ok] at hread
      obtain ⟨⟨ys, vs⟩, hys, hread⟩ := hread
      cases hread
      simpa using readItems_holds h hys
    · cases hread
    · cases hread
  restores {xs} hxs := by
    have hitems : ∀ x ∈ xs.toList, c.Restores x := fun x hx => h.restores (hxs x (by simpa using hx))
    have hlegible : ∀ part ∈ xs.toList.map c.write, Legible part := by
      intro part hpart
      obtain ⟨x, hx, rfl⟩ := List.mem_map.mp hpart
      exact (hitems x hx).legible
    exact ⟨.cons trivial rfl (.append_cons (.separate hlegible) trivial rfl .nil),
      ⟨_, _, rfl, by simp⟩, array_read_write hitems⟩

end Codec
end QuadOpt.Json
