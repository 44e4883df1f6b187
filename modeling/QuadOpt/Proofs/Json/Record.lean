/-
# Records read back

A record is read as it was written if each of its fields finds its own name and fills its own
place in the draft, and if the draft with all of them filled is that of the record. Whatever order
the fields come in, and whatever else stands between them, a draft keeps a property that reading a
field keeps, so a record that was read has the properties of its values. A record is refused at the first of
its fields whose value is.

Key definitions: `Field.Keeps`, `Field.Fills`, `Record.Named`, `Record.Fills`, `Record.Stumbles`.
Key theorems: `Record.readMembers_separate`, `Record.readDraft_keeps`, `Record.codec_exact`,
`Record.codec_refuses`.
-/
import QuadOpt.Json.Record
import QuadOpt.Proofs.Json.Codec

namespace QuadOpt.Json

variable {ρ σ β : Type}

/-! ### Fields -/

namespace Field

/-- Reading a value for the field keeps a property of drafts. -/
def Keeps (f : Field ρ σ) (I : σ → Prop) : Prop :=
  ∀ s tail ts s' us, I s → f.read s tail ts = .ok (s', us) → I s'

/-- What is written for the field fills its place in a draft. -/
structure Fills (f : Field ρ σ) (r : ρ) (s s' : σ) : Prop where
  isUnset : f.isSet s = false
  legible : Legible (f.write r)
  read_write : ∀ tail ts, f.read s tail (f.write r ++ ts) = .ok (s', ts)

/-- What is written for the field is not read, although its place in the draft is free. -/
structure Refuses (f : Field ρ σ) (r : ρ) (s : σ) : Prop where
  isUnset : f.isSet s = false
  read_write : ∀ tail ts, f.read s tail (f.write r ++ ts) = .error .malformed

variable {name : String} {c : Codec β} {get : ρ → β} {slot : σ → Option β} {put : σ → β → σ}

theorem of_keeps {P : β → Prop} (hc : c.Exact P) {I : σ → Prop}
    (hput : ∀ s x, I s → P x → I (put s x)) : (Field.of name c get slot put).Keeps I := by
  intro s tail ts s' us hs h
  simp only [Field.of] at h
  rw [bind_eq_ok] at h
  obtain ⟨⟨x, vs⟩, hx, h⟩ := h
  cases h
  exact hput s x hs (hc.holds hx)

theorem of_fills {r : ρ} {s : σ} (hc : c.Restores (get r)) (hslot : slot s = none) :
    (Field.of name c get slot put).Fills r s (put s (get r)) where
  isUnset := by simp [Field.of, hslot]
  legible := hc.legible
  read_write tail ts := by
    simp only [Field.of, hc.read_write]
    rfl

theorem of_refuses {r : ρ} {s : σ} (hc : c.Refuses (get r)) (hslot : slot s = none) :
    (Field.of name c get slot put).Refuses r s where
  isUnset := by simp [Field.of, hslot]
  read_write tail ts := by
    simp only [Field.of, hc.read_write]
    rfl

end Field

namespace Record

/-- The fields are known by their names, which hold no control characters. -/
structure Named (fields : List (Field ρ σ)) : Prop where
  nodup : (fields.map (·.name)).Nodup
  printable : ∀ f ∈ fields, ∀ c ∈ f.name.toList, 32 ≤ c.toNat

/-- The fields of a record fill a draft one after another. -/
inductive Fills (r : ρ) : List (Field ρ σ) → σ → σ → Prop
  | nil (s : σ) : Fills r [] s s
  | cons {f : Field ρ σ} {fs : List (Field ρ σ)} {s s' s'' : σ} (h : f.Fills r s s')
      (rest : Fills r fs s' s'') : Fills r (f :: fs) s s''

/-- The fields of a record fill a draft up to one that is not read. -/
inductive Stumbles (r : ρ) : List (Field ρ σ) → σ → Prop
  | here {f : Field ρ σ} {fs : List (Field ρ σ)} {s : σ} (h : f.Refuses r s) : Stumbles r (f :: fs) s
  | there {f : Field ρ σ} {fs : List (Field ρ σ)} {s s' : σ} (h : f.Fills r s s')
      (rest : Stumbles r fs s') : Stumbles r (f :: fs) s

theorem Fills.legible {r : ρ} {fs : List (Field ρ σ)} {s s' : σ} (h : Fills r fs s s') :
    ∀ f ∈ fs, Legible (f.write r) := by
  induction h with
  | nil => nofun
  | cons h rest ih => exact List.forall_mem_cons.mpr ⟨h.legible, ih⟩

/-- A field for a number stops the reader, or else the number is finite. -/
theorem Stumbles.cons_float {r : ρ} {fs : List (Field ρ σ)} {s : σ} {name : String} {get : ρ → Float}
    {slot : σ → Option Float} {put : σ → Float → σ} (hslot : slot s = none)
    (h : (get r).isFinite = true → Stumbles r fs (put s (get r))) :
    Stumbles r (.of name .float get slot put :: fs) s := by
  cases hfinite : (get r).isFinite with
  | true => exact .there (Field.of_fills (Codec.float_exact.restores hfinite) hslot) (h hfinite)
  | false => exact .here (Field.of_refuses (Codec.float_refuses hfinite) hslot)

/-! ### Names -/

theorem decodeUnits_char (cs : List Char) : decodeUnits false (cs.map .char) = .ok cs := by
  induction cs with
  | nil => rfl
  | cons c cs ih =>
    rw [List.map_cons, decodeUnits, ih]
    rfl

theorem readKey_ofString (tail : Tail) (name : String) (ts : List Token) :
    readKey tail (.ofString name :: ts) = .ok (name, ts) := by
  simp only [readKey, Token.ofString, decodeUnits_char]
  exact congrArg (fun n => Except.ok (n, ts)) String.ofList_toList

/-- A field is found by its name. -/
theorem find?_name {fields : List (Field ρ σ)} (h : Named fields) {f : Field ρ σ} (hf : f ∈ fields) :
    (fields.find? fun g => g.name == f.name) = some f := by
  have hnodup := h.nodup
  clear h
  induction fields with
  | nil => cases hf
  | cons g fields ih =>
    rw [List.map_cons, List.nodup_cons] at hnodup
    rcases List.mem_cons.mp hf with rfl | hf
    · rw [List.find?_cons_of_pos (by simp)]
    · have hne : g.name ≠ f.name := fun h => hnodup.1 (h ▸ List.mem_map_of_mem hf)
      rw [List.find?_cons_of_neg (by simpa using hne)]
      exact ih hf hnodup.2

/-! ### What is read -/

section

variable {I : σ → Prop} {fields : List (Field ρ σ)} {tail : Tail} {s s' : σ} {ts us : List Token}

theorem readMember_keeps (hfields : ∀ f ∈ fields, f.Keeps I) {name : String} (hs : I s)
    (h : readMember fields name s tail ts = .ok (s', us)) : I s' := by
  unfold readMember at h
  split at h
  · rename_i f hf
    have hkeeps := hfields f (List.mem_of_find?_eq_some hf)
    split at h
    · cases h
    · simp only [bind_eq_ok] at h
      obtain ⟨vs, -, h⟩ := h
      exact hkeeps _ _ _ _ _ hs h
  · simp only [bind_eq_ok] at h
    obtain ⟨_, -, _, -, h⟩ := h
    cases h
    exact hs

theorem readMembers_keeps (hfields : ∀ f ∈ fields, f.Keeps I) {limit : ℕ} (hs : I s)
    (h : readMembers fields tail limit s ts = .ok (s', us)) : I s' := by
  induction limit generalizing s ts with
  | zero => cases h
  | succ limit ih =>
    rw [readMembers, bind_eq_ok] at h
    obtain ⟨⟨name, vs⟩, -, h⟩ := h
    simp only [bind_eq_ok] at h
    obtain ⟨⟨t, ws⟩, hmember, h⟩ := h
    have ht := readMember_keeps hfields hs hmember
    split at h
    · exact ih ht h
    · cases h
      exact ht
    · cases h
    · cases h

theorem readRest_keeps (hfields : ∀ f ∈ fields, f.Keeps I) (hs : I s)
    (h : readRest tail fields s ts = .ok (s', us)) : I s' := by
  fun_induction readRest tail fields s ts with
  | case1 => cases h; exact hs
  | case2 f fs s ts ih =>
    rw [bind_eq_ok] at h
    obtain ⟨⟨t, vs⟩, ht, h⟩ := h
    exact ih _ _ (fun g hg => hfields g (List.mem_cons_of_mem _ hg))
      (hfields f List.mem_cons_self _ _ _ _ _ hs ht) h
  | case3 => cases h
  | case4 => cases h

theorem readSequence_keeps (hfields : ∀ f ∈ fields, f.Keeps I) (hs : I s)
    (h : readSequence tail fields s ts = .ok (s', us)) : I s' := by
  unfold readSequence at h
  split at h
  · cases h
    exact hs
  · rename_i f fs _
    rw [bind_eq_ok] at h
    obtain ⟨⟨t, vs⟩, ht, h⟩ := h
    exact readRest_keeps (fun g hg => hfields g (List.mem_cons_of_mem _ hg))
      (hfields f List.mem_cons_self _ _ _ _ _ hs ht) h
  · cases h
  · cases h

/-- A property of the blank draft that the fields keep is one of every draft that is read. -/
theorem readDraft_keeps {R : Record ρ σ} (hfields : ∀ f ∈ R.fields, f.Keeps I) (hblank : I R.blank)
    (h : R.readDraft tail ts = .ok (s, us)) : I s := by
  unfold readDraft at h
  split at h
  · cases h
    exact hblank
  · exact readMembers_keeps hfields hblank h
  · exact readSequence_keeps hfields hblank h
  · cases h
  · cases h

end

/-! ### What was written -/

section

variable {fields : List (Field ρ σ)} {r : ρ} {s s' : σ}

theorem readMember_write (hnamed : Named fields) {f : Field ρ σ} (hf : f ∈ fields)
    (hfills : f.Fills r s s') (tail : Tail) (ts : List Token) :
    readMember fields f.name s tail (.colon :: (f.write r ++ ts)) = .ok (s', ts) := by
  simp only [readMember, find?_name hnamed hf, hfills.isUnset, Bool.false_eq_true, if_false]
  exact hfills.read_write tail ts

theorem writeField_append (f : Field ρ σ) (ts : List Token) :
    writeField r f ++ ts = .ofString f.name :: .colon :: (f.write r ++ ts) := rfl

/-- Fields with commas between them are read up to the end of the object. -/
theorem readMembers_separate (hnamed : Named fields) {fs : List (Field ρ σ)}
    (hfs : ∀ f ∈ fs, f ∈ fields) (hne : fs ≠ []) (hfills : Fills r fs s s') (tail : Tail)
    (ts : List Token) (limit : ℕ) (hlimit : fs.length ≤ limit) :
    readMembers fields tail limit s (separate (fs.map (writeField r)) ++ .closeBrace :: ts)
      = .ok (s', ts) := by
  induction hfills generalizing limit with
  | nil => exact absurd rfl hne
  | @cons f fs s t s' hfill hrest ih =>
    obtain ⟨limit, rfl⟩ := Nat.exists_eq_succ_of_ne_zero (Nat.ne_zero_of_lt hlimit)
    have hmember := readMember_write hnamed (hfs f List.mem_cons_self) hfill tail
    cases fs with
    | nil =>
      cases hrest
      simp only [List.map_cons, List.map_nil, separate, writeField_append, readMembers,
        readKey_ofString, bind, Except.bind, hmember]
      rfl
    | cons g fs =>
      have hnext := ih (fun h hh => hfs h (List.mem_cons_of_mem _ hh)) (List.cons_ne_nil g fs)
        limit (Nat.le_of_succ_le_succ hlimit)
      rw [List.map_cons] at hnext
      rw [List.map_cons, List.map_cons, separate, List.append_assoc, writeField_append, readMembers,
        readKey_ofString]
      · simp only [bind, Except.bind, List.cons_append, hmember]
        exact hnext
      · simp

/-- Reading stops at the field that is not read. -/
theorem readMembers_stumbles (hnamed : Named fields) {fs : List (Field ρ σ)}
    (hfs : ∀ f ∈ fs, f ∈ fields) (h : Stumbles r fs s) (tail : Tail) (ts : List Token) (limit : ℕ)
    (hlimit : fs.length ≤ limit) :
    readMembers fields tail limit s (separate (fs.map (writeField r)) ++ .closeBrace :: ts)
      = .error .malformed := by
  induction h generalizing limit with
  | @here f fs s h =>
    obtain ⟨limit, rfl⟩ := Nat.exists_eq_succ_of_ne_zero (Nat.ne_zero_of_lt hlimit)
    obtain ⟨us, hus⟩ := Codec.separate_cons (writeField r f) (fs.map (writeField r))
    have hmember : ∀ ts, readMember fields f.name s tail (.colon :: (f.write r ++ ts))
        = .error .malformed := by
      intro ts
      simp only [readMember, find?_name hnamed (hfs f List.mem_cons_self), h.isUnset,
        Bool.false_eq_true, if_false]
      exact h.read_write tail ts
    rw [List.map_cons, hus, List.append_assoc, writeField_append, readMembers, readKey_ofString]
    simp only [bind, Except.bind, hmember]
  | @there f fs s t hfill hrest ih =>
    obtain ⟨limit, rfl⟩ := Nat.exists_eq_succ_of_ne_zero (Nat.ne_zero_of_lt hlimit)
    have hmember := readMember_write hnamed (hfs f List.mem_cons_self) hfill tail
    cases fs with
    | nil => cases hrest
    | cons g fs =>
      have hnext := ih (fun h hh => hfs h (List.mem_cons_of_mem _ hh)) limit
        (Nat.le_of_succ_le_succ hlimit)
      rw [List.map_cons] at hnext
      rw [List.map_cons, List.map_cons, separate, List.append_assoc, writeField_append, readMembers,
        readKey_ofString]
      · simp only [bind, Except.bind, List.cons_append, hmember]
        exact hnext
      · simp

theorem length_le_separate (fs : List (Field ρ σ)) :
    fs.length ≤ (separate (fs.map (writeField r))).length := by
  induction fs with
  | nil => exact le_rfl
  | cons f fs ih =>
    cases fs with
    | nil => exact Nat.succ_pos _
    | cons g fs =>
      simp only [List.map_cons, separate, writeField, List.length_append, List.length_cons] at ih ⊢
      omega

/-- What is written for a record can be told apart. -/
theorem legible_write {R : Record ρ σ} (hnamed : Named R.fields)
    (hfields : ∀ f ∈ R.fields, Legible (f.write r)) : Legible (R.codec.write r) := by
  have hparts : ∀ part ∈ R.fields.map (writeField r), Legible part := by
    intro part hpart
    obtain ⟨f, hf, rfl⟩ := List.mem_map.mp hpart
    refine .cons ?_ rfl (.cons trivial rfl (hfields f hf))
    intro u hu
    obtain ⟨c, hc, rfl⟩ := List.mem_map.mp hu
    exact ⟨c, rfl, hnamed.printable f hf c hc⟩
  exact .cons trivial rfl (.append_cons (.separate hparts) trivial rfl .nil)

/-- A record is read from what was written as an object, field by field. -/
theorem readDraft_write {R : Record ρ σ} (hne : R.fields ≠ []) (tail : Tail) (ts : List Token) :
    ∃ limit, R.fields.length ≤ limit ∧ R.readDraft tail (R.codec.write r ++ ts)
      = readMembers R.fields tail limit R.blank
        (separate (R.fields.map (writeField r)) ++ .closeBrace :: ts) := by
  have hwrite : R.codec.write r ++ ts
      = .openBrace :: (separate (R.fields.map (writeField r)) ++ .closeBrace :: ts) := by
    simp [codec]
  have hlength := length_le_separate (r := r) R.fields
  obtain ⟨f, fs, hcons⟩ := List.exists_cons_of_ne_nil hne
  obtain ⟨us, hus⟩ : ∃ us, separate (R.fields.map (writeField r)) = .ofString f.name :: us := by
    rw [hcons, List.map_cons]
    obtain ⟨us, hus⟩ := Codec.separate_cons (writeField r f) (fs.map (writeField r))
    exact ⟨_, hus⟩
  rw [hus] at hlength ⊢
  rw [hwrite, hus, List.cons_append]
  refine ⟨_, ?_, rfl⟩
  simp only [List.length_cons, List.length_append] at hlength ⊢
  omega

/-- A record that fills a draft, from which it is finished, is read as it was written. -/
theorem codec_restores {R : Record ρ σ} (hnamed : Named R.fields) (hne : R.fields ≠ [])
    (hfills : Fills r R.fields R.blank s) (hfinish : R.finish s = some r) : R.codec.Restores r where
  legible := legible_write hnamed hfills.legible
  opens := ⟨_, _, rfl, by simp⟩
  read_write tail ts := by
    obtain ⟨limit, hlimit, hdraft⟩ := readDraft_write (r := r) hne tail ts
    rw [readMembers_separate hnamed (fun _ h => h) hne hfills tail ts limit hlimit] at hdraft
    simp only [codec] at hdraft ⊢
    rw [hdraft]
    simp only [bind, Except.bind, hfinish]
    rfl

/-- A record with a field that is not read is not read. -/
theorem codec_refuses {R : Record ρ σ} (hnamed : Named R.fields)
    (hlegible : ∀ f ∈ R.fields, Legible (f.write r)) (h : Stumbles r R.fields R.blank) :
    R.codec.Refuses r where
  legible := legible_write hnamed hlegible
  read_write tail ts := by
    have hne : R.fields ≠ [] := by
      intro hnil
      rw [hnil] at h
      cases h
    obtain ⟨limit, hlimit, hdraft⟩ := readDraft_write (r := r) hne tail ts
    rw [readMembers_stumbles hnamed (fun _ h => h) h tail ts limit hlimit] at hdraft
    simp only [codec] at hdraft ⊢
    rw [hdraft]
    rfl

end

/-- Records are read and written if their fields are. -/
theorem codec_exact {R : Record ρ σ} {P : ρ → Prop} {I : σ → Prop} (hnamed : Named R.fields)
    (hne : R.fields ≠ []) (hblank : I R.blank) (hfields : ∀ f ∈ R.fields, f.Keeps I)
    (hfinish : ∀ s r, I s → R.finish s = some r → P r)
    (hfills : ∀ r, P r → ∃ s, Fills r R.fields R.blank s ∧ R.finish s = some r) :
    R.codec.Exact P where
  holds {tail ts r us} h := by
    simp only [codec, bind_eq_ok] at h
    obtain ⟨⟨s, vs⟩, hs, h⟩ := h
    simp only at h
    split at h
    · rename_i t hsome
      cases h
      exact hfinish s r (readDraft_keeps hfields hblank hs) hsome
    · cases h
  restores {r} hr := by
    obtain ⟨s, hs, hsome⟩ := hfills r hr
    exact codec_restores hnamed hne hs hsome

end Record
end QuadOpt.Json
