/-
# What placed items leave behind

Changes to an array take effect position by position. Lists that share an array are
its stretches, and cursors that start where the lists start fill them from their
beginnings, each with its items in the order in which they come; an item is found
again at its recorded place.

Key definitions: `offset`, `overlay`, `itemsOf`, `Placement.Holds`, `byKey`.
Key theorems: `alterAll?_eq_some`, `overwrite?_eq_some`, `tally?_eq_some`,
`set_flatten`, `slice?_flatten`, `overlay_push`, `distribute?_holds`,
`Placement.Holds.places_iff`, `distribute?_byKey`.
-/
import Mathlib.Algebra.BigOperators.Fin
import Mathlib.Data.List.Basic
import Mathlib.Data.List.Nodup
import QuadOpt.Sparse.Grouping
import QuadOpt.Sparse.Placement

namespace QuadOpt

variable {β γ : Type}

/-! ### Changes -/

theorem alter?_eq_some {a : Array β} {i : Nat} (h : i < a.size) (f : β → β) :
    alter? a i f = some (a.set i (f a[i]) h) := dif_pos h

theorem getElem?_alter {a b : Array β} {i : Nat} {f : β → β} (h : alter? a i f = some b)
    (p : Nat) : b[p]? = if i = p then a[p]?.map f else a[p]? := by
  unfold alter? at h
  split at h
  · rename_i hi
    cases h
    rw [Array.getElem?_set]
    by_cases hp : i = p
    · subst hp
      simp [hi]
    · simp [hp]
  · cases h

/-- What is written to a position is read back. -/
theorem getElem?_alter_self {a b : Array β} {i : Nat} {v : β}
    (h : alter? a i (fun _ => v) = some b) : b[i]? = some v := by
  rw [getElem?_alter h, if_pos rfl]
  unfold alter? at h
  split at h
  · rename_i hi
    simp [hi]
  · cases h

/-- Each element goes through the changes at its position, in their order. -/
theorem alterAll?_eq_some {a : Array β} (changes : List (Nat × (β → β)))
    (hlt : ∀ c ∈ changes, c.1 < a.size) :
    ∃ b, alterAll? a changes = some b ∧ b.size = a.size ∧ ∀ p, b[p]? = a[p]?.map fun x =>
      (changes.filter fun c => c.1 == p).foldl (fun x c => c.2 x) x := by
  induction changes generalizing a with
  | nil => exact ⟨a, rfl, rfl, fun p => by simp⟩
  | cons c changes ih =>
    have hc : c.1 < a.size := hlt c (List.mem_cons_self ..)
    have haltered := alter?_eq_some hc c.2
    have hsize : (a.set c.1 (c.2 a[c.1]) hc).size = a.size := by simp
    obtain ⟨b, hb, hbsize, hget⟩ := ih (a := a.set c.1 (c.2 a[c.1]) hc) fun d hd => by
      rw [hsize]
      exact hlt d (List.mem_cons_of_mem _ hd)
    refine ⟨b, ?_, hbsize.trans hsize, fun p => ?_⟩
    · rw [alterAll?, List.foldlM_cons, haltered]
      exact hb
    · rw [hget, getElem?_alter haltered]
      by_cases hp : c.1 = p
      · simp [hp, Option.map_map, Function.comp_def]
      · simp [hp]

/-- Where every position is changed once at most, each change is seen, and nothing
else changes. -/
theorem alterAll?_of_nodup {a : Array β} (changes : List (Nat × (β → β)))
    (hlt : ∀ c ∈ changes, c.1 < a.size) (hnodup : (changes.map Prod.fst).Nodup) :
    ∃ b, alterAll? a changes = some b ∧ b.size = a.size ∧
      (∀ p f, (p, f) ∈ changes → b[p]? = a[p]?.map f) ∧
      ∀ p, p ∉ changes.map Prod.fst → b[p]? = a[p]? := by
  obtain ⟨b, hb, hsize, hget⟩ := alterAll?_eq_some changes hlt
  refine ⟨b, hb, hsize, fun p f hmem => ?_, fun p hp => ?_⟩
  · have hfilter : (changes.filter fun c => c.1 == p) = [(p, f)] := by
      obtain ⟨l, r, rfl⟩ := List.append_of_mem hmem
      rw [List.map_append, List.map_cons, List.nodup_append] at hnodup
      obtain ⟨-, hr, hdisjoint⟩ := hnodup
      have hleft : (l.filter fun c => c.1 == p) = [] := by
        rw [List.filter_eq_nil_iff]
        intro c hc hcp
        exact hdisjoint c.1 (List.mem_map_of_mem hc) p (List.mem_cons_self ..) (by simpa using hcp)
      have hright : (r.filter fun c => c.1 == p) = [] := by
        rw [List.filter_eq_nil_iff]
        intro c hc hcp
        have hmem : c.1 ∈ r.map Prod.fst := List.mem_map_of_mem hc
        rw [show c.1 = p by simpa using hcp] at hmem
        exact (List.nodup_cons.mp hr).1 hmem
      simp [hleft, hright]
    rw [hget, hfilter]
    rfl
  · have hfilter : (changes.filter fun c => c.1 == p) = [] := by
      rw [List.filter_eq_nil_iff]
      intro c hc hcp
      exact hp ((by simpa using hcp : c.1 = p) ▸ List.mem_map_of_mem hc)
    rw [hget, hfilter]
    simp

/-- Where every position is overwritten once at most, what was written is read. -/
theorem overwrite?_eq_some {a : Array β} (writes : List (Nat × β))
    (hlt : ∀ e ∈ writes, e.1 < a.size) (hnodup : (writes.map Prod.fst).Nodup) :
    ∃ b, overwrite? a writes = some b ∧ b.size = a.size ∧
      (∀ p x, (p, x) ∈ writes → b[p]? = some x) ∧
      ∀ p, p ∉ writes.map Prod.fst → b[p]? = a[p]? := by
  have hkeys : (writes.map fun e => (e.1, fun _ : β => e.2)).map Prod.fst
      = writes.map Prod.fst := by
    rw [List.map_map]
    rfl
  obtain ⟨b, hb, hsize, hwritten, hkept⟩ := alterAll?_of_nodup (a := a)
    (writes.map fun e => (e.1, fun _ => e.2)) (fun c hc => by
      obtain ⟨e, he, rfl⟩ := List.mem_map.mp hc
      exact hlt e he) (by rwa [hkeys])
  refine ⟨b, hb, hsize, fun p x hmem => ?_, fun p hp => hkept p (by rwa [hkeys])⟩
  rw [hwritten p _ (List.mem_map_of_mem hmem), Array.getElem?_eq_getElem (hlt _ hmem)]
  rfl

/-- Every key is counted. -/
theorem tally?_eq_some {n : Nat} {keys : List Nat} (hlt : ∀ k ∈ keys, k < n) :
    ∃ counts, tally? n keys = some counts ∧ counts.size = n ∧
      ∀ k < n, counts[k]? = some (keys.count k) := by
  obtain ⟨b, hb, hsize, hget⟩ := alterAll?_eq_some (a := Array.replicate n 0)
    (keys.map fun k => (k, (· + 1))) (fun c hc => by
      obtain ⟨k, hk, rfl⟩ := List.mem_map.mp hc
      simpa using hlt k hk)
  have hcount : ∀ (keys : List Nat) (p x : Nat),
      ((keys.map fun k => (k, (· + 1))).filter fun c : Nat × (Nat → Nat) => c.1 == p).foldl
        (fun x c => c.2 x) x = x + keys.count p := by
    intro keys p
    induction keys with
    | nil => simp
    | cons k keys ih =>
      intro x
      by_cases hk : k = p
      · subst hk
        simp [ih]
        omega
      · simp [hk, ih]
  refine ⟨b, hb, by simpa using hsize, fun k hk => ?_⟩
  rw [hget, Array.getElem?_replicate, if_pos hk, Option.map_some, hcount, Nat.zero_add]

/-- Nothing is changed outside of the array. -/
theorem lt_size_of_alterAll? {a b : Array β} {changes : List (Nat × (β → β))}
    (h : alterAll? a changes = some b) : ∀ c ∈ changes, c.1 < a.size := by
  induction changes generalizing a with
  | nil => simp
  | cons c changes ih =>
    rw [alterAll?, List.foldlM_cons] at h
    obtain ⟨next, hnext, h⟩ := Option.bind_eq_some_iff.mp h
    unfold alter? at hnext
    split at hnext
    · rename_i hlt
      cases hnext
      refine List.forall_mem_cons.mpr ⟨hlt, fun d hd => ?_⟩
      simpa using ih h d hd
    · cases hnext

/-- Only keys below `n` are counted. -/
theorem lt_of_tally? {n : Nat} {keys : List Nat} {counts : Array Nat} (h : tally? n keys = some counts) :
    ∀ k ∈ keys, k < n := by
  intro k hk
  simpa using lt_size_of_alterAll? h _ (List.mem_map_of_mem hk)

/-! ### Lists one after the other -/

/-- Where list `c` starts when the lists are stored one after the other. -/
def offset (L : List (List β)) (c : Nat) : Nat := (L.take c).flatten.length

theorem offset_cons_succ (l : List β) (L : List (List β)) (c : Nat) :
    offset (l :: L) (c + 1) = l.length + offset L c := by
  simp [offset]

theorem offset_eq_sum (L : List (List β)) (c : Nat) :
    offset L c = ((L.map List.length).take c).sum := by
  rw [offset, List.length_flatten, List.map_take]

/-- The offsets depend on the lengths only. -/
theorem offset_congr {L : List (List β)} {M : List (List γ)}
    (h : L.map List.length = M.map List.length) (c : Nat) : offset L c = offset M c := by
  rw [offset_eq_sum, offset_eq_sum, h]

theorem offset_succ {L : List (List β)} {c : Nat} {l : List β} (h : L[c]? = some l) :
    offset L (c + 1) = offset L c + l.length := by
  obtain ⟨hc, rfl⟩ := List.getElem?_eq_some_iff.mp h
  rw [offset, List.take_succ_eq_append_getElem hc, List.flatten_append, List.length_append]
  simp [offset]

theorem getElem?_pointers_map (L : List (List β)) {c : Nat} (h : c ≤ L.length) :
    (pointers (L.map List.length))[c]? = some (offset L c) := by
  rw [getElem?_pointers _ (by simpa using h), offset_eq_sum, List.sum_eq_foldl]

/-- Beyond the offset of a list its elements are read. -/
theorem getElem?_flatten_offset {L : List (List β)} {c : Nat} {l : List β} (h : L[c]? = some l)
    {t : Nat} (ht : t < l.length) : L.flatten[offset L c + t]? = l[t]? := by
  induction L generalizing c with
  | nil => simp at h
  | cons k L ih =>
    cases c with
    | zero =>
      obtain rfl : k = l := by simpa using h
      simp [offset, List.getElem?_append_left ht]
    | succ c =>
      have h : L[c]? = some l := by simpa using h
      rw [offset_cons_succ, List.flatten_cons, List.getElem?_append_right (by omega),
        show k.length + offset L c + t - k.length = offset L c + t by omega, ih h]

theorem set_flatten {L : List (List β)} {c : Nat} {l : List β} (h : L[c]? = some l)
    {t : Nat} (ht : t < l.length) (x : β) :
    L.flatten.set (offset L c + t) x = (L.set c (l.set t x)).flatten := by
  induction L generalizing c with
  | nil => simp at h
  | cons k L ih =>
    cases c with
    | zero =>
      obtain rfl : k = l := by simpa using h
      simp [offset, List.set_append_left _ _ ht]
    | succ c =>
      have h : L[c]? = some l := by simpa using h
      rw [offset_cons_succ, List.flatten_cons, List.set_append_right _ _ (by omega),
        show k.length + offset L c + t - k.length = offset L c + t by omega, ih h]
      rfl

/-- Every position is that of an element of one of the lists. -/
theorem exists_offset {L : List (List β)} {p : Nat} {x : β} (h : L.flatten[p]? = some x) :
    ∃ c l t, L[c]? = some l ∧ l[t]? = some x ∧ p = offset L c + t := by
  induction L generalizing p with
  | nil => simp at h
  | cons k L ih =>
    by_cases hp : p < k.length
    · rw [List.flatten_cons, List.getElem?_append_left hp] at h
      exact ⟨0, k, p, rfl, h, by simp [offset]⟩
    · rw [List.flatten_cons, List.getElem?_append_right (by omega)] at h
      obtain ⟨c, l, t, hl, hx, hpos⟩ := ih h
      refine ⟨c + 1, l, t, hl, hx, ?_⟩
      rw [offset_cons_succ]
      omega

theorem offset_length (L : List (List β)) : offset L L.length = L.flatten.length := by
  rw [offset, List.take_length]

theorem offset_mono (L : List (List β)) {c d : Nat} (h : c ≤ d) : offset L c ≤ offset L d :=
  ((List.take_sublist_take_left h).flatten).length_le

/-- No position is in two lists. -/
theorem offset_inj {L : List (List β)} {c d s t : Nat} {k l : List β} (hc : L[c]? = some k)
    (hd : L[d]? = some l) (hs : s < k.length) (ht : t < l.length)
    (h : offset L c + s = offset L d + t) : c = d ∧ s = t := by
  have hbefore : ∀ {a b u v : Nat} {x : List β}, L[a]? = some x → u < x.length → a < b →
      offset L a + u < offset L b + v := by
    intro a b u v x ha hu hab
    have hnext := offset_succ ha
    have hle := offset_mono L (Nat.succ_le_of_lt hab)
    rw [Nat.succ_eq_add_one] at hle
    omega
  rcases Nat.lt_trichotomy c d with hlt | rfl | hlt
  · have := hbefore (v := t) hc hs hlt
    omega
  · omega
  · have := hbefore (v := s) hd ht hlt
    omega

theorem offset_add_le {L : List (List β)} {c : Nat} {l : List β} (h : L[c]? = some l) :
    offset L c + l.length ≤ L.flatten.length := by
  rw [← offset_succ h, offset]
  exact ((List.take_sublist (c + 1) L).flatten).length_le

/-- An array is made of lists if each of their elements is read from it. -/
theorem toList_eq_flatten {a : Array β} {L : List (List β)} (hsize : a.size = L.flatten.length)
    (h : ∀ c l t x, L[c]? = some l → l[t]? = some x → a[offset L c + t]? = some x) :
    a.toList = L.flatten := by
  apply List.ext_getElem
  · rw [Array.length_toList, hsize]
  · intro p hp hp'
    obtain ⟨c, l, t, hl, hx, hplace⟩ := exists_offset (List.getElem?_eq_getElem hp')
    have hget := h c l t _ hl hx
    rw [← hplace, ← Array.getElem?_toList, List.getElem?_eq_getElem hp, Option.some_inj] at hget
    exact hget

/-- The beginning of a list is a slice of the array. -/
theorem slice?_flatten {a : Array β} {L : List (List β)} (ha : a.toList = L.flatten) {c : Nat}
    {l : List β} (h : L[c]? = some l) {t : Nat} (ht : t ≤ l.length) :
    slice? a (offset L c) (offset L c + t) = some (l.take t) := by
  have hsize : a.size = L.flatten.length := by rw [← ha, Array.length_toList]
  have hle := offset_add_le h
  rw [slice?, if_pos (by omega), Option.some_inj, Array.toList_extract, ha]
  apply List.ext_getElem?
  intro i
  rw [List.extract_eq_take_drop, List.getElem?_take, List.getElem?_drop, List.getElem?_take]
  by_cases hi : i < t
  · rw [if_pos (by omega), if_pos hi, getElem?_flatten_offset h (by omega)]
  · rw [if_neg (by omega), if_neg hi]

/-- Changing an element of one of the lists. -/
theorem alter?_flatten {a : Array β} {L : List (List β)} (ha : a.toList = L.flatten) {c : Nat}
    {l : List β} (h : L[c]? = some l) {t : Nat} (ht : t < l.length) (x : β) :
    ∃ b, alter? a (offset L c + t) (fun _ => x) = some b ∧
      b.toList = (L.set c (l.set t x)).flatten := by
  have hsize : a.size = L.flatten.length := by rw [← ha, Array.length_toList]
  have hle := offset_add_le h
  refine ⟨_, alter?_eq_some (by omega) _, ?_⟩
  rw [Array.toList_set, ha, set_flatten h ht]

/-! ### Lists that are filled from their beginnings -/

/-- The lists with their beginnings overwritten by new ones. -/
def overlay (new : Nat → List β) (old : List (List β)) : List (List β) :=
  old.mapIdx fun c l => new c ++ l.drop (new c).length

theorem getElem?_overlay {new : Nat → List β} {old : List (List β)} {c : Nat} {l : List β}
    (h : old[c]? = some l) :
    (overlay new old)[c]? = some (new c ++ l.drop (new c).length) := by
  rw [overlay, List.getElem?_mapIdx, h]
  rfl

/-- No beginning is longer than the list that it overwrites. -/
def Fits (new : Nat → List β) (old : List (List β)) : Prop :=
  ∀ c l, old[c]? = some l → (new c).length ≤ l.length

theorem Fits.map_length {new : Nat → List β} {old : List (List β)} (h : Fits new old) :
    (overlay new old).map List.length = old.map List.length := by
  apply List.ext_getElem?
  intro c
  cases hc : old[c]? with
  | none =>
    have : (overlay new old)[c]? = none := by
      rw [overlay, List.getElem?_mapIdx, hc]
      rfl
    rw [List.getElem?_map, List.getElem?_map, this, hc]
  | some l =>
    have := h c l hc
    rw [List.getElem?_map, List.getElem?_map, getElem?_overlay hc, hc]
    simp
    omega

theorem length_overlay (new : Nat → List β) (old : List (List β)) :
    (overlay new old).length = old.length := List.length_mapIdx

theorem Fits.overlay {new new' : Nat → List β} {old : List (List β)} (h : Fits new old)
    (h' : Fits new' old) : Fits new' (overlay new old) := by
  intro c l hl
  have hc : c < old.length := by
    rw [← length_overlay new old]
    exact (List.getElem?_eq_some_iff.mp hl).1
  have hold := List.getElem?_eq_getElem hc
  have := h c _ hold
  have := h' c _ hold
  rw [getElem?_overlay hold, Option.some_inj] at hl
  rw [← hl, List.length_append, List.length_drop]
  omega

theorem overlay_nil (old : List (List β)) : overlay (fun _ => []) old = old := by
  apply List.ext_getElem?
  intro c
  cases hc : old[c]? <;> simp [overlay, List.getElem?_mapIdx, hc]

/-- Lists that are overwritten at most once by either of two. -/
theorem overlay_overlay {new new' : Nat → List β} {old : List (List β)}
    (h : ∀ c, new c = [] ∨ new' c = []) :
    overlay new (overlay new' old) = overlay (fun c => new c ++ new' c) old := by
  apply List.ext_getElem?
  intro c
  rcases h c with hc | hc <;>
    simp [overlay, List.getElem?_mapIdx, hc, Function.comp_def]

/-- One more element behind the beginning of a list. -/
theorem set_beginning (l old : List β) (h : l.length < old.length) (x : β) :
    (l ++ old.drop l.length).set l.length x = l ++ [x] ++ old.drop (l ++ [x]).length := by
  rw [List.set_append_right _ _ (Nat.le_refl _), Nat.sub_self, List.drop_eq_getElem_cons h,
    List.set_cons_zero, List.length_append, List.append_assoc]
  rfl

/-- One more element in one of the lists. -/
theorem overlay_push {new : Nat → List β} {old : List (List β)} {c : Nat} {l : List β}
    (h : old[c]? = some l) (hroom : (new c).length < l.length) (x : β) :
    (overlay new old).set c ((new c ++ l.drop (new c).length).set (new c).length x)
      = overlay (Function.update new c (new c ++ [x])) old := by
  apply List.ext_getElem?
  intro d
  rw [List.getElem?_set]
  by_cases hd : c = d
  · subst hd
    have hlt : c < (overlay new old).length := by
      simpa [overlay] using (List.getElem?_eq_some_iff.mp h).1
    rw [if_pos rfl, if_pos hlt, set_beginning _ _ hroom, getElem?_overlay h, Function.update_self]
  · rw [if_neg hd]
    simp [overlay, List.getElem?_mapIdx, Function.update_of_ne (Ne.symm hd)]

/-! ### Placed items -/

/-- The items of list `c`, in the order in which they come. -/
def itemsOf (items : List (Nat × β)) (c : Nat) : List β :=
  (items.filter fun e => e.1 == c).map Prod.snd

theorem itemsOf_append (items : List (Nat × β)) (e : Nat × β) :
    itemsOf (items ++ [e])
      = Function.update (itemsOf items) e.1 (itemsOf items e.1 ++ [e.2]) := by
  funext c
  by_cases hc : e.1 = c
  · subst hc
    simp [itemsOf]
  · rw [Function.update_of_ne (Ne.symm hc)]
    simp [itemsOf, hc]

theorem length_itemsOf_take_le (items : List (Nat × β)) (k c : Nat) :
    (itemsOf (items.take k) c).length ≤ (itemsOf items c).length := by
  rw [itemsOf, itemsOf, List.length_map, List.length_map]
  exact ((List.take_sublist k items).filter _).length_le

/-- An item comes in its list after the items of this list that came before. -/
theorem getElem?_itemsOf {items : List (Nat × β)} {k : Nat} {e : Nat × β}
    (h : items[k]? = some e) :
    (itemsOf items e.1)[(itemsOf (items.take k) e.1).length]? = some e.2 := by
  obtain ⟨hk, hget⟩ := List.getElem?_eq_some_iff.mp h
  have hsplit : items = items.take k ++ e :: items.drop (k + 1) := by
    rw [← hget, ← List.drop_eq_getElem_cons hk, List.take_append_drop]
  have hitems : itemsOf items e.1
      = itemsOf (items.take k) e.1 ++ e.2 :: itemsOf (items.drop (k + 1)) e.1 := by
    conv_lhs => rw [hsplit]
    simp [itemsOf]
  rw [hitems, List.getElem?_append_right (Nat.le_refl _), Nat.sub_self]
  rfl

namespace Placement

/-- `items` have been placed over the beginnings of the lists `old`. -/
structure Holds (old : List (List β)) (items : List (Nat × β)) (s : Placement β) : Prop where
  next : ∀ c < old.length, s.next[c]? = some (offset old c + (itemsOf items c).length)
  cells : s.cells.toList = (overlay (itemsOf items) old).flatten
  size_places : s.places.size = items.length
  places : ∀ k e, items[k]? = some e →
    s.places[k]? = some (offset old e.1 + (itemsOf (items.take k) e.1).length)

variable {old : List (List β)} {items : List (Nat × β)} {s : Placement β}

theorem place?_holds (h : s.Holds old items) (hfits : Fits (itemsOf items) old) {e : Nat × β}
    {l : List β} (hl : old[e.1]? = some l) (hroom : (itemsOf items e.1).length < l.length) :
    ∃ t, s.place? e = some t ∧ t.Holds old (items ++ [e]) := by
  have hc : e.1 < old.length := (List.getElem?_eq_some_iff.mp hl).1
  have hplace := h.next e.1 hc
  obtain ⟨cells, halter, hcells⟩ := alter?_flatten h.cells (getElem?_overlay hl)
    (t := (itemsOf items e.1).length) (by simp; omega) e.2
  rw [offset_congr hfits.map_length] at halter
  rw [overlay_push hl hroom, ← itemsOf_append] at hcells
  have hnextlt : e.1 < s.next.size := (Array.getElem?_eq_some_iff.mp hplace).1
  have hnext := alter?_eq_some hnextlt (· + 1)
  refine ⟨⟨s.next.set e.1 (s.next[e.1] + 1), cells,
    s.places.push (offset old e.1 + (itemsOf items e.1).length)⟩, ?_, ?_, hcells, ?_, ?_⟩
  · simp only [place?, bind, hplace, Option.bind_some, halter, hnext]
    rfl
  · intro c hlt
    have hget := getElem?_alter hnext c
    simp only at hget ⊢
    rw [hget, h.next c hlt, itemsOf_append]
    by_cases hce : e.1 = c
    · subst hce
      simp
      omega
    · rw [if_neg hce, Function.update_of_ne (Ne.symm hce)]
  · rw [Array.size_push, h.size_places, List.length_append, List.length_singleton]
  · intro k d hk
    rw [Array.getElem?_push, h.size_places]
    by_cases hlast : k = items.length
    · subst hlast
      obtain rfl : e = d := by simpa using hk
      simp
    · have hlt : k < items.length := by
        have := (List.getElem?_eq_some_iff.mp hk).1
        simp at this
        omega
      rw [List.getElem?_append_left hlt] at hk
      rw [if_neg hlast, h.places k d hk, List.take_append_of_le_length (Nat.le_of_lt hlt)]

/-- Placing the rest of the items, one after the other. -/
theorem foldlM_place?_holds (hkeys : ∀ e ∈ items, e.1 < old.length)
    (hfits : Fits (itemsOf items) old) (rest done : List (Nat × β)) (s : Placement β)
    (hdone : done ++ rest = items) (h : s.Holds old done) :
    ∃ t, rest.foldlM place? s = some t ∧ t.Holds old items := by
  induction rest generalizing done s with
  | nil =>
    rw [List.append_nil] at hdone
    exact ⟨s, rfl, hdone ▸ h⟩
  | cons e rest ih =>
    have hdone : done ++ [e] ++ rest = items := by simpa using hdone
    have hfewer : ∀ c, (itemsOf (done ++ [e]) c).length ≤ (itemsOf items c).length := by
      intro c
      have := length_itemsOf_take_le items (done ++ [e]).length c
      rwa [← hdone, List.take_left, hdone] at this
    have hpushed : ∀ c, (itemsOf (done ++ [e]) c).length
        = (itemsOf done c).length + if e.1 = c then 1 else 0 := by
      intro c
      by_cases hc : e.1 = c <;> simp [itemsOf, hc]
    obtain ⟨l, hl⟩ : ∃ l, old[e.1]? = some l :=
      ⟨_, List.getElem?_eq_getElem (hkeys e (by simp [← hdone]))⟩
    have hroom : (itemsOf done e.1).length < l.length := by
      have := hfewer e.1
      have := hpushed e.1
      have := hfits e.1 l hl
      simp_all
      omega
    have hfits' : Fits (itemsOf done) old := by
      intro c k hk
      have := hfewer c
      have := hpushed c
      have := hfits c k hk
      omega
    obtain ⟨t, ht, hholds⟩ := place?_holds h hfits' hl hroom
    obtain ⟨u, hu, hall⟩ := ih (done ++ [e]) t hdone hholds
    exact ⟨u, by rw [List.foldlM_cons, ht]; exact hu, hall⟩

end Placement

/-- Items for which there is room are all placed. -/
theorem distribute?_holds {next : Array Nat} {cells : Array β} {old : List (List β)}
    (items : List (Nat × β)) (hnext : ∀ c < old.length, next[c]? = some (offset old c))
    (hcells : cells.toList = old.flatten) (hkeys : ∀ e ∈ items, e.1 < old.length)
    (hfits : Fits (itemsOf items) old) :
    ∃ s, distribute? next cells items = some s ∧ s.Holds old items := by
  refine Placement.foldlM_place?_holds hkeys hfits items [] ⟨next, cells, #[]⟩ rfl
    ⟨fun c hc => ?_, ?_, rfl, fun k e hk => ?_⟩
  · simpa [itemsOf] using hnext c hc
  · rw [hcells, show itemsOf ([] : List (Nat × β)) = fun _ => [] from rfl, overlay_nil]
  · simp at hk

/-! ### Items given by a list of slots -/

section Slots

variable {σ : Type} {S : List σ} {key : σ → Nat}

theorem itemsOf_map (S : List σ) (key : σ → Nat) (f : σ → β) (c : Nat) :
    itemsOf (S.map fun s => (key s, f s)) c = (S.filter fun s => key s == c).map f := by
  rw [itemsOf, List.filter_map, List.map_map]
  rfl

/-- The items that come before an item in its list are as many as its rank. -/
theorem length_itemsOf_take (hnodup : S.Nodup) (f : σ → β) {k t : Nat} {s : σ}
    (hk : S[k]? = some s) (ht : (S.filter fun r => key r == key s)[t]? = some s) :
    (itemsOf ((S.map fun s => (key s, f s)).take k) (key s)).length = t := by
  have hitem : (S.map fun s => (key s, s))[k]? = some (key s, s) := by simp [hk]
  have hrank := getElem?_itemsOf hitem
  simp only [← List.map_take, itemsOf_map, List.map_id', List.length_map] at hrank ⊢
  exact (List.getElem?_inj (List.getElem?_eq_some_iff.mp hrank).1 (hnodup.filter _)).mp
    (hrank.trans ht.symm)

/-- The place of an item is as far behind the beginning of its list as its rank tells. -/
theorem Placement.Holds.places_iff {old : List (List β)} {f : σ → β} {s : Placement β}
    (h : s.Holds old (S.map fun x => (key x, f x))) (hnodup : S.Nodup) {k p : Nat} :
    s.places[k]? = some p ↔ ∃ x t, S[k]? = some x ∧
      (S.filter fun r => key r == key x)[t]? = some x ∧ p = offset old (key x) + t := by
  have hplace : ∀ {x t}, S[k]? = some x → (S.filter fun r => key r == key x)[t]? = some x →
      s.places[k]? = some (offset old (key x) + t) := by
    intro x t hk ht
    rw [h.places k (key x, f x) (by simp [hk]), length_itemsOf_take hnodup f hk ht]
  constructor
  · intro hp
    have hlt : k < S.length := by
      have := (Array.getElem?_eq_some_iff.mp hp).1
      rwa [h.size_places, List.length_map] at this
    have hk := List.getElem?_eq_getElem hlt
    have hmem : S[k] ∈ S.filter fun r => key r == key S[k] :=
      List.mem_filter.mpr ⟨List.getElem_mem hlt, beq_self_eq_true _⟩
    obtain ⟨t, ht⟩ := List.mem_iff_getElem?.mp hmem
    rw [hplace hk ht, Option.some_inj] at hp
    exact ⟨S[k], t, hk, ht, hp.symm⟩
  · rintro ⟨x, t, hk, ht, rfl⟩
    exact hplace hk ht

end Slots

/-! ### Lists whose lengths are counted first -/

section Sorted

variable {σ : Type} {n : Nat} (key : σ → Fin n) (S : List σ)

/-- The elements with each of the keys `0 … n - 1`, in their order. -/
def byKey : List (List σ) := (List.finRange n).map fun c => S.filter fun x => key x == c

theorem getElem?_byKey (c : Fin n) : (byKey key S)[c.val]? = some (S.filter fun x => key x == c) := by
  simp [byKey]

theorem filter_val_key (c : Fin n) :
    (S.filter fun x => (key x).val == c.val) = S.filter fun x => key x == c :=
  List.filter_congr fun x _ => by simp [Fin.ext_iff]

variable {key S} in
theorem mem_flatten_byKey {x : σ} : x ∈ (byKey key S).flatten ↔ x ∈ S := by
  simp [byKey]

/-- Every element has one of the keys. -/
theorem length_flatten_byKey : (byKey key S).flatten.length = S.length := by
  have hsum : ∑ c, (S.filter fun x => key x == c).length = S.length := by
    induction S with
    | nil => simp
    | cons x S ih =>
      have hstep : ∀ c, ((x :: S).filter fun y => key y == c).length
          = (S.filter fun y => key y == c).length + if key x = c then 1 else 0 := by
        intro c
        by_cases hc : key x = c <;> simp [hc]
      simp only [hstep, Finset.sum_add_distrib, ih, List.length_cons]
      simp
  rw [List.length_flatten, byKey, List.map_map, ← hsum, Fin.sum_univ_def]
  rfl

theorem tally?_byKey : ∃ counts, tally? n (S.map fun x => (key x).val) = some counts ∧
    counts.toList = (byKey key S).map List.length := by
  have hkeys : ∀ k ∈ S.map fun x => (key x).val, k < n := by
    intro k hk
    obtain ⟨x, -, rfl⟩ := List.mem_map.mp hk
    exact (key x).isLt
  obtain ⟨counts, hcounts, hsize, hget⟩ := tally?_eq_some hkeys
  refine ⟨counts, hcounts, List.ext_getElem? fun c => ?_⟩
  rw [Array.getElem?_toList]
  by_cases hc : c < n
  · have hfilter := getElem?_byKey key S ⟨c, hc⟩
    rw [hget c hc, List.getElem?_map, hfilter, Option.map_some, ← filter_val_key,
      List.count_eq_length_filter, List.filter_map, List.length_map]
    rfl
  · rw [Array.getElem?_eq_none (by omega), List.getElem?_eq_none (by simp [byKey]; omega)]

/-- An element comes at its rank behind those with smaller keys. -/
theorem getElem?_flatten_byKey {p : Nat} {x : σ} : (byKey key S).flatten[p]? = some x ↔
    ∃ t, (S.filter fun y => key y == key x)[t]? = some x ∧
      p = offset (byKey key S) (key x) + t := by
  constructor
  · intro hp
    obtain ⟨c, l, t, hl, hx, rfl⟩ := exists_offset hp
    have hc : c < n := by simpa [byKey] using (List.getElem?_eq_some_iff.mp hl).1
    rw [getElem?_byKey key S ⟨c, hc⟩, Option.some_inj] at hl
    have hkey : key x = ⟨c, hc⟩ := by
      have hmem := List.mem_of_getElem? hx
      rw [← hl, List.mem_filter] at hmem
      exact eq_of_beq hmem.2
    exact ⟨t, by rw [hkey, hl, hx], by rw [hkey]⟩
  · rintro ⟨t, ht, rfl⟩
    rw [getElem?_flatten_offset (getElem?_byKey key S (key x))
      (List.getElem?_eq_some_iff.mp ht).1, ht]

theorem itemsOf_byKey (item : σ → β) (c : Fin n) :
    itemsOf (S.map fun x => ((key x).val, item x)) c.val
      = (S.filter fun x => key x == c).map item := by
  rw [itemsOf_map S (fun x => (key x).val), filter_val_key]

/-- The items fill their lists. -/
theorem overlay_byKey (item : σ → β) (x₀ : β) :
    overlay (itemsOf (S.map fun x => ((key x).val, item x)))
      ((byKey key S).map (List.map fun _ => x₀)) = (byKey key S).map (List.map item) := by
  apply List.ext_getElem?
  intro c
  by_cases hc : c < n
  · have hlist := getElem?_byKey key S ⟨c, hc⟩
    have hold : ((byKey key S).map (List.map fun _ => x₀))[c]?
        = some ((S.filter fun x => key x == ⟨c, hc⟩).map fun _ => x₀) := by
      rw [List.getElem?_map, hlist]
      rfl
    rw [getElem?_overlay hold, List.getElem?_map, hlist, itemsOf_byKey key S item ⟨c, hc⟩]
    simp
  · rw [List.getElem?_eq_none (by rw [length_overlay]; simp [byKey]; omega),
      List.getElem?_eq_none (by simp [byKey]; omega)]

/-- Items that are placed by the counts of their keys are sorted by them, and each is
found at its recorded place. -/
theorem distribute?_byKey (hnodup : S.Nodup) (item : σ → β) (x₀ : β) :
    ∃ s, distribute? (pointers ((byKey key S).map List.length))
        (Array.replicate S.length x₀) (S.map fun x => ((key x).val, item x)) = some s ∧
      s.cells.toList = (byKey key S).flatten.map item ∧ s.places.size = S.length ∧
      ∀ k p : Nat, s.places[k]? = some p ↔
        ∃ x, S[k]? = some x ∧ (byKey key S).flatten[p]? = some x := by
  let old : List (List β) := (byKey key S).map (List.map fun _ => x₀)
  have hlengths : old.map List.length = (byKey key S).map List.length := by
    simp [old, Function.comp_def]
  have hcount : old.length = n := by simp [old, byKey]
  have hnext : ∀ c < old.length,
      (pointers ((byKey key S).map List.length))[c]? = some (offset old c) := by
    intro c hc
    rw [getElem?_pointers_map _ (by simp [byKey]; omega), offset_congr hlengths]
  have hcells : (Array.replicate S.length x₀).toList = old.flatten := by
    rw [Array.toList_replicate, ← List.map_flatten, List.map_const', length_flatten_byKey]
  have hkeys : ∀ e ∈ S.map fun x => ((key x).val, item x), e.1 < old.length := by
    intro e he
    obtain ⟨x, -, rfl⟩ := List.mem_map.mp he
    rw [hcount]
    exact (key x).isLt
  have hfits : Fits (itemsOf (S.map fun x => ((key x).val, item x))) old := by
    intro c l hl
    have hc : c < n := hcount ▸ (List.getElem?_eq_some_iff.mp hl).1
    rw [List.getElem?_map, getElem?_byKey key S ⟨c, hc⟩, Option.map_some, Option.some_inj] at hl
    rw [itemsOf_byKey key S item ⟨c, hc⟩, ← hl]
    simp
  obtain ⟨s, hs, hholds⟩ := distribute?_holds _ hnext hcells hkeys hfits
  refine ⟨s, hs, ?_, by rw [hholds.size_places, List.length_map], fun k p => ?_⟩
  · rw [hholds.cells, overlay_byKey, List.map_flatten]
  · simp only [hholds.places_iff hnodup, getElem?_flatten_byKey, filter_val_key,
      offset_congr hlengths, exists_and_left]

end Sorted

end QuadOpt
