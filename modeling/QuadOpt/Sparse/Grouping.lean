/-
# Sorting into groups

Entries that belong to numbered columns or rows are sorted into lists, one for
each number, in a single pass; and lists that are stored one after the other
are told apart by where each of them starts.

Key definitions: `group`, `pointers`.
Key theorems: `get_group`, `getElem?_pointers`.
-/
import QuadOpt.Vec

namespace QuadOpt

variable {β : Type}

/-- The items with each of the keys `0 … n - 1`, in the order in which they are
listed. Items with other keys are left out. -/
def group (n : Nat) (key : β → Nat) (items : List β) : Vector (List β) n :=
  items.foldr (fun e groups =>
    if h : key e < n then Vec.put groups ⟨key e, h⟩ (e :: groups.get ⟨key e, h⟩)
    else groups) (Vector.replicate n [])

theorem get_group (n : Nat) (key : β → Nat) (items : List β) (j : Fin n) :
    (group n key items).get j = items.filter fun e => key e == j.val := by
  induction items with
  | nil => simp [group]
  | cons e items ih =>
    have step : group n key (e :: items) =
        if h : key e < n then
          Vec.put (group n key items) ⟨key e, h⟩ (e :: (group n key items).get ⟨key e, h⟩)
        else group n key items := rfl
    rw [step, List.filter_cons]
    by_cases h : key e < n
    · by_cases hj : key e = j.val
      · have : (⟨key e, h⟩ : Fin n) = j := Fin.ext hj
        subst this
        simp [h, ih]
      · have hne : (⟨key e, h⟩ : Fin n) ≠ j := fun he => hj (congrArg Fin.val he)
        simp [h, hj, Vec.get_put_ne _ hne, ih]
    · have hj : key e ≠ j.val := fun he => h (he ▸ j.isLt)
      simp [h, hj, ih]

/-- Where each of several lists starts when they are stored one after the other,
and where the last one ends, for lists of the given lengths. -/
def pointers (lengths : List Nat) : Array Nat :=
  (lengths.foldl (fun (s : Nat × Array Nat) k => (s.1 + k, s.2.push (s.1 + k))) (0, #[0])).2

theorem foldl_add_eq (ks : List Nat) (s : Nat) :
    ks.foldl (· + ·) s = s + ks.foldl (· + ·) 0 := by
  induction ks generalizing s with
  | nil => rfl
  | cons k ks ih =>
    rw [List.foldl_cons, List.foldl_cons, ih (s + k), ih (0 + k)]
    omega

theorem toList_pointers_aux (ks : List Nat) (s : Nat) (p : Array Nat) :
    (ks.foldl (fun (s : Nat × Array Nat) k => (s.1 + k, s.2.push (s.1 + k))) (s, p)).2.toList =
      p.toList ++ (List.range ks.length).map fun j => s + (ks.take (j + 1)).foldl (· + ·) 0 := by
  induction ks generalizing s p with
  | nil => simp
  | cons k ks ih =>
    rw [List.foldl_cons, ih, List.length_cons, List.range_succ_eq_map]
    simp only [Array.toList_push, List.append_assoc, List.singleton_append, List.map_cons,
      List.map_map, List.take_succ_cons, List.take_zero, List.foldl_cons, List.foldl_nil,
      Nat.zero_add]
    congr 2
    apply List.map_congr_left
    intro j _
    show s + k + (ks.take (j + 1)).foldl (· + ·) 0 = s + (ks.take (j + 1)).foldl (· + ·) k
    rw [foldl_add_eq _ k]
    omega

theorem toList_pointers (lengths : List Nat) :
    (pointers lengths).toList =
      (List.range (lengths.length + 1)).map fun j => (lengths.take j).foldl (· + ·) 0 := by
  rw [pointers, toList_pointers_aux, List.range_succ_eq_map]
  simp

@[simp] theorem size_pointers (lengths : List Nat) :
    (pointers lengths).size = lengths.length + 1 := by
  rw [← Array.length_toList, toList_pointers]
  simp

/-- A list starts after all lists before it. -/
theorem getElem?_pointers (lengths : List Nat) {j : Nat} (h : j ≤ lengths.length) :
    (pointers lengths)[j]? = some ((lengths.take j).foldl (· + ·) 0) := by
  rw [← Array.getElem?_toList, toList_pointers, List.getElem?_map,
    List.getElem?_range (by omega)]
  rfl

end QuadOpt
