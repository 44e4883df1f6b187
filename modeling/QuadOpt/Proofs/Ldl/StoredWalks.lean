/-
# The pattern of a row in place

The walks upwards from the rows of a column mark the columns that they meet and list
them behind those already pending, so that the pending columns are the pattern of the
row, the last one first. There is room for them because no column is listed twice, and
what the arrays of indices held before does not matter.

Key definitions: `LdlArrays.Pending`.
Key theorems: `LdlArrays.climb?_eq`, `LdlArrays.unwind?_eq`,
`LdlArrays.Pending.path`.
-/
import QuadOpt.Ldl.Storage
import QuadOpt.Proofs.Ldl.Shape
import QuadOpt.Proofs.Ldl.StoredColumns

namespace QuadOpt.LdlArrays

variable {α : Type} {n : Nat} {forest : Forest n} {k i : Fin n} {a : LdlArrays α n}

/-- A column is not below `k`, or one of those met before. -/
def stops (k : Fin n) (seen : List (Fin n)) (c : Fin n) : Bool := decide (k ≤ c) || seen.contains c

theorem stops_eq_false {seen : List (Fin n)} {c : Fin n} :
    stops k seen c = false ↔ c < k ∧ c ∉ seen := by
  simp [stops]

/-- One more element behind the beginning of a vector. -/
theorem take_put_succ {β : Type} (v : Vector β n) {t : Nat} (ht : t < n) (x : β) :
    (Vec.put v ⟨t, ht⟩ x).toList.take (t + 1) = v.toList.take t ++ [x] := by
  rw [toList_put, List.take_succ_eq_append_getElem (by simpa using ht), List.take_set_of_le,
    List.getElem_set_self]
  exact Nat.le_refl t

/-! ### Walks -/

section Climb

variable {seen : List (Fin n)} {length : Nat}

theorem climb?_of_stop (h : ¬(i < k ∧ a.visited.get i = false)) :
    climb? forest k i a length = some (a, length) := by
  rw [climb?, if_neg h]

theorem climb?_of_none (h : i < k ∧ a.visited.get i = false) (room : length < n)
    (hp : forest.parent.get i = none) : climb? forest k i a length
      = some ({ a with
          visited := Vec.put a.visited i true, path := Vec.put a.path ⟨length, room⟩ i },
        length + 1) := by
  rw [climb?, if_pos h, dif_pos room]
  split
  · rfl
  · rename_i hp'
    rw [hp] at hp'
    cases hp'

theorem climb?_of_some {p : Fin n} (h : i < k ∧ a.visited.get i = false) (room : length < n)
    (hp : forest.parent.get i = some p) : climb? forest k i a length
      = climb? forest k p { a with
          visited := Vec.put a.visited i true, path := Vec.put a.path ⟨length, room⟩ i }
        (length + 1) := by
  rw [climb?, if_pos h, dif_pos room]
  split
  · rename_i hp'
    rw [hp] at hp'
    cases hp'
  · rename_i hp'
    rw [hp] at hp'
    cases hp'
    rfl

theorem get_visited_put (visited : Vector Bool n) (i c : Fin n) :
    (Vec.put visited i true).get c = true ↔ visited.get c = true ∨ c = i := by
  rw [Vec.get_put_eq]
  by_cases hc : c = i <;> simp [hc]

/-- A walk marks the columns of its path and lists them. -/
theorem climb?_eq (forest : Forest n) (k : Fin n) (hlength : length ≤ i.val)
    (hvisited : ∀ c, i ≤ c → (a.visited.get c = true ↔ c ∈ seen)) :
    ∃ visited path, climb? forest k i a length
        = some ({ a with visited := visited, path := path },
            length + (forest.path (stops k seen) i).length) ∧
      (∀ c, visited.get c = true ↔ a.visited.get c = true ∨ c ∈ forest.path (stops k seen) i) ∧
      path.toList.take (length + (forest.path (stops k seen) i).length)
        = a.path.toList.take length ++ forest.path (stops k seen) i := by
  induction i using forest.upward_induction generalizing a length with
  | step i ih =>
    have hi : a.visited.get i = false ↔ i ∉ seen := by
      rw [← hvisited i (Fin.le_refl i), Bool.not_eq_true]
    by_cases hstop : stops k seen i = true
    · have hnot : ¬(i < k ∧ a.visited.get i = false) := by
        rw [hi, ← stops_eq_false, hstop]
        exact Bool.noConfusion
      rw [climb?_of_stop hnot, Forest.path_of_stop hstop]
      exact ⟨a.visited, a.path, rfl, by simp, by simp⟩
    · have hfalse : stops k seen i = false := by simpa using hstop
      have hmet : i < k ∧ a.visited.get i = false := by
        rw [hi]
        exact stops_eq_false.mp hfalse
      have room : length < n := Nat.lt_of_le_of_lt hlength i.isLt
      cases hp : forest.parent.get i with
      | none =>
        rw [climb?_of_none hmet room hp, Forest.path_of_none hfalse hp]
        exact ⟨_, _, rfl, fun c => by rw [get_visited_put, List.mem_singleton],
          take_put_succ a.path room i⟩
      | some p =>
        have hip : i < p := forest.lt_parent i p hp
        -- The column just marked is below the rest of the path.
        obtain ⟨visited, path, hrun, hmarked, hlisted⟩ := ih p hp
          (a := { a with
            visited := Vec.put a.visited i true, path := Vec.put a.path ⟨length, room⟩ i })
          (show length + 1 ≤ p.val by omega) (fun c hc => by
            rw [get_visited_put, hvisited c (by omega)]
            exact or_iff_left (by omega))
        have hcount : length + (i :: forest.path (stops k seen) p).length
            = length + 1 + (forest.path (stops k seen) p).length := by
          rw [List.length_cons]
          omega
        refine ⟨visited, path, ?_, fun c => ?_, ?_⟩
        · rw [climb?_of_some hmet room hp, hrun, Forest.path_of_some hfalse hp, hcount]
        · rw [hmarked, get_visited_put, Forest.path_of_some hfalse hp, List.mem_cons, or_assoc]
        · rw [Forest.path_of_some hfalse hp, hcount, hlisted, take_put_succ, List.append_assoc]
          rfl

end Climb

/-- The path is listed from its end behind what is pending. -/
theorem unwind?_eq (length count : Nat) (hroom : length + count ≤ n) :
    ∃ pending, a.unwind? length count = some ({ a with pending := pending }, length + count) ∧
      pending.toList.take (length + count)
        = a.pending.toList.take count ++ (a.path.toList.take length).reverse := by
  induction length generalizing a count with
  | zero => exact ⟨a.pending, by rw [unwind?, Nat.zero_add], by simp⟩
  | succ length ih =>
    have hlength : length < n := by omega
    have hcount : count < n := by omega
    obtain ⟨pending, hrun, hlisted⟩ := ih (a := { a with
      pending := Vec.put a.pending ⟨count, hcount⟩ (a.path.get ⟨length, hlength⟩) }) (count + 1)
      (by omega)
    have hsum : length + (count + 1) = length + 1 + count := by omega
    refine ⟨pending, ?_, ?_⟩
    · rw [unwind?, dif_pos ⟨hlength, hcount⟩, hrun, hsum]
    · have hlast : a.path.toList.take (length + 1)
          = a.path.toList.take length ++ [a.path.get ⟨length, hlength⟩] := by
        rw [List.take_succ_eq_append_getElem (by simpa using hlength)]
        simp [Vec.get_eq_getElem]
      rw [← hsum, hlisted, take_put_succ, hlast, List.reverse_append, List.append_assoc]
      rfl

/-! ### The pattern -/

/-- The columns met so far are marked and pending, the last one first. -/
structure Pending (a : LdlArrays α n) (count : Nat) (seen : List (Fin n)) : Prop where
  visited : ∀ c, a.visited.get c = true ↔ c ∈ seen
  count_eq : count = seen.length
  listed : a.pending.toList.take count = seen.reverse

/-- The columns that one more row reaches are pending behind the others. -/
theorem Pending.path {count : Nat} {seen rows : List (Fin n)} (h : a.Pending count seen)
    (hpattern : forest.IsPattern k rows seen) (i : Fin n) :
    ∃ visited pending path, (do
        let (a, length) ← climb? forest k i a 0
        a.unwind? length count) = some ({ a with
          visited := visited, pending := pending, path := path },
        (forest.path (stops k seen) i ++ seen).length) ∧
      Pending { a with visited := visited, pending := pending, path := path }
        (forest.path (stops k seen) i ++ seen).length (forest.path (stops k seen) i ++ seen) := by
  have hnodup := (hpattern.append_path i).nodup
  have hroom : (forest.path (stops k seen) i).length + count ≤ n := by
    have := hnodup.length_le_card
    rw [Fintype.card_fin, List.length_append] at this
    rw [h.count_eq]
    exact this
  obtain ⟨visited, path, hclimb, hmarked, hpath⟩ := climb?_eq forest k (Nat.zero_le i.val)
    fun c _ => h.visited c
  rw [Nat.zero_add] at hclimb hpath
  rw [List.take_zero, List.nil_append] at hpath
  obtain ⟨pending, hunwind, hlisted⟩ := unwind?_eq
    (a := { a with visited := visited, path := path }) _ count hroom
  have hcount : (forest.path (stops k seen) i).length + count
      = (forest.path (stops k seen) i ++ seen).length := by
    rw [h.count_eq, List.length_append]
  rw [hcount] at hunwind hlisted
  refine ⟨visited, pending, path, ?_, fun c => ?_, rfl, ?_⟩
  · rw [hclimb]
    exact hunwind
  · rw [hmarked, h.visited, List.mem_append, or_comm]
  · rw [hlisted, hpath, h.listed, List.reverse_append]

end QuadOpt.LdlArrays
