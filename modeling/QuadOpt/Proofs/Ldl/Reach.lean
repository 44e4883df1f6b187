/-
# Reaching a column in a forest

The pattern of a row of the factor is the set of columns below it that the rows
of its column of the triangle reach upwards in the forest, and it is listed in an
order in which nothing comes after what it reaches. Both hold of any forest.
Parents that are added to a forest leave the patterns of rows that reach their
column as they are.

Key definitions: `Forest.Reaches`, `Forest.IsPattern`, `Forest.Ascending`,
`Forest.Extends`.
Key theorems: `Forest.isPattern_rowPattern`, `Forest.Reaches.of_extends`,
`Forest.Extends.mem_rowPattern`.
-/
import Mathlib.Order.Fin.Basic
import Mathlib.Logic.Relation
import QuadOpt.Ldl.Forest

namespace QuadOpt.Forest

variable {n : Nat} {F G : Forest n} {i j k v : Fin n}

/-- Column `j` is `i` or above it. -/
def Reaches (F : Forest n) (i j : Fin n) : Prop :=
  Relation.ReflTransGen (fun a b => F.parent.get a = some b) i j

namespace Reaches

theorem refl (F : Forest n) (i : Fin n) : F.Reaches i i := Relation.ReflTransGen.refl

theorem le (h : F.Reaches i j) : i ≤ j := by
  induction h with
  | refl => exact Nat.le_refl _
  | tail _ hp ih => exact Nat.le_trans ih (Nat.le_of_lt (F.lt_parent _ _ hp))

theorem trans (h : F.Reaches i j) (h' : F.Reaches j k) : F.Reaches i k :=
  Relation.ReflTransGen.trans h h'

theorem of_parent {p : Fin n} (hp : F.parent.get i = some p) (h : F.Reaches p j) : F.Reaches i j :=
  Relation.ReflTransGen.head hp h

/-- What is reached is on one path. -/
theorem of_le (hj : F.Reaches i j) (hk : F.Reaches i k) (hjk : j ≤ k) : F.Reaches j k := by
  have hunique : Relator.RightUnique fun a b : Fin n => F.parent.get a = some b := by
    intro a b c hb hc
    exact Option.some_inj.mp (hb.symm.trans hc)
  rcases Relation.ReflTransGen.total_of_right_unique hunique hj hk with h | h
  · exact h
  · obtain rfl : j = k := Fin.le_antisymm hjk (Reaches.le h)
    exact refl F j

end Reaches

theorem reaches_of_parent_eq_some {p : Fin n} (hp : F.parent.get i = some p) :
    F.Reaches i j ↔ i = j ∨ F.Reaches p j := by
  rw [Reaches, Relation.ReflTransGen.cases_head_iff]
  simp only [hp, Option.some_inj]
  constructor
  · rintro (h | ⟨q, rfl, hq⟩)
    · exact .inl h
    · exact .inr hq
  · rintro (h | h)
    · exact .inl h
    · exact .inr ⟨p, rfl, h⟩

theorem reaches_of_parent_eq_none (hp : F.parent.get i = none) : F.Reaches i j ↔ i = j := by
  rw [Reaches, Relation.ReflTransGen.cases_head_iff]
  simp [hp]

/-! ### Patterns -/

/-- `l` lists what `rows` reach below `k`, and nothing in it comes after what it
reaches. -/
structure IsPattern (F : Forest n) (k : Fin n) (rows l : List (Fin n)) : Prop where
  mem_iff : ∀ v, v ∈ l ↔ v < k ∧ ∃ r ∈ rows, F.Reaches r v
  ordered : l.Pairwise fun a b => ¬F.Reaches b a

namespace IsPattern

variable {rows l : List (Fin n)}

theorem nodup (h : F.IsPattern k rows l) : l.Nodup := by
  refine h.ordered.imp ?_
  rintro a _ hnot rfl
  exact hnot (Reaches.refl F a)

theorem closed (h : F.IsPattern k rows l) (hi : i ∈ l) (hij : F.Reaches i j) (hj : j < k) :
    j ∈ l := by
  obtain ⟨_, r, hr, hri⟩ := (h.mem_iff i).mp hi
  exact (h.mem_iff j).mpr ⟨hj, r, hr, hri.trans hij⟩

end IsPattern

theorem path_of_stop {stop : Fin n → Bool} (h : stop i = true) : F.path stop i = [] := by
  rw [path, if_pos h]

theorem path_of_none {stop : Fin n → Bool} (h : stop i = false) (hp : F.parent.get i = none) :
    F.path stop i = [i] := by
  rw [path, if_neg (by simp [h])]
  split
  · rfl
  · rename_i hp'
    rw [hp] at hp'
    cases hp'

theorem path_of_some {stop : Fin n → Bool} {p : Fin n} (h : stop i = false)
    (hp : F.parent.get i = some p) : F.path stop i = i :: F.path stop p := by
  rw [path, if_neg (by simp [h])]
  split
  · rename_i hp'
    rw [hp] at hp'
    cases hp'
  · rename_i hp'
    rw [hp] at hp'
    cases hp'
    rfl

/-- Induction from the columns without a parent downwards. -/
theorem upward_induction (F : Forest n) {motive : Fin n → Prop}
    (step : ∀ i, (∀ p, F.parent.get i = some p → motive p) → motive i) (i : Fin n) : motive i := by
  induction hd : n - i.val using Nat.strong_induction_on generalizing i with
  | _ d ih =>
    refine step i fun p hp => ih (n - p.val) ?_ p rfl
    have := F.lt_parent i p hp
    omega

theorem reaches_of_mem_path {stop : Fin n → Bool} : v ∈ F.path stop i → F.Reaches i v := by
  induction i using F.upward_induction with
  | step i ih =>
    intro h
    cases hstop : stop i with
    | true => simp [path_of_stop hstop] at h
    | false =>
      cases hp : F.parent.get i with
      | none =>
        rw [path_of_none hstop hp, List.mem_singleton] at h
        exact h ▸ Reaches.refl F v
      | some p =>
        rw [path_of_some hstop hp, List.mem_cons] at h
        rcases h with rfl | h
        · exact Reaches.refl F v
        · exact Reaches.of_parent hp (ih p hp h)

theorem not_stop_of_mem_path {stop : Fin n → Bool} : v ∈ F.path stop i → stop v = false := by
  induction i using F.upward_induction with
  | step i ih =>
    intro h
    cases hstop : stop i with
    | true => simp [path_of_stop hstop] at h
    | false =>
      cases hp : F.parent.get i with
      | none =>
        rw [path_of_none hstop hp, List.mem_singleton] at h
        exact h ▸ hstop
      | some p =>
        rw [path_of_some hstop hp, List.mem_cons] at h
        rcases h with rfl | h
        · exact hstop
        · exact ih p hp h

/-- What is reached without a stop on the way is on the path. -/
theorem mem_path {stop : Fin n → Bool} : F.Reaches i v →
    (∀ a, F.Reaches i a → F.Reaches a v → stop a = false) → v ∈ F.path stop i := by
  induction i using F.upward_induction with
  | step i ih =>
    intro hreach hstops
    have hstop := hstops i (Reaches.refl F i) hreach
    cases hp : F.parent.get i with
    | none =>
      rw [path_of_none hstop hp, List.mem_singleton]
      exact ((reaches_of_parent_eq_none hp).mp hreach).symm
    | some p =>
      rw [path_of_some hstop hp, List.mem_cons]
      rcases (reaches_of_parent_eq_some hp).mp hreach with rfl | hpv
      · exact .inl rfl
      · exact .inr (ih p hp hpv fun a hpa hav => hstops a (Reaches.of_parent hp hpa) hav)

theorem ordered_path (F : Forest n) (stop : Fin n → Bool) (i : Fin n) :
    (F.path stop i).Pairwise fun a b => ¬F.Reaches b a := by
  induction i using F.upward_induction with
  | step i ih =>
    cases hstop : stop i with
    | true =>
      rw [path_of_stop hstop]
      exact .nil
    | false =>
      cases hp : F.parent.get i with
      | none =>
        rw [path_of_none hstop hp]
        exact List.pairwise_singleton _ i
      | some p =>
        rw [path_of_some hstop hp]
        refine List.pairwise_cons.mpr ⟨fun b hb hba => ?_, ih p hp⟩
        have hlt := F.lt_parent i p hp
        have hpb := (reaches_of_mem_path hb).le
        have := hba.le
        omega

theorem isPattern_nil (F : Forest n) (k : Fin n) : F.IsPattern k [] [] := ⟨by simp, .nil⟩

/-- The path from one more row goes in front of a pattern. -/
theorem IsPattern.append_path {rows l : List (Fin n)} (h : F.IsPattern k rows l) (i : Fin n) :
    F.IsPattern k (rows ++ [i])
      (F.path (fun c => decide (k ≤ c) || l.contains c) i ++ l) := by
  have hstop : ∀ a, (decide (k ≤ a) || l.contains a) = false ↔ a < k ∧ a ∉ l := by
    intro a
    simp only [Bool.or_eq_false_iff, decide_eq_false_iff_not, Fin.not_le, List.contains_eq_mem]
  constructor
  · intro v
    have hpath : v ∈ F.path (fun c => decide (k ≤ c) || l.contains c) i ∨ v ∈ l ↔
        v < k ∧ F.Reaches i v ∨ v ∈ l := by
      constructor
      · rintro (hv | hv)
        · exact .inl ⟨((hstop v).mp (not_stop_of_mem_path hv)).1, reaches_of_mem_path hv⟩
        · exact .inr hv
      · rintro (⟨hlt, hreach⟩ | hv)
        · by_cases hv : v ∈ l
          · exact .inr hv
          · -- A stop on the way to `v` would be in `l`, and so would be `v`.
            refine .inl (mem_path hreach fun a _ hav => (hstop a).mpr ⟨?_, fun ha => ?_⟩)
            · exact Nat.lt_of_le_of_lt hav.le hlt
            · exact hv (h.closed ha hav hlt)
        · exact .inr hv
    rw [List.mem_append, hpath, h.mem_iff v]
    simp only [List.mem_append, List.mem_singleton, or_and_right, exists_or, exists_eq_left]
    constructor
    · rintro (⟨hlt, hreach⟩ | ⟨hlt, hrows⟩)
      · exact ⟨hlt, .inr hreach⟩
      · exact ⟨hlt, .inl hrows⟩
    · rintro ⟨hlt, hrows | hreach⟩
      · exact .inr ⟨hlt, hrows⟩
      · exact .inl ⟨hlt, hreach⟩
  · refine List.pairwise_append.mpr ⟨ordered_path F _ i, h.ordered, fun a ha b hb hba => ?_⟩
    obtain ⟨hlt, hnot⟩ := (hstop a).mp (not_stop_of_mem_path ha)
    exact hnot (h.closed hb hba hlt)

/-- What a row pattern lists, and in what order. -/
theorem isPattern_rowPattern (F : Forest n) (k : Fin n) (rows : List (Fin n)) :
    F.IsPattern k rows (F.rowPattern k rows) := by
  have hfold : ∀ (rows before l : List (Fin n)), F.IsPattern k before l →
      F.IsPattern k (before ++ rows) (rows.foldl
        (fun seen i => F.path (fun c => decide (k ≤ c) || seen.contains c) i ++ seen) l) := by
    intro rows
    induction rows with
    | nil =>
      intro before l h
      rw [List.append_nil]
      exact h
    | cons i rows ih =>
      intro before l h
      rw [List.append_cons]
      exact ih _ _ (h.append_path i)
  exact hfold rows [] [] (isPattern_nil F k)

theorem mem_rowPattern {rows : List (Fin n)} :
    v ∈ F.rowPattern k rows ↔ v < k ∧ ∃ r ∈ rows, F.Reaches r v :=
  (isPattern_rowPattern F k rows).mem_iff v

/-! ### Suffixes of a pattern -/

/-- `l` lists columns below `k`, each before all else that it reaches below
`k`. -/
structure Ascending (F : Forest n) (k : Fin n) (l : List (Fin n)) : Prop where
  lt : ∀ i ∈ l, i < k
  closed : ∀ i ∈ l, ∀ j, F.Reaches i j → j < k → j ∈ l
  ordered : l.Pairwise fun a b => ¬F.Reaches b a

theorem IsPattern.ascending {rows l : List (Fin n)} (h : F.IsPattern k rows l) :
    F.Ascending k l where
  lt i hi := ((h.mem_iff i).mp hi).1
  closed _ hi _ hij hj := h.closed hi hij hj
  ordered := h.ordered

namespace Ascending

variable {l : List (Fin n)}

theorem notMem (h : F.Ascending k (i :: l)) : i ∉ l := fun hi =>
  (List.pairwise_cons.mp h.ordered).1 i hi (Reaches.refl F i)

/-- What is reached from the first column comes after it. -/
theorem mem_of_reaches (h : F.Ascending k (i :: l)) (hij : F.Reaches i j) (hne : j ≠ i)
    (hj : j < k) : j ∈ l :=
  (List.mem_cons.mp (h.closed i List.mem_cons_self j hij hj)).resolve_left hne

theorem tail (h : F.Ascending k (i :: l)) : F.Ascending k l where
  lt j hj := h.lt j (List.mem_cons_of_mem _ hj)
  closed a ha j haj hj := by
    rcases List.mem_cons.mp (h.closed a (List.mem_cons_of_mem _ ha) j haj hj) with rfl | hmem
    · exact absurd haj ((List.pairwise_cons.mp h.ordered).1 a ha)
    · exact hmem
  ordered := (List.pairwise_cons.mp h.ordered).2

end Ascending

/-! ### More parents -/

/-- The parents of `F` are parents of `G`. -/
def Extends (F G : Forest n) : Prop := ∀ a p, F.parent.get a = some p → G.parent.get a = some p

theorem Extends.refl (F : Forest n) : F.Extends F := fun _ _ h => h

theorem Extends.trans {H : Forest n} (h : F.Extends G) (h' : G.Extends H) : F.Extends H :=
  fun a p hp => h' a p (h a p hp)

theorem Reaches.mono (h : F.Extends G) (hij : F.Reaches i j) : G.Reaches i j :=
  Relation.ReflTransGen.mono h i j hij

/-- Up to a column that is reached anyway, no path is new. -/
theorem Reaches.of_extends (h : F.Extends G) (hij : F.Reaches i j) (hiv : G.Reaches i v)
    (hv : v ≤ j) : F.Reaches i v := by
  induction hij using Relation.ReflTransGen.head_induction_on with
  | refl =>
    obtain rfl : v = j := Fin.le_antisymm hv hiv.le
    exact Reaches.refl F v
  | head hp _ ih =>
    rcases (reaches_of_parent_eq_some (h _ _ hp)).mp hiv with rfl | hpv
    · exact Reaches.refl F _
    · exact Reaches.of_parent hp (ih hpv)

/-- More parents leave the pattern of a row alone that is reached from all rows
of its column. -/
theorem Extends.mem_rowPattern (h : F.Extends G) {rows : List (Fin n)}
    (hrows : ∀ r ∈ rows, r ≤ k → F.Reaches r k) :
    v ∈ G.rowPattern k rows ↔ v ∈ F.rowPattern k rows := by
  rw [Forest.mem_rowPattern, Forest.mem_rowPattern]
  refine and_congr_right fun hlt => exists_congr fun r => and_congr_right fun hr => ?_
  constructor
  · intro hreach
    have hle : r ≤ k := Nat.le_trans hreach.le (Nat.le_of_lt hlt)
    exact Reaches.of_extends h (hrows r hr hle) hreach (Nat.le_of_lt hlt)
  · exact Reaches.mono h

end QuadOpt.Forest
