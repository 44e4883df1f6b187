/-
# The elimination tree in arrays

The walks through the arrays are those of the analysis on lists: the columns that are marked
for the current row are those seen, so every walk ends, at the latest at the row itself, and
none goes on to a parent that there is not. It needs the rows of a column to be in the upper
triangle, in whatever order they come and however often.

Key definitions: `EliminationTree.Taking`, `EliminationTree.Taken`.
Key theorems: `EliminationTree.Taking.climb`, `EliminationTree.Taken.column`,
`Csc.eliminationTree?_storedColumns`.
-/
import QuadOpt.Ldl.Tree
import QuadOpt.Proofs.Ldl.Shape
import QuadOpt.Proofs.Ldl.StoredColumns

namespace QuadOpt

variable {α : Type} {n : Nat}

namespace EliminationTree

/-! ### Walks -/

section Climb

variable {T : EliminationTree} {i j : Nat}

theorem climb?_of_marked (h : T.marks[i]? = some j) : T.climb? j i = some T := by
  obtain ⟨hi, hmark⟩ := Array.getElem?_eq_some_iff.mp h
  rw [climb?, dif_pos hi, dif_pos hmark]

theorem climb?_of_unmarked {mark p : Nat} {counts : Array Nat} {parents : Array (Option Nat)}
    (h : T.marks[i]? = some mark) (hne : mark ≠ j)
    (hparents : alter? T.parents i (fun p => p.or (some j)) = some parents)
    (hcounts : alter? T.counts i (· + 1) = some counts) (hp : parents[i]? = some (some p)) :
    T.climb? j i = climb? j p ⟨T.marks.setIfInBounds i j, counts, parents⟩ := by
  obtain ⟨hi, hmark⟩ := Array.getElem?_eq_some_iff.mp h
  rw [climb?, dif_pos hi, dif_neg (by rwa [hmark])]
  simp only [hparents, hcounts, hp, bind, Option.bind_some, Array.setIfInBounds, hi, dite_true]

end Climb

/-- The parents as they are stored. -/
def storedParents (F : Forest n) : Vector (Option Nat) n := F.parent.map (Option.map Fin.val)

theorem getElem?_storedParents (F : Forest n) (i : Fin n) :
    (storedParents F).toArray[i.val]? = some ((F.parent.get i).map Fin.val) := by
  simp [storedParents, Vec.get_eq_getElem]

theorem storedParents_injective {F G : Forest n} (h : storedParents F = storedParents G) :
    F = G := by
  have hparent : F.parent = G.parent := by
    apply Vec.ext_get
    intro i
    have hget := congrArg (Vector.get · i) h
    simp only [storedParents, Vec.get_map] at hget
    exact Option.map_injective Fin.val_injective hget
  cases F
  cases G
  cases hparent
  rfl

/-- Column `j` of the triangle is being taken in, and `A` is what has been found so far. -/
structure Taking (j : Fin n) (T : EliminationTree) (A : Analysis n) : Prop where
  size_marks : T.marks.size = 3 * n
  counts : T.counts = A.counts.toArray
  parents : T.parents = (storedParents A.forest).toArray
  parent_le : ∀ a p, A.forest.parent.get a = some p → p ≤ j
  marks_le : ∀ c ≤ j, ∀ m, T.marks[c.val]? = some m → m ≤ j.val
  marked : ∀ c ≤ j, T.marks[c.val]? = some j.val ↔ c = j ∨ c ∈ A.seen

/-- The first `k` columns of the triangle have been taken in. -/
structure Taken (k : Nat) (T : EliminationTree) (A : Analysis n) : Prop where
  size_marks : T.marks.size = 3 * n
  counts : T.counts = A.counts.toArray
  parents : T.parents = (storedParents A.forest).toArray
  parent_lt : ∀ a p, A.forest.parent.get a = some p → p.val < k
  marks_lt : ∀ c < k, ∀ m, T.marks[c]? = some m → m < k

namespace Taking

variable {j i : Fin n} {T : EliminationTree} {F : Forest n} {counts : Vector Nat n}
  {seen : List (Fin n)}

/-- A column is marked and counted, and has a parent then. -/
theorem meet {G : Forest n} (h : T.Taking j ⟨F, counts, seen⟩) (hi : i < j)
    (hG : G.parent = Vec.put F.parent i ((F.parent.get i).or (some j))) :
    Taking j ⟨T.marks.setIfInBounds i.val j.val,
      (Vec.put counts i (counts.get i + 1)).toArray, (storedParents G).toArray⟩
      ⟨G, Vec.put counts i (counts.get i + 1), i :: seen⟩ where
  size_marks := by simpa using h.size_marks
  counts := rfl
  parents := rfl
  parent_le a p hap := by
    simp only [hG, Vec.get_put_eq] at hap
    split at hap
    · rename_i hai
      subst hai
      cases hp : F.parent.get a with
      | none =>
        rw [hp] at hap
        exact Fin.le_of_eq (Option.some_inj.mp hap.symm)
      | some q =>
        rw [hp] at hap
        exact Option.some_inj.mp hap ▸ h.parent_le a q hp
    · exact h.parent_le a p hap
  marks_le c hc m hm := by
    rw [Array.getElem?_setIfInBounds] at hm
    split at hm
    · split at hm
      · exact Nat.le_of_eq (Option.some_inj.mp hm).symm
      · cases hm
    · exact h.marks_le c hc m hm
  marked c hc := by
    have hsize : i.val < T.marks.size := by
      have := h.size_marks
      omega
    rw [Array.getElem?_setIfInBounds]
    by_cases hic : i.val = c.val
    · obtain rfl := Fin.ext hic
      simp [hsize]
    · rw [if_neg hic, h.marked c hc, List.mem_cons]
      have hne : c ≠ i := fun hci => hic (congrArg Fin.val hci.symm)
      simp [hne]

/-- A column that has not been met for row `j` has another mark. -/
theorem exists_mark (h : T.Taking j ⟨F, counts, seen⟩) (hi : i < j ∧ i ∉ seen) :
    ∃ mark, T.marks[i.val]? = some mark ∧ mark ≠ j.val := by
  have hsize : i.val < T.marks.size := by
    have := h.size_marks
    omega
  refine ⟨_, Array.getElem?_eq_getElem hsize, fun hmark => ?_⟩
  have hmet := (h.marked i (Fin.le_of_lt hi.1)).mp (Array.getElem?_eq_some_iff.mpr ⟨hsize, hmark⟩)
  rcases hmet with rfl | hseen
  · exact Nat.lt_irrefl _ hi.1
  · exact hi.2 hseen

theorem put_storedParents {G : Forest n}
    (hG : G.parent = Vec.put F.parent i ((F.parent.get i).or (some j))) :
    Vec.put (storedParents F) i (((storedParents F).get i).or (some j.val)) = storedParents G := by
  apply Vec.ext_get
  intro a
  simp only [storedParents, Vec.get_map, hG, Vec.get_put_eq]
  split
  · cases F.parent.get i <;> rfl
  · rfl

/-- A walk through the arrays ends, and has found what the walk on lists finds. -/
theorem climb (h : T.Taking j ⟨F, counts, seen⟩) (hij : i ≤ j) :
    ∃ T', T.climb? j.val i.val = some T' ∧ T'.Taking j (Analysis.climb j i ⟨F, counts, seen⟩) := by
  induction i using F.upward_induction generalizing T counts seen with
  | step i ih =>
    by_cases hmet : i < j ∧ i ∉ seen
    · obtain ⟨mark, hmark, hne⟩ := h.exists_mark hmet
      have hcounts : alter? T.counts i.val (· + 1)
          = some (Vec.put counts i (counts.get i + 1)).toArray := by
        rw [h.counts, alter?_toArray]
      have hparents : ∀ {G : Forest n},
          G.parent = Vec.put F.parent i ((F.parent.get i).or (some j)) →
          alter? T.parents i.val (fun p => p.or (some j.val)) = some (storedParents G).toArray := by
        intro G hG
        rw [h.parents, alter?_toArray, put_storedParents hG]
      cases hp : F.parent.get i with
      | none =>
        -- The walk goes on to the new parent, which is `j` itself, and ends there.
        have hG : (F.setParent i j hmet.1).parent
            = Vec.put F.parent i ((F.parent.get i).or (some j)) := by
          rw [hp, Forest.setParent, Option.none_or]
        have hnext := h.meet hmet.1 hG
        have hj := (hnext.marked j (Fin.le_refl j)).mpr (.inl rfl)
        have hparent : (F.setParent i j hmet.1).parent.get i = some j := Vec.get_put _ i _
        rw [climb?_of_unmarked hmark hne (hparents hG) hcounts
            (by rw [getElem?_storedParents, hparent]; rfl),
          climb?_of_marked hj, Analysis.climb_of_none hmet hp]
        exact ⟨_, rfl, hnext⟩
      | some p =>
        have hG : F.parent = Vec.put F.parent i ((F.parent.get i).or (some j)) := by
          rw [hp, Option.some_or, ← hp]
          exact (Vector.set_getElem_self i.isLt).symm
        rw [climb?_of_unmarked hmark hne (hparents hG) hcounts
            (by rw [getElem?_storedParents, hp]; rfl),
          Analysis.climb_of_some hmet hp]
        exact ih p hp (h.meet hmet.1 hG) (h.parent_le i p hp)
    · have hmarked : T.marks[i.val]? = some j.val := by
        refine (h.marked i hij).mpr ?_
        by_cases hi : i ∈ seen
        · exact .inr hi
        · exact .inl (Fin.le_antisymm hij (Fin.not_lt.mp fun hlt => hmet ⟨hlt, hi⟩))
      rw [climb?_of_marked hmarked, Analysis.climb_of_stop hmet]
      exact ⟨T, rfl, h⟩

end Taking

theorem Taking.taken {j : Fin n} {T : EliminationTree} {A : Analysis n} (h : T.Taking j A) :
    T.Taken (j.val + 1) A where
  size_marks := h.size_marks
  counts := h.counts
  parents := h.parents
  parent_lt a p hap := Nat.lt_succ_of_le (h.parent_le a p hap)
  marks_lt c hc m hm := Nat.lt_succ_of_le
    (h.marks_le ⟨c, Nat.lt_of_lt_of_le hc j.isLt⟩ (Nat.le_of_lt_succ hc) m hm)

namespace Taken

theorem start (n : Nat) : (EliminationTree.start n).Taken 0 (Analysis.start n) where
  size_marks := by simp [EliminationTree.start]
  counts := by simp [EliminationTree.start, Analysis.start]
  parents := by simp [EliminationTree.start, Analysis.start, storedParents, Forest.empty]
  parent_lt a p hap := by simp [Analysis.start, Forest.empty] at hap
  marks_lt c hc := absurd hc (Nat.not_lt_zero c)

variable {j : Fin n} {T : EliminationTree} {A : Analysis n}

/-- The row itself is marked first. No mark of a column before it is as large. -/
theorem begin (h : T.Taken j.val A) : ∃ marks, alter? T.marks j.val (fun _ => j.val) = some marks ∧
    Taking j { T with marks := marks } { A with seen := [] } := by
  have hsize : j.val < T.marks.size := by
    have := h.size_marks
    omega
  refine ⟨_, alter?_eq_some hsize _, ?_⟩
  exact {
    size_marks := by simpa using h.size_marks
    counts := h.counts
    parents := h.parents
    parent_le := fun a p hap => Nat.le_of_lt (h.parent_lt a p hap)
    marks_le := fun c hc m hm => by
      rw [Array.getElem?_set] at hm
      split at hm
      · exact Nat.le_of_eq (Option.some_inj.mp hm).symm
      · have : c.val < j.val := by omega
        exact Nat.le_of_lt (h.marks_lt c.val this m hm)
    marked := fun c hc => by
      rw [Array.getElem?_set]
      by_cases hcj : c = j
      · simp [hcj]
      · have hne : j.val ≠ c.val := fun hjc => hcj (Fin.ext hjc.symm)
        have hlt : c.val < j.val := by omega
        rw [if_neg hne]
        refine ⟨fun hm => absurd (h.marks_lt c.val hlt j.val hm) (Nat.lt_irrefl _), ?_⟩
        simp [hcj] }

/-- A column of the upper triangle is taken in as on lists. -/
theorem column (h : T.Taken j.val A) {rows : List (Fin n)} (hrows : ∀ i ∈ rows, i ≤ j) :
    ∃ T', T.column? j.val (rows.map Fin.val) = some T' ∧
      T'.Taken (j.val + 1) (A.column j rows) := by
  have hclimbs : ∀ (rows : List (Fin n)) {T : EliminationTree} {A : Analysis n}, T.Taking j A →
      (∀ i ∈ rows, i ≤ j) →
      ∃ T', (rows.map Fin.val).foldlM (fun T i => T.climb? j.val i) T = some T' ∧
        T'.Taking j (rows.foldl (fun A i => A.climb j i) A) := by
    intro rows
    induction rows with
    | nil => exact fun h _ => ⟨_, rfl, h⟩
    | cons i rows ih =>
      intro T A h hrows
      obtain ⟨T₁, hT₁, hnext⟩ := h.climb (hrows i List.mem_cons_self)
      obtain ⟨T₂, hT₂, hlast⟩ := ih hnext fun i hi => hrows i (List.mem_cons_of_mem _ hi)
      exact ⟨T₂, by rw [List.map_cons, List.foldlM_cons, hT₁]; exact hT₂, hlast⟩
  obtain ⟨marks, hmarks, hbegun⟩ := h.begin
  obtain ⟨T', hT', hlast⟩ := hclimbs rows hbegun hrows
  exact ⟨T', by rw [column?, hmarks]; exact hT', hlast.taken⟩

/-- Parents are larger than their children. -/
theorem lt_parent {k : Nat} (h : T.Taken k A) (i p : Nat) (hp : T.parents[i]? = some (some p)) :
    i < p ∧ p < n := by
  have hi : i < n := by
    have := (Array.getElem?_eq_some_iff.mp hp).1
    simpa [h.parents] using this
  rw [h.parents, getElem?_storedParents _ ⟨i, hi⟩, Option.some_inj,
    Option.map_eq_some_iff] at hp
  obtain ⟨q, hq, rfl⟩ := hp
  exact ⟨A.forest.lt_parent ⟨i, hi⟩ q hq, q.isLt⟩

end Taken
end EliminationTree

/-! ### All columns -/

/-- The rows of a column are a slice of the rows. -/
theorem slice?_rowval_storedColumns (L : Vector (List (Fin n × α)) n) (j : Fin n) :
    slice? (storedColumns L).rowval (offset L.toList j.val) (offset L.toList (j.val + 1))
      = some (((Factors.rowsOf L).get j).map Fin.val) := by
  rw [offset_storedColumns_succ, slice?_storedColumns _ (toList_rowval_storedColumns L) j
    (Nat.le_refl _), List.take_length, Factors.rowsOf, Vec.get_map, List.map_map]
  rfl

/-- The tree of an upper triangle is the one that the analysis on lists finds. -/
theorem Csc.eliminationTree?_storedColumns {L : Vector (List (Fin n × α)) n}
    (hupper : ∀ j, ∀ e ∈ L.get j, e.1 ≤ j) :
    ∃ T, (storedColumns L).eliminationTree? = some T ∧
      T.Taken n (Analysis.run (Factors.rowsOf L)) := by
  rw [Csc.eliminationTree?, cols_storedColumns, ← List.map_coe_finRange_eq_range, List.foldlM_map]
  have hpass := partial_pass_induction (n := n) (f := fun (T : EliminationTree) j => (do
    let s ← (storedColumns L).colptr[j.val]?
    let t ← (storedColumns L).colptr[j.val + 1]?
    let rows ← slice? (storedColumns L).rowval s t
    T.column? j.val rows))
    (fun k (T : EliminationTree) => T.Taken k (((List.finRange n).take k).foldl
      (fun A j => A.column j ((Factors.rowsOf L).get j)) (Analysis.start n)))
    (EliminationTree.Taken.start n) fun j T h => by
      have hrows : ∀ i ∈ (Factors.rowsOf L).get j, i ≤ j := by
        intro i hi
        rw [Factors.rowsOf, Vec.get_map] at hi
        obtain ⟨e, he, rfl⟩ := List.mem_map.mp hi
        exact hupper j e he
      obtain ⟨T', hT', hnext⟩ := h.column hrows
      refine ⟨T', ?_, ?_⟩
      · simp only [getElem?_colptr_storedColumns (Nat.le_of_lt j.isLt),
          getElem?_colptr_storedColumns (Nat.succ_le_of_lt j.isLt), bind, Option.bind_some,
          slice?_rowval_storedColumns]
        exact hT'
      · rw [take_finRange_succ, List.foldl_append]
        exact hnext
  obtain ⟨T, hT, hlast⟩ := hpass
  rw [List.take_of_length_le (by simp)] at hlast
  exact ⟨T, hT, hlast⟩

example : (⟨4, 4, #[0, 1, 3, 6, 8], #[0, 0, 1, 0, 1, 2, 2, 3], #[8, -3, 8, 2, -1, 8, -1, 1]⟩ :
    Csc Int).eliminationTree?.map (fun T => (T.parents, T.counts))
      = some (#[some 1, some 2, some 3, none], #[2, 1, 1, 0]) := by decide +kernel

end QuadOpt
