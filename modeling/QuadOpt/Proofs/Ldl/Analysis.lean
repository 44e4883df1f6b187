/-
# What the analysis of a pattern finds

In the forest that `Analysis.run` returns, every row of a column of the triangle
reaches the column, and a column of the factor is counted once for each row whose
pattern it is in.

Key definitions: `Analysis.Climbed`, `Analysis.Met`, `Analysis.Through`.
Key theorems: `Analysis.climb_climbed`, `Analysis.run_reaches`,
`Analysis.run_counts`.
-/
import QuadOpt.Proofs.Ldl.Reach
import QuadOpt.Proofs.Pass

namespace QuadOpt.Analysis

variable {n : Nat}

/-! ### One row -/

/-- `B` is `A` after a walk upwards from column `i` for row `j`. -/
structure Climbed (j i : Fin n) (A B : Analysis n) : Prop where
  forest : A.forest.Extends B.forest
  parent_le : ∀ a p, B.forest.parent.get a = some p → p ≤ j
  reaches : i ≤ j → B.forest.Reaches i j
  mem_seen : ∀ v, v ∈ B.seen ↔ v ∈ A.seen ∨ v < j ∧ B.forest.Reaches i v
  counts : ∀ v, B.counts.get v = A.counts.get v + if v ∈ B.seen ∧ v ∉ A.seen then 1 else 0

section Climb

variable {F : Forest n} {counts : Vector Nat n} {seen : List (Fin n)} {i j : Fin n}

theorem climb_of_stop (h : ¬(i < j ∧ i ∉ seen)) :
    climb j i ⟨F, counts, seen⟩ = ⟨F, counts, seen⟩ := by
  rw [climb, dif_neg (by simpa using h)]

theorem climb_of_some {p : Fin n} (h : i < j ∧ i ∉ seen) (hp : F.parent.get i = some p) :
    climb j i ⟨F, counts, seen⟩
      = climb j p ⟨F, Vec.put counts i (counts.get i + 1), i :: seen⟩ := by
  rw [climb, dif_pos (by simpa using h)]
  split
  · rename_i hp'
    rw [hp] at hp'
    cases hp'
    rfl
  · rename_i hp'
    rw [hp] at hp'
    cases hp'

theorem climb_of_none (h : i < j ∧ i ∉ seen) (hp : F.parent.get i = none) :
    climb j i ⟨F, counts, seen⟩
      = ⟨F.setParent i j h.1, Vec.put counts i (counts.get i + 1), i :: seen⟩ := by
  rw [climb, dif_pos (by simpa using h)]
  split
  · rename_i hp'
    rw [hp] at hp'
    cases hp'
  · rfl

theorem extends_setParent (hij : i < j) (hp : F.parent.get i = none) :
    F.Extends (F.setParent i j hij) := by
  intro a p hap
  have hne : i ≠ a := by
    rintro rfl
    rw [hp] at hap
    cases hap
  rw [Forest.setParent, Vec.get_put_ne _ hne]
  exact hap

theorem get_count_put (counts : Vector Nat n) (i v : Fin n) :
    (Vec.put counts i (counts.get i + 1)).get v = counts.get v + if v = i then 1 else 0 := by
  by_cases hv : v = i
  · subst hv
    rw [if_pos rfl, Vec.get_put]
  · rw [if_neg hv, Vec.get_put_ne _ (Ne.symm hv), Nat.add_zero]

theorem climbed_of_stop (h : ¬(i < j ∧ i ∉ seen))
    (hle : ∀ a p, F.parent.get a = some p → p ≤ j)
    (hseen : i ∈ seen → F.Reaches i j ∧ ∀ w, F.Reaches i w → w < j → w ∈ seen) :
    Climbed j i ⟨F, counts, seen⟩ ⟨F, counts, seen⟩ := by
  refine ⟨Forest.Extends.refl F, hle, fun hij => ?_, fun v => ⟨.inl, ?_⟩, fun v => by simp⟩
  · by_cases hi : i ∈ seen
    · exact (hseen hi).1
    · obtain rfl : i = j := by
        have hnot : ¬i < j := fun hlt => h ⟨hlt, hi⟩
        omega
      exact Forest.Reaches.refl F i
  · rintro (hv | ⟨hvj, hiv⟩)
    · exact hv
    · by_cases hi : i ∈ seen
      · exact (hseen hi).2 v hiv hvj
      · exact absurd ⟨Nat.lt_of_le_of_lt hiv.le hvj, hi⟩ h

theorem climbed_of_none (h : i < j ∧ i ∉ seen) (hp : F.parent.get i = none)
    (hle : ∀ a p, F.parent.get a = some p → p ≤ j) :
    Climbed j i ⟨F, counts, seen⟩
      ⟨F.setParent i j h.1, Vec.put counts i (counts.get i + 1), i :: seen⟩ := by
  have hparent : (F.setParent i j h.1).parent.get i = some j := Vec.get_put _ i _
  have hreaches : ∀ v, (F.setParent i j h.1).Reaches i v ↔
      i = v ∨ (F.setParent i j h.1).Reaches j v :=
    fun v => Forest.reaches_of_parent_eq_some hparent
  refine ⟨extends_setParent h.1 hp, ?_, fun _ => ?_, ?_, ?_⟩
  · intro a p hap
    by_cases hai : i = a
    · subst hai
      exact Fin.le_of_eq (Option.some_inj.mp (hap.symm.trans hparent))
    · rw [Forest.setParent, Vec.get_put_ne _ hai] at hap
      exact hle a p hap
  · exact (hreaches j).mpr (.inr (Forest.Reaches.refl _ j))
  · intro v
    rw [List.mem_cons, hreaches v]
    constructor
    · rintro (rfl | hv)
      · exact .inr ⟨h.1, .inl rfl⟩
      · exact .inl hv
    · rintro (hv | ⟨_, rfl | hjv⟩)
      · exact .inr hv
      · exact .inl rfl
      · have := hjv.le
        omega
  · intro v
    rw [get_count_put]
    by_cases hv : v = i
    · subst hv
      simp [h.2]
    · by_cases hvs : v ∈ seen <;> simp [hv, hvs]

theorem climbed_of_some {p : Fin n} {B : Analysis n} (h : i < j ∧ i ∉ seen)
    (hp : F.parent.get i = some p) (hpj : p ≤ j)
    (hnext : Climbed j p ⟨F, Vec.put counts i (counts.get i + 1), i :: seen⟩ B) :
    Climbed j i ⟨F, counts, seen⟩ B := by
  have hparent := hnext.forest i p hp
  refine ⟨hnext.forest, hnext.parent_le, fun _ => ?_, ?_, ?_⟩
  · exact Forest.Reaches.of_parent hparent (hnext.reaches hpj)
  · intro v
    rw [hnext.mem_seen v, Forest.reaches_of_parent_eq_some hparent, List.mem_cons]
    constructor
    · rintro ((rfl | hv) | ⟨hvj, hpv⟩)
      · exact .inr ⟨h.1, .inl rfl⟩
      · exact .inl hv
      · exact .inr ⟨hvj, .inr hpv⟩
    · rintro (hv | ⟨hvj, rfl | hpv⟩)
      · exact .inl (.inr hv)
      · exact .inl (.inl rfl)
      · exact .inr ⟨hvj, hpv⟩
  · intro v
    rw [hnext.counts v, get_count_put]
    by_cases hv : v = i
    · subst hv
      have hmem := (hnext.mem_seen v).mpr (.inl List.mem_cons_self)
      simp [h.2, hmem]
    · simp [hv]

/-- A walk for row `j` gives the columns that it meets a path to `j`, if those
met before have one. -/
theorem climb_climbed (hle : ∀ a p, F.parent.get a = some p → p ≤ j)
    (hseen : ∀ v ∈ seen, i ≤ v → F.Reaches v j ∧ ∀ w, F.Reaches v w → w < j → w ∈ seen) :
    Climbed j i ⟨F, counts, seen⟩ (climb j i ⟨F, counts, seen⟩) := by
  induction i using F.upward_induction generalizing counts seen with
  | step i ih =>
    by_cases h : i < j ∧ i ∉ seen
    · cases hp : F.parent.get i with
      | none =>
        rw [climb_of_none h hp]
        exact climbed_of_none h hp hle
      | some p =>
        have hip := F.lt_parent i p hp
        rw [climb_of_some h hp]
        refine climbed_of_some h hp (hle i p hp) (ih p hp fun v hv hpv => ?_)
        -- The column just met is below `p`.
        have hv : v ∈ seen := by
          rcases List.mem_cons.mp hv with rfl | hv
          · omega
          · exact hv
        obtain ⟨hvj, hclosed⟩ := hseen v hv (by omega)
        exact ⟨hvj, fun w hvw hw => List.mem_cons_of_mem _ (hclosed w hvw hw)⟩
    · rw [climb_of_stop h]
      exact climbed_of_stop h hle fun hi => hseen i hi (Fin.le_refl i)

end Climb

/-- The rows `rows` of column `j` have been taken in, starting from the counts
`before`. -/
structure Met (j : Fin n) (before : Vector Nat n) (rows : List (Fin n)) (A : Analysis n) :
    Prop where
  parent_le : ∀ a p, A.forest.parent.get a = some p → p ≤ j
  reaches : ∀ r ∈ rows, r ≤ j → A.forest.Reaches r j
  mem_seen : ∀ v, v ∈ A.seen ↔ v < j ∧ ∃ r ∈ rows, A.forest.Reaches r v
  counts : ∀ v, A.counts.get v = before.get v + if v ∈ A.seen then 1 else 0

theorem Met.climb {j : Fin n} {before : Vector Nat n} {rows : List (Fin n)} {A : Analysis n}
    (h : Met j before rows A) (i : Fin n) :
    Met j before (rows ++ [i]) (A.climb j i) ∧ A.forest.Extends (A.climb j i).forest := by
  have hclimbed : Climbed j i A (A.climb j i) := by
    refine climb_climbed h.parent_le fun v hv _ => ?_
    obtain ⟨hvj, r, hr, hrv⟩ := (h.mem_seen v).mp hv
    have hrj := h.reaches r hr (Nat.le_trans hrv.le (Nat.le_of_lt hvj))
    exact ⟨hrv.of_le hrj (Nat.le_of_lt hvj), fun w hvw hw =>
      (h.mem_seen w).mpr ⟨hw, r, hr, hrv.trans hvw⟩⟩
  -- The rows taken in before reach the same columns below `j` as they did.
  have hsame : ∀ v, v < j →
      ((∃ r ∈ rows, (A.climb j i).forest.Reaches r v) ↔ ∃ r ∈ rows, A.forest.Reaches r v) := by
    intro v hvj
    refine exists_congr fun r => and_congr_right fun hr => ⟨fun hrv => ?_, .mono hclimbed.forest⟩
    have hrj := h.reaches r hr (Nat.le_trans hrv.le (Nat.le_of_lt hvj))
    exact hrj.of_extends hclimbed.forest hrv (Nat.le_of_lt hvj)
  refine ⟨⟨hclimbed.parent_le, ?_, ?_, ?_⟩, hclimbed.forest⟩
  · intro r hr hrj
    rcases List.mem_append.mp hr with hr | hr
    · exact (h.reaches r hr hrj).mono hclimbed.forest
    · rw [List.mem_singleton] at hr
      subst hr
      exact hclimbed.reaches hrj
  · intro v
    rw [hclimbed.mem_seen v, h.mem_seen v, ← and_or_left]
    refine and_congr_right fun hvj => ?_
    rw [← hsame v hvj]
    simp only [List.mem_append, List.mem_singleton, or_and_right, exists_or, exists_eq_left]
  · intro v
    have hmem := hclimbed.mem_seen v
    rw [hclimbed.counts v, h.counts v]
    by_cases hv : v ∈ A.seen
    · have hv' := hmem.mpr (.inl hv)
      simp [hv, hv']
    · simp [hv]

theorem column_met {j : Fin n} (rows : List (Fin n)) {A : Analysis n}
    (hlt : ∀ a p, A.forest.parent.get a = some p → p < j) :
    Met j A.counts rows (A.column j rows) ∧ A.forest.Extends (A.column j rows).forest := by
  have hfold : ∀ (rows done : List (Fin n)) (B : Analysis n), Met j A.counts done B →
      A.forest.Extends B.forest →
      Met j A.counts (done ++ rows) (rows.foldl (fun A i => A.climb j i) B) ∧
        A.forest.Extends (rows.foldl (fun A i => A.climb j i) B).forest := by
    intro rows
    induction rows with
    | nil =>
      intro done B hB hAB
      rw [List.append_nil]
      exact ⟨hB, hAB⟩
    | cons i rows ih =>
      intro done B hB hAB
      obtain ⟨hmet, hext⟩ := hB.climb i
      rw [List.append_cons]
      exact ih _ _ hmet (hAB.trans hext)
  refine hfold rows [] { A with seen := [] } ?_ (Forest.Extends.refl _)
  exact ⟨fun a p hap => Nat.le_of_lt (hlt a p hap), by simp, by simp, by simp⟩

/-! ### All rows -/

/-- The first `k` columns of the triangle have been taken in. -/
structure Through (upper : Upper n) (k : Nat) (A : Analysis n) : Prop where
  parent_lt : ∀ a p, A.forest.parent.get a = some p → p.val < k
  reaches : ∀ j : Fin n, j.val < k → ∀ r ∈ upper.get j, r ≤ j → A.forest.Reaches r j
  counts : ∀ v, A.counts.get v = (((List.finRange n).take k).filter fun j =>
    decide (v ∈ A.forest.rowPattern j (upper.get j))).length

theorem Through.column {upper : Upper n} {j : Fin n} {A : Analysis n}
    (h : Through upper j.val A) : Through upper (j.val + 1) (A.column j (upper.get j)) := by
  obtain ⟨hmet, hext⟩ := column_met (upper.get j) h.parent_lt
  refine ⟨fun a p hap => ?_, fun i hi r hr hri => ?_, fun v => ?_⟩
  · have := hmet.parent_le a p hap
    omega
  · rcases Nat.lt_succ_iff_lt_or_eq.mp hi with hi | hi
    · exact (h.reaches i hi r hr hri).mono hext
    · obtain rfl : i = j := Fin.ext hi
      exact hmet.reaches r hr hri
  · have hbefore : ((List.finRange n).take j.val).filter (fun i =>
          decide (v ∈ (A.column j (upper.get j)).forest.rowPattern i (upper.get i)))
        = ((List.finRange n).take j.val).filter fun i =>
          decide (v ∈ A.forest.rowPattern i (upper.get i)) := by
      apply List.filter_congr
      intro i hi
      obtain ⟨l, hl, rfl⟩ := List.mem_take_iff_getElem.mp hi
      have hlt : l < j.val := by omega
      refine decide_eq_decide.mpr (hext.mem_rowPattern fun r hr hri => ?_)
      exact h.reaches _ (by simpa using hlt) r hr hri
    have hnew : v ∈ (A.column j (upper.get j)).forest.rowPattern j (upper.get j) ↔
        v ∈ (A.column j (upper.get j)).seen := by
      rw [Forest.mem_rowPattern, hmet.mem_seen v]
    rw [hmet.counts v, h.counts v, take_finRange_succ, List.filter_append, hbefore,
      List.length_append]
    congr 1
    by_cases hv : v ∈ (A.column j (upper.get j)).seen
    · simp [hv, hnew.mpr hv]
    · have hnot := mt hnew.mp hv
      simp [hv, hnot]

theorem run_through (upper : Upper n) : Through upper n (run upper) := by
  refine pass_induction (Through upper) ?_ fun j A h => h.column
  refine ⟨fun a p hap => ?_, fun j hj => absurd hj (Nat.not_lt_zero _), fun v => ?_⟩
  · simp [start, Forest.empty] at hap
  · simp [start]

/-- Every row of a column of the triangle reaches the column. -/
theorem run_reaches {upper : Upper n} {j r : Fin n} (hr : r ∈ upper.get j) (hrj : r ≤ j) :
    (run upper).forest.Reaches r j :=
  (run_through upper).reaches j j.isLt r hr hrj

/-- A column of the factor is counted once for each row with an entry in it. -/
theorem run_counts (upper : Upper n) (v : Fin n) :
    (run upper).counts.get v = ((List.finRange n).filter fun j =>
      decide (v ∈ (run upper).forest.rowPattern j (upper.get j))).length := by
  rw [(run_through upper).counts v, List.take_of_length_le (by simp)]

end QuadOpt.Analysis
