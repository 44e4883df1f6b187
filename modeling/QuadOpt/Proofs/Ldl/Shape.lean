/-
# The shape of the factor

Whatever the numbers are, the rows that elimination stores in a column of the
factor are those whose pattern the column is in, in order. So a column never
holds more entries than the analysis has counted for it, and a complete factor
holds exactly these.

Key definitions: `Factors.rowsOf`, `Factors.pattern`, `Factors.reduce`,
`Factors.Shaped`.
Key theorems: `Factors.compute_shaped`, `Factors.Shaped.length_le_counts`,
`Factors.Shaped.length_eq_counts`.
-/
import QuadOpt.Ldl.Numeric
import QuadOpt.Proofs.Ldl.Analysis

namespace QuadOpt.Factors

variable {α : Type} {n : Nat}

/-- The rows of each column of a triangle. -/
def rowsOf (upper : Vector (List (Fin n × α)) n) : Upper n := upper.map fun col => col.map Prod.fst

/-- The columns with an entry in row `k` of the factor. -/
def pattern (forest : Forest n) (upper : Vector (List (Fin n × α)) n) (k : Fin n) : List (Fin n) :=
  forest.rowPattern k ((upper.get k).map Prod.fst)

/-- The first `k` rows have been stored, each in the columns of its pattern. -/
def Shaped (forest : Forest n) (upper : Vector (List (Fin n × α)) n) (k : Nat) (f : Factors α n) :
    Prop :=
  ∀ c, (f.lower.get c).map Prod.fst
    = ((List.finRange n).take k).filter fun i => decide (c ∈ pattern forest upper i)

section Entries

variable {forest : Forest n} {upper : Vector (List (Fin n × α)) n} {k : Nat} {f : Factors α n}

theorem Shaped.of_lower_eq {g : Factors α n} (h : f.Shaped forest upper k)
    (heq : g.lower = f.lower) : g.Shaped forest upper k := by
  intro c
  rw [heq]
  exact h c

/-- An entry is in a row that has been stored and has the column in its pattern. -/
theorem Shaped.mem (h : f.Shaped forest upper k) {c : Fin n} {e : Fin n × α}
    (he : e ∈ f.lower.get c) : e.1.val < k ∧ c ∈ pattern forest upper e.1 := by
  have hmem : e.1 ∈ (f.lower.get c).map Prod.fst := List.mem_map_of_mem he
  rw [h c, List.mem_filter, decide_eq_true_eq] at hmem
  obtain ⟨l, hl, hle⟩ := List.mem_take_iff_getElem.mp hmem.1
  refine ⟨?_, hmem.2⟩
  rw [← hle]
  simp at hl ⊢
  omega

/-- An entry is below the diagonal. -/
theorem Shaped.lt (h : f.Shaped forest upper k) {c : Fin n} {e : Fin n × α}
    (he : e ∈ f.lower.get c) : c < e.1 :=
  (Forest.mem_rowPattern.mp (h.mem he).2).1

/-- The rows of a column increase. -/
theorem Shaped.pairwise (h : f.Shaped forest upper k) (c : Fin n) :
    ((f.lower.get c).map Prod.fst).Pairwise (· < ·) := by
  have hrows : (List.finRange n).Pairwise (· < ·) := by
    have hrange := List.pairwise_lt_range (n := n)
    rw [← List.map_coe_finRange_eq_range, List.pairwise_map] at hrange
    exact hrange
  rw [h c]
  exact (hrows.sublist (List.take_sublist k _)).filter _

end Entries

/-! ### One row -/

section Row

variable [Scalar α]

/-- Takes in column `k` of the triangle and eliminates the columns of the
pattern. -/
def reduce (forest : Forest n) (upper : Vector (List (Fin n × α)) n) (f : Factors α n)
    (k : Fin n) : Factors α n :=
  (pattern forest upper k).foldl (eliminate k) ((upper.get k).foldl (load k) f)

theorem row_eq (forest : Forest n) (upper : Vector (List (Fin n × α)) n) (f : Factors α n)
    (k : Fin n) : row forest upper f k = (reduce forest upper f k).accept k := rfl

theorem accept_eq (f : Factors α n) (k : Fin n) :
    f.accept k = if f.D.get k == 0 || !Scalar.isFinite (f.D.get k) then .error (k, f)
      else .ok { f with
        Dinv := f.Dinv.put k (Scalar.recip (f.D.get k))
        positive := if 0 < f.D.get k then f.positive + 1 else f.positive } := rfl

omit [Scalar α] in
theorem foldl_load_lower (k : Fin n) (entries : List (Fin n × α)) (f : Factors α n) :
    (entries.foldl (load k) f).lower = f.lower := by
  induction entries generalizing f with
  | nil => rfl
  | cons e entries ih =>
    rw [List.foldl_cons, ih]
    by_cases he : e.1 = k
    · rw [load, if_pos he]
    · rw [load, if_neg he]

theorem eliminate_lower (f : Factors α n) (k c d : Fin n) :
    (eliminate k f c).lower.get d = if d = c then
      f.lower.get c ++ [(k, f.rest.get c * f.Dinv.get c)] else f.lower.get d := by
  by_cases hd : d = c
  · subst hd
    rw [if_pos rfl]
    exact Vec.get_put _ _ _
  · rw [if_neg hd]
    exact Vec.get_put_ne _ (Ne.symm hd) _

theorem map_fst_foldl_eliminate (k d : Fin n) {l : List (Fin n)} (hl : l.Nodup) (f : Factors α n) :
    ((l.foldl (eliminate k) f).lower.get d).map Prod.fst
      = (f.lower.get d).map Prod.fst ++ if d ∈ l then [k] else [] := by
  induction l generalizing f with
  | nil => simp
  | cons c l ih =>
    obtain ⟨hc, hl⟩ := List.nodup_cons.mp hl
    rw [List.foldl_cons, ih hl, eliminate_lower]
    by_cases hd : d = c
    · subst hd
      simp [hc]
    · simp [hd]

theorem Shaped.reduce {forest : Forest n} {upper : Vector (List (Fin n × α)) n} {f : Factors α n}
    {k : Fin n} (h : f.Shaped forest upper k.val) :
    (reduce forest upper f k).Shaped forest upper (k.val + 1) := by
  intro c
  have hnodup : (pattern forest upper k).Nodup := (Forest.isPattern_rowPattern forest k _).nodup
  rw [Factors.reduce, map_fst_foldl_eliminate k c hnodup, foldl_load_lower, h c,
    take_finRange_succ, List.filter_append]
  by_cases hc : c ∈ pattern forest upper k <;> simp [hc]

end Row

/-! ### All rows -/

/-- What elimination has stored when it is through, and when it stops at a row
without a pivot. -/
theorem compute_shaped [Scalar α] (forest : Forest n) (upper : Vector (List (Fin n × α)) n) :
    (∀ f, compute forest upper = .ok f → f.Shaped forest upper n) ∧
      ∀ e, compute forest upper = .error e → e.2.Shaped forest upper (e.1.val + 1) := by
  refine failing_pass_induction (Shaped forest upper)
    (fun e : Fin n × Factors α n => e.2.Shaped forest upper (e.1.val + 1)) ?_ fun k f h => ?_
  · intro c
    simp [start]
  · rw [row_eq, accept_eq]
    have hreduce := h.reduce
    by_cases hpivot : ((reduce forest upper f k).D.get k == 0
        || !Scalar.isFinite ((reduce forest upper f k).D.get k)) = true
    · rw [if_pos hpivot]
      refine ⟨fun g hg => (by cases hg), fun e he => ?_⟩
      cases he
      exact hreduce
    · rw [if_neg hpivot]
      refine ⟨fun g hg => ?_, fun e he => (by cases he)⟩
      cases hg
      exact hreduce.of_lower_eq rfl

section Counts

variable {upper : Vector (List (Fin n × α)) n} {k : Nat} {f : Factors α n}

theorem counts_eq (upper : Vector (List (Fin n × α)) n) (c : Fin n) :
    (Analysis.run (rowsOf upper)).counts.get c = ((List.finRange n).filter fun i =>
      decide (c ∈ pattern (Analysis.run (rowsOf upper)).forest upper i)).length := by
  have hrows : ∀ i : Fin n, (rowsOf upper).get i = (upper.get i).map Prod.fst := by
    intro i
    simp [rowsOf, Vec.get_eq_getElem]
  rw [Analysis.run_counts]
  congr 1
  apply List.filter_congr
  intro i _
  rw [hrows i, pattern]

theorem length_lower {forest : Forest n} (h : f.Shaped forest upper k) (c : Fin n) :
    (f.lower.get c).length
      = (((List.finRange n).take k).filter fun i => decide (c ∈ pattern forest upper i)).length := by
  rw [← h c, List.length_map]

/-- A column never holds more entries than have been counted for it. -/
theorem Shaped.length_le_counts
    (h : f.Shaped (Analysis.run (rowsOf upper)).forest upper k) (c : Fin n) :
    (f.lower.get c).length ≤ (Analysis.run (rowsOf upper)).counts.get c := by
  rw [length_lower h, counts_eq]
  exact ((List.take_sublist k _).filter _).length_le

/-- A complete factor holds all entries that have been counted. -/
theorem Shaped.length_eq_counts
    (h : f.Shaped (Analysis.run (rowsOf upper)).forest upper n) (c : Fin n) :
    (f.lower.get c).length = (Analysis.run (rowsOf upper)).counts.get c := by
  rw [length_lower h, counts_eq, List.take_of_length_le (by simp)]

end Counts

end QuadOpt.Factors
