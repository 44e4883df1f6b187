/-
# What a standard form stands for

Assembly refuses an objective or a constraint that refers to an index beyond the
variables. Otherwise its matrices are well formed, the objective of the standard
form is that of the expression at every point, and its bounds hold at a point
exactly when the comparisons that the constraints were made from do.

Key definitions: `StandardForm.Refers`, `StandardForm.Represents`.
Key theorems: `StandardForm.assemble_cases`, `StandardForm.assemble_represents`.
-/
import Mathlib.Data.List.Forall2
import Mathlib.Data.List.Sigma
import QuadOpt.Model.StandardForm
import QuadOpt.Proofs.Model.Requirement
import QuadOpt.Proofs.Sparse.Assembly
import QuadOpt.Proofs.Sparse.Meaning

namespace QuadOpt

open Matrix

/-! ### When assembly fails -/

namespace StandardForm

section Outcome

variable {α : Type} [Scalar α]

/-- Some stored term, be its coefficient zero, refers to an index of `n` or
above. -/
def Refers (n : Nat) (objective : QuadExpr α) (constraints : List (Constraint α)) : Prop :=
  (∃ p ∈ objective.quadratic.keys, n ≤ p.first.index ∨ n ≤ p.second.index) ∨
  (∃ v ∈ objective.linear.terms.keys, n ≤ v.index) ∨
  ∃ c ∈ constraints, ∃ v ∈ c.terms.keys, n ≤ v.index

instance (n : Nat) (objective : QuadExpr α) (cs : List (Constraint α)) :
    Decidable (Refers n objective cs) :=
  inferInstanceAs (Decidable (_ ∨ _ ∨ _))

omit [Scalar α] in
theorem checkIndex_max? (n : Nat) (l : List Nat) :
    (checkIndex n l.max? = .ok () ∧ ∀ i ∈ l, i < n) ∨
      (∃ i ∈ l, n ≤ i) ∧ ∃ i, checkIndex n l.max? = .error (.unknownVariable i) := by
  cases hmax : l.max? with
  | none =>
    rw [List.max?_eq_none_iff] at hmax
    subst hmax
    exact .inl ⟨rfl, by simp⟩
  | some i =>
    obtain ⟨hmem, hle⟩ := List.max?_eq_some_iff.mp hmax
    by_cases hi : n ≤ i
    · exact .inr ⟨⟨i, hmem, hi⟩, i, if_pos hi⟩
    · refine .inl ⟨if_neg hi, fun j hj => ?_⟩
      have := hle j hj
      omega

theorem forM_checkIndex (n : Nat) (cs : List (Constraint α)) :
    (cs.forM (fun c => checkIndex n c.expression.highestIndex?) = .ok () ∧
      ∀ c ∈ cs, ∀ v ∈ c.terms.keys, v.index < n) ∨
    (∃ c ∈ cs, ∃ v ∈ c.terms.keys, n ≤ v.index) ∧
      ∃ i, cs.forM (fun c => checkIndex n c.expression.highestIndex?)
        = .error (.unknownVariable i) := by
  induction cs with
  | nil => exact .inl ⟨rfl, by simp⟩
  | cons c cs ih =>
    rw [List.forM]
    rcases checkIndex_max? n (c.terms.keys.map Variable.index) with ⟨hok, hlt⟩ | ⟨⟨i, hi, hle⟩, j, hj⟩
    · have hlt : ∀ v ∈ c.terms.keys, v.index < n := fun v hv => hlt _ (List.mem_map_of_mem hv)
      have hhead : checkIndex n c.expression.highestIndex? = .ok () := hok
      rw [hhead]
      rcases ih with ⟨hrest, hall⟩ | ⟨⟨d, hd, v, hv, hle⟩, j, hj⟩
      · exact .inl ⟨hrest, List.forall_mem_cons.mpr ⟨hlt, hall⟩⟩
      · exact .inr ⟨⟨d, List.mem_cons_of_mem _ hd, v, hv, hle⟩, j, hj⟩
    · obtain ⟨v, hv, rfl⟩ := List.mem_map.mp hi
      have hhead : checkIndex n c.expression.highestIndex? = .error (.unknownVariable j) := hj
      rw [hhead]
      exact .inr ⟨⟨c, List.mem_cons_self, v, hv, hle⟩, j, rfl⟩

/-- The standard form over variables that there is room for. -/
def assembled (n : Nat) (objective : QuadExpr α) (constraints : List (Constraint α)) :
    StandardForm α where
  P := .ofTriplets n n (objective.quadratic.toList.map hessianTriplet)
  q := denseRow n objective.linear
  A := .ofTriplets constraints.length n (constraints.zipIdx.flatMap rowTriplets)
  l := (constraints.map Constraint.lower).toArray
  u := (constraints.map Constraint.upper).toArray
  constant := objective.linear.constant

/-- The outcomes of assembly. -/
theorem assemble_cases (n : Nat) (objective : QuadExpr α) (constraints : List (Constraint α)) :
    (Refers n objective constraints ∧
      ∃ i, assemble n objective constraints = .error (.unknownVariable i)) ∨
    ¬Refers n objective constraints ∧ assemble n objective constraints
      = if arrayLimit ≤ n then .error .tooManyVariables
        else .ok (assembled n objective constraints) := by
  rcases checkIndex_max? n (objective.quadratic.keys.map (·.second.index)
      ++ objective.linear.terms.keys.map (·.index)) with ⟨hok, hlt⟩ | ⟨⟨i, hi, hle⟩, j, hj⟩
  · have hquad : ∀ p ∈ objective.quadratic.keys, p.first.index < n ∧ p.second.index < n := by
      intro p hp
      have := hlt p.second.index (List.mem_append_left _ (List.mem_map.mpr ⟨p, hp, rfl⟩))
      have := p.ordered
      omega
    have hlin : ∀ v ∈ objective.linear.terms.keys, v.index < n := fun v hv =>
      hlt v.index (List.mem_append_right _ (List.mem_map.mpr ⟨v, hv, rfl⟩))
    have hobjective : checkIndex n objective.highestIndex? = .ok () := hok
    rcases forM_checkIndex n constraints with ⟨hrest, hall⟩ | ⟨hrefers, j, hj⟩
    · refine .inr ⟨?_, ?_⟩
      · rintro (⟨p, hp, hle⟩ | ⟨v, hv, hle⟩ | ⟨c, hc, v, hv, hle⟩)
        · have := hquad p hp
          omega
        · have := hlin v hv
          omega
        · have := hall c hc v hv
          omega
      · unfold assemble
        rw [hobjective]
        simp only [bind, Except.bind]
        rw [hrest]
        by_cases hn : arrayLimit ≤ n
        · simp [hn, throw, throwThe, MonadExceptOf.throw]
        · simp [hn, assembled, pure, Except.pure]
    · refine .inl ⟨.inr (.inr hrefers), j, ?_⟩
      unfold assemble
      rw [hobjective]
      simp only [bind, Except.bind]
      rw [hj]
  · refine .inl ⟨?_, j, ?_⟩
    · rcases List.mem_append.mp hi with hi | hi
      · obtain ⟨p, hp, rfl⟩ := List.mem_map.mp hi
        exact .inl ⟨p, hp, .inr hle⟩
      · obtain ⟨v, hv, rfl⟩ := List.mem_map.mp hi
        exact .inr (.inl ⟨v, hv, hle⟩)
    · have hobjective : checkIndex n objective.highestIndex? = .error (.unknownVariable j) := hj
      unfold assemble
      rw [hobjective]
      rfl

/-! ### Places -/

/-- Each product has a place of its own. -/
theorem nodup_hessianTriplets (objective : QuadExpr α) :
    ((objective.quadratic.toList.map hessianTriplet).map Triplet.place).Nodup := by
  have hplaces : (objective.quadratic.toList.map hessianTriplet).map Triplet.place
      = (objective.quadratic.toList.map Prod.fst).map fun p => (p.first.index, p.second.index) := by
    rw [List.map_map, List.map_map]
    rfl
  rw [hplaces]
  refine List.Nodup.map ?_ objective.quadratic.nodup
  rintro ⟨⟨i⟩, ⟨j⟩, hij⟩ ⟨⟨i'⟩, ⟨j'⟩, hij'⟩ h
  obtain ⟨rfl, rfl⟩ := Prod.mk.inj h
  rfl

omit [Scalar α] in
/-- Each term of each row has a place of its own. -/
theorem nodup_rowTerms {β : Type} (terms : β → TermMap Variable α) (rows : List β) :
    ((rows.zipIdx.flatMap fun r => (terms r.1).toList.map fun t =>
      (⟨r.2, t.1.index, t.2⟩ : Triplet α)).map Triplet.place).Nodup := by
  have hrow : ∀ r : β × Nat, ((terms r.1).toList.map fun t =>
      (⟨r.2, t.1.index, t.2⟩ : Triplet α)).map Triplet.place
        = (terms r.1).keys.map fun v => (r.2, v.index) := by
    intro r
    rw [TermMap.keys, List.map_map, List.map_map]
    rfl
  rw [List.map_flatMap, List.nodup_flatMap]
  constructor
  · intro r _
    rw [hrow]
    refine List.Nodup.map ?_ (terms r.1).nodup
    rintro ⟨i⟩ ⟨j⟩ h
    exact congrArg Variable.mk (Prod.mk.inj h).2
  · -- Different rows share no place.
    have hpairwise := List.pairwise_map.mp (List.nodup_zipIdx_map_snd rows)
    refine hpairwise.imp ?_
    intro r s hne p hp hq
    simp only [hrow] at hp hq
    obtain ⟨_, _, rfl⟩ := List.mem_map.mp hp
    obtain ⟨_, _, hq⟩ := List.mem_map.mp hq
    exact hne (Prod.mk.inj hq).1.symm

end Outcome

variable {K : Type} [Field K] [LinearOrder K] [ExactScalar K] {n : Nat}

/-! ### The quadratic part -/

/-- The upper triangle that stands for the products of an objective. -/
def hessian (n : Nat) (objective : QuadExpr K) : Csc K :=
  .ofTriplets n n (objective.quadratic.toList.map hessianTriplet)

theorem assembled_P (n : Nat) (objective : QuadExpr K) (cs : List (Constraint (Extended K))) :
    (assembled n objective.lift cs).P = (hessian n objective).mapValues .finite := by
  have htriplet : ∀ t : VarPair × K,
      hessianTriplet (t.1, Extended.finite t.2) = (hessianTriplet t).mapValue .finite := by
    intro t
    by_cases ht : t.1.first = t.1.second
    · simp only [hessianTriplet, Triplet.mapValue, ht, if_true]
      rfl
    · simp only [hessianTriplet, Triplet.mapValue, ht, if_false]
  rw [hessian, ← Csc.ofTriplets_map (fun _ _ => Extended.finite_lt_finite) Extended.finite_add,
    List.map_map]
  simp only [assembled, QuadExpr.lift, QuadExpr.mapCoeff, TermMap.mapCoeff, List.map_map,
    Function.comp_def, htriplet]

section Quadratic

variable {objective : QuadExpr K} (hindex : ∀ p ∈ objective.quadratic.keys, p.second.index < n)

include hindex

theorem hessianTriplets_lt {t : Triplet K}
    (ht : t ∈ objective.quadratic.toList.map hessianTriplet) : t.row ≤ t.col ∧ t.col < n := by
  obtain ⟨e, he, rfl⟩ := List.mem_map.mp ht
  exact ⟨e.1.ordered, hindex e.1 (List.mem_map_of_mem he)⟩

theorem entries_hessian_perm : (hessian n objective).entries.Perm
    ((objective.quadratic.toList.map hessianTriplet).map Triplet.entry) :=
  Csc.entries_ofTriplets_perm lt_irrefl (nodup_hessianTriplets objective)
    fun _ ht => (hessianTriplets_lt hindex ht).2

theorem valid_hessian : (hessian n objective).Valid := by
  apply Csc.valid_ofTriplets lt_irrefl (nodup_hessianTriplets objective)
  · intro t ht
    obtain ⟨hle, hlt⟩ := hessianTriplets_lt hindex ht
    omega
  · exact fun t ht => (hessianTriplets_lt hindex ht).2

theorem hessian_le {e : Nat × Nat × K} (he : e ∈ (hessian n objective).entries) : e.1 ≤ e.2.1 := by
  obtain ⟨t, ht, rfl⟩ := List.mem_map.mp ((entries_hessian_perm hindex).mem_iff.mp he)
  exact (hessianTriplets_lt hindex ht).1

variable [IsStrictOrderedRing K]

/-- Half the quadratic form is the sum of the products. -/
theorem half_dotProduct_hessian (x : Vec K n) :
    1 / 2 * (x.get ⬝ᵥ (hessian n objective).mirror n *ᵥ x.get)
      = termSum objective.quadratic.toList
          fun p => x.coord p.first.index * x.coord p.second.index := by
  rw [Csc.dotProduct_mirror_mulVec (fun _ => hessian_le hindex),
    ((entries_hessian_perm hindex).map _).sum_eq, ← List.sum_map_mul_left, termSum, List.map_map,
    List.map_map]
  congr 1
  apply List.map_congr_left
  intro t _
  have hliteral : (2.0 : K) = 2 := by norm_num
  show 1 / 2 * ((if t.1.first.index = t.1.second.index then (1 : K) else 2)
    * ((if t.1.first = t.1.second then 2.0 * t.2 else t.2)
      * (x.coord t.1.first.index * x.coord t.1.second.index))) = _
  by_cases ht : t.1.first = t.1.second
  · rw [if_pos (congrArg Variable.index ht), if_pos ht, hliteral]
    ring
  · have hindex : t.1.first.index ≠ t.1.second.index := by
      intro he
      obtain ⟨⟨⟨i⟩, ⟨j⟩, hij⟩, c⟩ := t
      exact ht (congrArg Variable.mk he)
    rw [if_neg hindex, if_neg ht]
    ring

end Quadratic

/-! ### The linear part -/

omit [Field K] [LinearOrder K] [ExactScalar K] in
theorem size_foldl_setIfInBounds (ts : List (Variable × K)) (row : Array K) :
    (ts.foldl (fun row t => row.setIfInBounds t.1.index t.2) row).size = row.size := by
  induction ts generalizing row with
  | nil => rfl
  | cons t ts ih => rw [List.foldl_cons, ih, Array.size_setIfInBounds]

theorem size_denseRow (n : Nat) (e : LinExpr K) : (denseRow n e).size = n := by
  rw [denseRow, size_foldl_setIfInBounds, Array.size_replicate]

theorem denseRow_lift (n : Nat) (e : LinExpr K) :
    denseRow n e.lift = (denseRow n e).map .finite := by
  have hfold : ∀ (ts : List (Variable × K)) (row : Array K),
      (ts.map fun t => (t.1, Extended.finite t.2)).foldl
          (fun row t => row.setIfInBounds t.1.index t.2) (row.map Extended.finite)
        = (ts.foldl (fun row t => row.setIfInBounds t.1.index t.2) row).map Extended.finite := by
    intro ts
    induction ts with
    | nil => intro row; rfl
    | cons t ts ih =>
      intro row
      rw [List.map_cons, List.foldl_cons, List.foldl_cons, ← ih, Array.map_setIfInBounds]
  rw [denseRow, denseRow, ← hfold, Array.map_replicate]
  rfl

/-- Coefficients set at positions of their own, against the coordinates of a
point. -/
theorem sum_foldl_setIfInBounds (x : Vec K n) : ∀ (ts : List (Variable × K)) (row : Array K),
    row.size = n → (ts.map Prod.fst).Nodup → (∀ t ∈ ts, t.1.index < n) →
    (∀ t ∈ ts, row.getD t.1.index 0 = 0) →
    ∑ j : Fin n, (ts.foldl (fun row t => row.setIfInBounds t.1.index t.2) row).getD j 0 * x.get j
      = ∑ j : Fin n, row.getD j 0 * x.get j + termSum ts fun v => x.coord v.index
  | [], row, _, _, _, _ => by simp [termSum]
  | t :: ts, row, hsize, hnodup, hindex, hzero => by
    obtain ⟨hhead, htail⟩ := List.nodup_cons.mp hnodup
    have hlt : t.1.index < row.size := by
      rw [hsize]
      exact hindex t (by simp)
    have hget : ∀ j, (row.setIfInBounds t.1.index t.2).getD j 0
        = row.getD j 0 + if j = t.1.index then t.2 else 0 := by
      intro j
      by_cases hj : j = t.1.index
      · subst hj
        rw [if_pos rfl, hzero t (by simp), zero_add]
        simp [Array.getD_eq_getD_getElem?, hlt]
      · rw [if_neg hj, add_zero]
        simp [Array.getD_eq_getD_getElem?, Ne.symm hj]
    have hrest : ∀ s ∈ ts, (row.setIfInBounds t.1.index t.2).getD s.1.index 0 = 0 := by
      intro s hs
      have hne : s.1.index ≠ t.1.index := by
        intro he
        have hvar : s.1 = t.1 := congrArg Variable.mk he
        exact hhead (hvar ▸ List.mem_map_of_mem hs)
      rw [hget, if_neg hne, add_zero]
      exact hzero s (List.mem_cons_of_mem _ hs)
    have hpoint : ∑ j : Fin n, (if j.val = t.1.index then t.2 else 0) * x.get j
        = t.2 * x.coord t.1.index := by
      have hn : t.1.index < n := hindex t (by simp)
      rw [Finset.sum_eq_single ⟨t.1.index, hn⟩]
      · simp [← Vec.coord_eq_get]
      · intro j _ hne
        have : j.val ≠ t.1.index := fun h => hne (Fin.ext h)
        simp [this]
      · simp
    rw [List.foldl_cons, sum_foldl_setIfInBounds x ts _ (by rw [Array.size_setIfInBounds, hsize])
      htail (fun s hs => hindex s (List.mem_cons_of_mem _ hs)) hrest]
    simp only [hget, add_mul, Finset.sum_add_distrib, hpoint]
    rw [termSum, termSum, List.map_cons, List.sum_cons, add_assoc]

theorem sum_denseRow {e : LinExpr K} (hindex : ∀ v ∈ e.terms.keys, v.index < n) (x : Vec K n) :
    ∑ j : Fin n, (denseRow n e).getD j 0 * x.get j
      = termSum e.terms.toList fun v => x.coord v.index := by
  have hzero : ∀ j, (Array.replicate n (0 : K)).getD j 0 = 0 := by
    intro j
    rw [Array.getD_eq_getD_getElem?, Array.getElem?_replicate]
    by_cases hj : j < n <;> simp [hj]
  rw [denseRow, sum_foldl_setIfInBounds x e.terms.toList _ Array.size_replicate e.terms.nodup
    (fun t ht => hindex t.1 (List.mem_map_of_mem ht)) fun t _ => hzero _]
  simp [hzero]

/-! ### The constraint matrix -/

/-- The entries that the expression bounded in row `r.2` stores. -/
def boundedTriplets (r : Requirement K × Nat) : List (Triplet K) :=
  r.1.bounded.terms.toList.map fun t => ⟨r.2, t.1.index, t.2⟩

/-- The matrix whose rows are the bounded expressions. -/
def boundedRows (n : Nat) (rs : List (Requirement K)) : Csc K :=
  .ofTriplets rs.length n (rs.zipIdx.flatMap boundedTriplets)

section Rows

variable {rs : List (Requirement K)}

theorem mem_boundedTriplets {t : Triplet K} (ht : t ∈ rs.zipIdx.flatMap boundedTriplets) :
    t.row < rs.length ∧ ∃ r ∈ rs, ∃ v ∈ r.bounded.terms.keys, t.col = v.index := by
  obtain ⟨⟨r, i⟩, hr, ht⟩ := List.mem_flatMap.mp ht
  obtain ⟨e, he, rfl⟩ := List.mem_map.mp ht
  have hlt : i < rs.length + 0 := List.snd_lt_of_mem_zipIdx hr
  exact ⟨hlt, r, List.fst_mem_of_mem_zipIdx hr, e.1, List.mem_map_of_mem he, rfl⟩

theorem nodup_boundedTriplets (rs : List (Requirement K)) :
    ((rs.zipIdx.flatMap boundedTriplets).map Triplet.place).Nodup :=
  nodup_rowTerms (fun r => r.bounded.terms) rs

theorem flatMap_rowTriplets {cs : List (Constraint (Extended K))}
    (hcs : List.Forall₂ (fun r c => Requirement.build r = .ok c) rs cs) (k : Nat) :
    (cs.zipIdx k).flatMap rowTriplets
      = ((rs.zipIdx k).flatMap boundedTriplets).map (.mapValue .finite) := by
  induction hcs generalizing k with
  | nil => rfl
  | @cons r c rs cs hc _ ih =>
    have hrow : rowTriplets (c, k) = (boundedTriplets (r, k)).map (.mapValue .finite) := by
      simp only [rowTriplets, boundedTriplets, Requirement.terms_eq hc, TermMap.mapCoeff,
        List.map_map]
      rfl
    rw [List.zipIdx_cons, List.zipIdx_cons, List.flatMap_cons, List.flatMap_cons, List.map_append,
      ih, hrow]

theorem assembled_A {cs : List (Constraint (Extended K))}
    (hcs : List.Forall₂ (fun r c => Requirement.build r = .ok c) rs cs) (n : Nat)
    (objective : QuadExpr (Extended K)) :
    (assembled n objective cs).A = (boundedRows n rs).mapValues .finite := by
  rw [boundedRows, ← Csc.ofTriplets_map (fun _ _ => Extended.finite_lt_finite) Extended.finite_add,
    ← flatMap_rowTriplets hcs, hcs.length_eq]
  rfl

variable (hindex : ∀ r ∈ rs, ∀ v ∈ r.bounded.terms.keys, v.index < n)

include hindex

theorem boundedTriplets_lt {t : Triplet K} (ht : t ∈ rs.zipIdx.flatMap boundedTriplets) :
    t.row < rs.length ∧ t.col < n := by
  obtain ⟨hlt, r, hr, v, hv, hcol⟩ := mem_boundedTriplets ht
  exact ⟨hlt, hcol ▸ hindex r hr v hv⟩

theorem valid_boundedRows : (boundedRows n rs).Valid :=
  Csc.valid_ofTriplets lt_irrefl (nodup_boundedTriplets rs)
    (fun _ ht => (boundedTriplets_lt hindex ht).1) (fun _ ht => (boundedTriplets_lt hindex ht).2)

/-- A row against a point is the sum of the terms of the expression. -/
theorem boundedRows_mulVec (x : Vec K n) (i : Fin rs.length) :
    ((boundedRows n rs).toMatrix rs.length n *ᵥ x.get) i
      = termSum rs[i].bounded.terms.toList fun v => x.coord v.index := by
  have hperm := Csc.entries_ofTriplets_perm (m := rs.length) lt_irrefl (nodup_boundedTriplets rs)
    fun _ ht => (boundedTriplets_lt hindex ht).2
  have hrow : ∀ r : Requirement K × Nat, ((boundedTriplets r).map fun t =>
      if t.row = i.val then t.val * x.coord t.col else 0).sum
        = if r.2 = i.val then termSum r.1.bounded.terms.toList fun v => x.coord v.index else 0 := by
    intro r
    by_cases hr : r.2 = i.val
    · simp [boundedTriplets, termSum, hr, Function.comp_def]
    · simp [boundedTriplets, hr, Function.comp_def]
  have hzipIdx : rs.zipIdx = (List.finRange rs.length).map fun k => (rs[k], k.val) := by
    apply List.ext_getElem
    · simp
    · intro k h _
      simp
  rw [Csc.toMatrix_mulVec, boundedRows, (hperm.map _).sum_eq, List.map_map]
  calc ((rs.zipIdx.flatMap boundedTriplets).map fun t =>
          if t.row = i.val then t.val * x.coord t.col else 0).sum
      = (rs.zipIdx.map fun r => if r.2 = i.val then
          termSum r.1.bounded.terms.toList fun v => x.coord v.index else 0).sum := by
        simp only [List.flatMap_def, List.map_flatten, List.sum_flatten, List.map_map,
          Function.comp_def, hrow]
    _ = ∑ k : Fin rs.length, if k.val = i.val then
          termSum rs[k].bounded.terms.toList fun v => x.coord v.index else 0 := by
        rw [hzipIdx, List.map_map, Fin.sum_univ_def]
        rfl
    _ = _ := by simp [← Fin.ext_iff]

end Rows

/-! ### The whole form -/

/-- The numbers of `F` are those of matrices and vectors over `n` variables that
have the value of the objective at each point, and whose bounds hold at a point
exactly when the requirements do. -/
def Represents (F : StandardForm (Extended K)) (n : Nat) (objective : QuadExpr K)
    (rs : List (Requirement K)) : Prop :=
  ∃ (P A : Csc K) (q : Vec K n) (constant : K) (l u : Vec (Extended K) rs.length),
    F = ⟨⟨P.mapValues .finite, q.toArray.map .finite, A.mapValues .finite, l.toArray, u.toArray⟩,
      .finite constant⟩ ∧
    (P.m = n ∧ P.n = n) ∧ (A.m = rs.length ∧ A.n = n) ∧
    ∀ x : Vec K n,
      1 / 2 * (x.get ⬝ᵥ P.mirror n *ᵥ x.get) + q.get ⬝ᵥ x.get + constant
        = objective.value (fun v => x.coord v.index) ∧
      ((∀ i, l.get i ≤ .finite ((A.toMatrix rs.length n *ᵥ x.get) i) ∧
          .finite ((A.toMatrix rs.length n *ᵥ x.get) i) ≤ u.get i) ↔
        ∀ r ∈ rs, r.Holds fun v => x.coord v.index)

section Whole

variable {objective : QuadExpr K} {rs : List (Requirement K)} {cs : List (Constraint (Extended K))}
  (hcs : List.Forall₂ (fun r c => Requirement.build r = .ok c) rs cs)
  (hrefers : ¬Refers n objective.lift cs)

omit [Field K] [LinearOrder K] [ExactScalar K] in
include hrefers in
theorem index_lt_of_not_refers :
    (∀ p ∈ objective.quadratic.keys, p.second.index < n) ∧
      ∀ v ∈ objective.linear.terms.keys, v.index < n := by
  constructor
  · intro p hp
    by_contra hle
    refine hrefers (.inl ⟨p, ?_, .inr (Nat.le_of_not_lt hle)⟩)
    exact (TermMap.keys_mapCoeff objective.quadratic Extended.finite).symm ▸ hp
  · intro v hv
    by_contra hle
    refine hrefers (.inr (.inl ⟨v, ?_, Nat.le_of_not_lt hle⟩))
    exact (TermMap.keys_mapCoeff objective.linear.terms Extended.finite).symm ▸ hv

include hcs hrefers

theorem bounded_index_lt : ∀ r ∈ rs, ∀ v ∈ r.bounded.terms.keys, v.index < n := by
  intro r hr v hv
  obtain ⟨i, hi, rfl⟩ := List.mem_iff_getElem.mp hr
  have hi' : i < cs.length := hcs.length_eq ▸ hi
  have hterms := Requirement.terms_eq (hcs.get hi hi')
  by_contra hle
  refine hrefers (.inr (.inr ⟨cs[i], List.getElem_mem hi', v, ?_, Nat.le_of_not_lt hle⟩))
  rw [← TermMap.keys_mapCoeff _ Extended.finite] at hv
  exact hterms.symm ▸ hv

variable [IsStrictOrderedRing K]

theorem assembled_represents : (assembled n objective.lift cs).Represents n objective rs := by
  obtain ⟨hquadratic, hlinear⟩ := index_lt_of_not_refers hrefers
  have hbounded := bounded_index_lt hcs hrefers
  have hlength := hcs.length_eq
  let q : Vec K n := ⟨denseRow n objective.linear, size_denseRow n objective.linear⟩
  let l : Vec (Extended K) rs.length :=
    ⟨(cs.map Constraint.lower).toArray, by rw [List.size_toArray, List.length_map, hlength]⟩
  let u : Vec (Extended K) rs.length :=
    ⟨(cs.map Constraint.upper).toArray, by rw [List.size_toArray, List.length_map, hlength]⟩
  refine ⟨hessian n objective, boundedRows n rs, q, objective.linear.constant, l, u, ?_,
    ⟨rfl, rfl⟩, ⟨rfl, rfl⟩, fun x => ⟨?_, ?_⟩⟩
  · have hq : (assembled n objective.lift cs).q = q.toArray.map Extended.finite :=
      denseRow_lift n objective.linear
    rw [← assembled_P n objective cs, ← assembled_A hcs n objective.lift, ← hq]
    rfl
  · have hq : q.get ⬝ᵥ x.get = termSum objective.linear.terms.toList fun v => x.coord v.index := by
      rw [← sum_denseRow hlinear x]
      apply Finset.sum_congr rfl
      intro j _
      have hj : j.val < (denseRow n objective.linear).size := by
        rw [size_denseRow]
        exact j.isLt
      simp [q, Vec.get_eq_getElem, Array.getD_eq_getD_getElem?, hj]
    rw [half_dotProduct_hessian hquadratic, hq, QuadExpr.value_eq, LinExpr.value_eq]
    ring
  · have hrow : ∀ i : Fin rs.length,
        (l.get i ≤ .finite (((boundedRows n rs).toMatrix rs.length n *ᵥ x.get) i) ∧
          .finite (((boundedRows n rs).toMatrix rs.length n *ᵥ x.get) i) ≤ u.get i) ↔
        rs[i].Holds fun v => x.coord v.index := by
      intro i
      have hi : i.val < cs.length := hlength ▸ i.isLt
      have hl : l.get i = cs[i.val].lower := by simp [l, Vec.get_eq_getElem]
      have hu : u.get i = cs[i.val].upper := by simp [u, Vec.get_eq_getElem]
      rw [boundedRows_mulVec hbounded x i, hl, hu]
      exact (Requirement.holds_iff (hcs.get i.isLt hi) _).symm
    rw [forall_congr' hrow, List.forall_mem_iff_getElem, Fin.forall_iff]
    rfl

end Whole

/-- Assembly refuses exactly the problems with a term beyond the variables, and
otherwise gives the standard form of the objective and of what the constraints
require. It stops, and returns nothing, if there is no room for an array of `n`
numbers; `tooManyVariables` stands for that stop. -/
theorem assemble_represents [IsStrictOrderedRing K] (n : Nat) (objective : QuadExpr K)
    {rs : List (Requirement K)} {cs : List (Constraint (Extended K))}
    (hcs : List.Forall₂ (fun r c => Requirement.build r = .ok c) rs cs) :
    ((∃ i, assemble n objective.lift cs = .error (.unknownVariable i)) ↔
      Refers n objective.lift cs) ∧
    (¬Refers n objective.lift cs →
      if arrayLimit ≤ n then assemble n objective.lift cs = .error .tooManyVariables
      else ∃ F, assemble n objective.lift cs = .ok F ∧
        F.P.validate = .ok () ∧ F.A.validate = .ok () ∧ F.P.isUpper = true ∧
        F.Represents n objective rs) := by
  rcases assemble_cases n objective.lift cs with ⟨hrefers, hfails⟩ | ⟨hrefers, heq⟩
  · exact ⟨iff_of_true hfails hrefers, fun h => absurd hrefers h⟩
  · refine ⟨iff_of_false ?_ hrefers, fun _ => ?_⟩
    · rintro ⟨i, hi⟩
      rw [heq] at hi
      by_cases hn : arrayLimit ≤ n <;> simp [hn] at hi
    · by_cases hn : arrayLimit ≤ n
      · rw [if_pos hn, heq, if_pos hn]
      · have hquadratic := (index_lt_of_not_refers hrefers).1
        have hbounded := bounded_index_lt hcs hrefers
        have hroom : n + 1 < wordSize := by
          simp only [arrayLimit, wordSize] at hn ⊢
          omega
        have hP : ((hessian n objective).mapValues Extended.finite).Valid :=
          (valid_hessian hquadratic).mapValues _
        have hA : ((boundedRows n rs).mapValues Extended.finite).Valid :=
          (valid_boundedRows hbounded).mapValues _
        have hupper : (hessian n objective).isUpper = true :=
          Csc.isUpper_of_le (valid_hessian hquadratic) fun _ => hessian_le hquadratic
        rw [if_neg hn]
        refine ⟨assembled n objective.lift cs, by rw [heq, if_neg hn], ?_, ?_, ?_,
          assembled_represents hcs hrefers⟩
        · rw [assembled_P]
          exact Csc.validate_of_valid hP hroom
        · rw [assembled_A hcs]
          exact Csc.validate_of_valid hA hroom
        · rw [assembled_P]
          exact hupper

/-- The objective `3 x₀² + x₀ x₁ - x₁ + 5`. -/
def pairObjective : QuadExpr ℚ :=
  ⟨⟨[(.of ⟨0⟩ ⟨0⟩, 3), (.of ⟨1⟩ ⟨0⟩, 1)], by decide⟩, ⟨⟨[(⟨1⟩, -1)], by decide⟩, 5⟩⟩

/-- The requirements `x₀ + 1 ≤ x₁` and `-∞ ≤ x₀ + x₁ ≤ 4`. -/
def pairRequirements : List (Requirement ℚ) :=
  let x : LinExpr ℚ := ⟨⟨[(⟨0⟩, 1)], by decide⟩, 0⟩
  let y : LinExpr ℚ := ⟨⟨[(⟨1⟩, 1)], by decide⟩, 0⟩
  let sum : LinExpr ℚ := x + y
  let next : LinExpr ℚ := ⟨⟨[(⟨0⟩, 1)], by decide⟩, 1⟩
  [.compare next .lessEqual y, .between sum .negInf (.finite 4)]

theorem assemble_represents_pair : ∃ cs F,
    List.Forall₂ (fun r c => Requirement.build r = .ok c) pairRequirements cs ∧
    assemble 2 pairObjective.lift cs = .ok F ∧
    F.P.validate = .ok () ∧ F.A.validate = .ok () ∧ F.P.isUpper = true ∧
    F.Represents 2 pairObjective pairRequirements := by
  obtain ⟨cs, hcs, hrefers⟩ : ∃ cs,
      List.Forall₂ (fun r c => Requirement.build r = .ok c) pairRequirements cs ∧
        ¬Refers 2 pairObjective.lift cs :=
    ⟨_, .cons rfl (.cons rfl .nil), by decide⟩
  have hroom : ¬arrayLimit ≤ 2 := by decide
  have hassemble := (assemble_represents 2 pairObjective hcs).2 hrefers
  rw [if_neg hroom] at hassemble
  obtain ⟨F, hF⟩ := hassemble
  exact ⟨cs, F, hcs, hF⟩
end StandardForm
end QuadOpt
