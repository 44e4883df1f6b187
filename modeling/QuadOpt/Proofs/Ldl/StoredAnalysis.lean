/-
# The analysis in place

Placing the entries of a matrix in the columns of its triangle records a place for
each of them, and no place is recorded twice; so new values that are written to the
places are the values of the triangle, whatever values it had before.

Key definitions: `valueIndices`, `triangleWith`, `LdlStorage.Represents`.
Key theorems: `Order.permuteStored?_eq`, `Analysis.runStored?_storedColumns`,
`LdlStorage.analyse_represents`, `LdlStorage.Represents.setValues`,
`LdlStorage.Represents.solve`.
-/
import QuadOpt.Proofs.Ldl.History
import QuadOpt.Proofs.Ldl.Permuted
import QuadOpt.Proofs.Ldl.StoredColumns

namespace QuadOpt

variable {α : Type} {n : Nat}

/-! ### Placing the entries -/

section Place

variable [Scalar α] {A : Csc α}

/-- The entries of a square matrix, numbered as they are stored. -/
theorem Csc.exists_numbered (h : A.Valid) (hm : A.m = n) (hn : A.n = n) :
    ∃ ts : List ((Fin n × Fin n) × Nat),
      (A.entries.map fun e => (e.1, e.2.1)).zipIdx
        = ts.map (fun t => ((t.1.1.val, t.1.2.val), t.2)) ∧
      A.entries = ts.map (fun t => (t.1.1.val, t.1.2.val, A.nzval.getD t.2 0)) ∧
      ts.map Prod.snd = List.range A.nzval.size := by
  obtain ⟨ts, hts⟩ := Csc.exists_positions h hm hn
  refine ⟨ts, (Csc.zipIdx_places h).trans hts, ?_, ?_⟩
  · have hentries := congrArg (List.map fun p => (p.1.1, p.1.2, A.nzval.getD p.2 0)) hts
    rw [List.map_map, List.map_map] at hentries
    rw [Csc.entries_eq_map_slots h]
    exact hentries
  · have hindices := congrArg (List.map Prod.snd) hts
    rw [List.map_map, List.map_map] at hindices
    rw [h.nzval_size, ← Csc.map_fst_slots h]
    exact hindices.symm

/-- The indices of the values as they come in a triangle. -/
def valueIndices (upper : Vector (List (Fin n × Nat)) n) : List Nat :=
  (upper.toList.map (List.map Prod.snd)).flatten

/-- A triangle with given values. -/
def triangleWith (upper : Vector (List (Fin n × Nat)) n) (values : Array α) :
    Vector (List (Fin n × α)) n :=
  upper.map fun col => col.map fun e => (e.1, values.getD e.2 0)

theorem toList_triangleWith (upper : Vector (List (Fin n × Nat)) n) (values : Array α) :
    (triangleWith upper values).toList
      = upper.toList.map (List.map fun e => (e.1, values.getD e.2 0)) := Vector.toList_map

theorem toList_values_triangleWith (upper : Vector (List (Fin n × Nat)) n) (values : Array α) :
    ((triangleWith upper values).toList.map (List.map Prod.snd)).flatten
      = (valueIndices upper).map fun k => values.getD k 0 := by
  simp [toList_triangleWith, valueIndices, List.map_flatten, Function.comp_def]

section Moved

variable (o : Order n) (ts : List ((Fin n × Fin n) × Nat))

/-- The columns of the triangle list the entries by the columns that these are moved to. -/
theorem Order.permuted_eq_byKey {places : List (Nat × Nat)}
    (hzip : places.zipIdx = ts.map fun t => ((t.1.1.val, t.1.2.val), t.2)) :
    (o.permuted places).toList = (byKey (fun t => (o.upperPosition t.1.1 t.1.2).2) ts).map
      (List.map fun t => ((o.upperPosition t.1.1 t.1.2).1, t.2)) := by
  rw [Vec.toList_eq_map_get, byKey, List.map_map]
  exact List.map_congr_left fun c _ => o.get_permuted hzip c

/-- All entries are moved. -/
theorem Order.mapM_upperPosition (values : Array α) :
    ((ts.map fun t => (t.1.1.val, t.1.2.val, values.getD t.2 0)).mapM fun e =>
      if h : e.1 < n ∧ e.2.1 < n then some (o.upperPosition ⟨e.1, h.1⟩ ⟨e.2.1, h.2⟩, e.2.2)
      else none) = some (ts.map fun t => (o.upperPosition t.1.1 t.1.2, values.getD t.2 0)) := by
  rw [List.mapM_map]
  simp only [Function.comp_def, Fin.is_lt, and_self, dite_true, Fin.eta]
  exact List.mapM_pure

end Moved

/-- The entries are placed in the triangle, and each of them is where its place is
recorded. -/
theorem Order.permuteStored?_eq (o : Order n) (h : A.Valid) (hm : A.m = n) (hn : A.n = n) :
    ∃ places : Array Nat, o.permuteStored? A = some (storedColumns (triangleWith
        (o.permuted (A.entries.map fun e => (e.1, e.2.1))) A.nzval), places) ∧
      places.size = A.nzval.size ∧ ∀ k p : Nat, places[k]? = some p ↔
        (valueIndices (o.permuted (A.entries.map fun e => (e.1, e.2.1))))[p]? = some k := by
  obtain ⟨ts, hzip, hentries, hnumbered⟩ := Csc.exists_numbered h hm hn
  have hcount : ts.length = A.nzval.size := by
    rw [← List.length_map (f := Prod.snd), hnumbered, List.length_range]
  have hnodup : ts.Nodup := List.Nodup.of_map Prod.snd (by
    rw [hnumbered]
    exact List.nodup_range)
  let key : (Fin n × Fin n) × Nat → Fin n := fun t => (o.upperPosition t.1.1 t.1.2).2
  let item : (Fin n × Fin n) × Nat → Nat × α := fun t =>
    ((o.upperPosition t.1.1 t.1.2).1.val, A.nzval.getD t.2 0)
  have hupper := o.permuted_eq_byKey ts hzip
  have hmoved := o.mapM_upperPosition ts A.nzval
  rw [← hentries] at hmoved
  obtain ⟨counts, htally, hcounts⟩ := tally?_byKey key ts
  obtain ⟨s, hs, hcells, hsize, hplaces⟩ := distribute?_byKey key ts hnodup item (0, 0)
  have hnnz : A.nnz = ts.length := by
    rw [Csc.nnz, h.start_last, ← h.nzval_size, hcount]
  refine ⟨s.places, ?_, hsize.trans hcount, fun k p => ?_⟩
  · have hstored : (⟨n, n, pointers counts.toList, s.cells.map Prod.fst,
        s.cells.map Prod.snd⟩ : Csc α) = storedColumns (triangleWith
          (o.permuted (A.entries.map fun e => (e.1, e.2.1))) A.nzval) := by
      refine eq_storedColumns rfl rfl ?_ ?_ ?_
      · rw [hcounts, triangleWith, Vector.toList_map, hupper]
        simp [key, Function.comp_def]
      · rw [Array.toList_map, hcells, triangleWith, Vector.toList_map, hupper]
        simp [List.map_flatten, Function.comp_def, key, item]
      · rw [Array.toList_map, hcells, triangleWith, Vector.toList_map, hupper]
        simp [List.map_flatten, Function.comp_def, key, item]
    rw [permuteStored?, hmoved]
    simp only [bind, Option.bind_some, List.map_map, Function.comp_def]
    rw [htally, Option.bind_some, hnnz, hcounts, hs, Option.bind_some, ← hcounts, hstored]
    rfl
  · have hindices : valueIndices (o.permuted (A.entries.map fun e => (e.1, e.2.1)))
        = (byKey key ts).flatten.map Prod.snd := by
      simp [valueIndices, hupper, key, List.map_flatten, Function.comp_def]
    rw [hplaces, hindices, List.getElem?_map, Option.map_eq_some_iff]
    refine exists_congr fun t => ?_
    rw [Csc.getElem?_of_map_eq_range hnumbered]
    constructor
    · rintro ⟨⟨-, rfl⟩, hp⟩
      exact ⟨hp, rfl⟩
    · rintro ⟨hp, rfl⟩
      exact ⟨⟨mem_flatten_byKey.mp (List.mem_of_getElem? hp), rfl⟩, hp⟩

end Place

/-! ### The analysis -/

theorem Analysis.runStored?_storedColumns (L : Vector (List (Fin n × α)) n) :
    Analysis.runStored? (storedColumns L) n = some (Analysis.run (Factors.rowsOf L)) := by
  rw [Analysis.runStored?, Analysis.run]
  simp only [columnBelow?_storedColumns, bind, Option.bind_some, Factors.rowsOf, Vec.get_map]
  exact List.foldlM_pure

/-- The rows of a column of the triangle are not below its diagonal. -/
theorem Ldl.Analysed.upperValues_le [Scalar α] {F : Ldl α n} {A : Csc α} (h : F.Analysed A) (j : Fin n) : ∀ e ∈ F.upperValues.get j, e.1 ≤ j := by
  intro e he
  obtain ⟨ts, hts⟩ := Csc.exists_positions h.valid h.rows_eq h.cols_eq
  rw [upperValues, Vec.get_map, h.upper_eq,
    Order.get_permuted ((Csc.zipIdx_places h.valid).trans hts), List.map_map] at he
  obtain ⟨t, ht, rfl⟩ := List.mem_map.mp he
  have hcolumn := eq_of_beq (List.mem_filter.mp ht).2
  exact hcolumn ▸ F.order.upperPosition_le t.1.1 t.1.2

namespace LdlStorage

variable [Scalar α]

/-- The arrays `S` hold what `F` is. What is in the workspace does not matter. -/
structure Represents (S : LdlStorage α n) (F : Ldl α n) : Prop where
  givenOrder : S.givenOrder = F.givenOrder
  order : S.order = F.order
  upper : S.upper = storedColumns F.upperValues
  size_places : S.places.size = F.values.size
  places : ∀ k p : Nat, S.places[k]? = some p ↔ (valueIndices F.upper)[p]? = some k
  forest : S.forest = F.forest
  counts : S.counts = F.counts
  lower : S.lower = storedColumns F.lower
  D : S.D = F.D
  Dinv : S.Dinv = F.Dinv
  positive : S.positive = F.positive
  isFactored : S.isFactored = F.isFactored

/-- The columns of the factor start out with zeros. -/
theorem zeros_eq_storedColumns (counts : Vector Nat n) :
    (⟨n, n, pointers counts.toList, Array.replicate counts.toList.sum 0,
      Array.replicate counts.toList.sum 0⟩ : Csc α)
      = storedColumns (Vector.ofFn fun c => List.replicate (counts.get c) (⟨0, c.pos⟩, 0)) := by
  have hlengths : (Vector.ofFn fun c : Fin n =>
      List.replicate (counts.get c) ((⟨0, c.pos⟩ : Fin n), (0 : α))).toList.map List.length
        = counts.toList := by
    rw [Vec.toList_eq_map_get, Vec.toList_eq_map_get, List.map_map]
    exact List.map_congr_left fun c _ => by simp
  have hzeros : ∀ {β : Type} (f : Fin n × α → β) (x : β), (∀ c : Fin n, f (⟨0, c.pos⟩, 0) = x) →
      (Array.replicate counts.toList.sum x).toList = ((Vector.ofFn fun c : Fin n =>
        List.replicate (counts.get c) ((⟨0, c.pos⟩ : Fin n), (0 : α))).toList.map
          (List.map f)).flatten := by
    intro β f x hx
    rw [Array.toList_replicate, eq_comm, List.eq_replicate_iff]
    constructor
    · rw [List.length_flatten, List.map_map, ← hlengths]
      simp [Function.comp_def]
    · intro y hy
      obtain ⟨l, hl, hy⟩ := List.mem_flatten.mp hy
      rw [Vec.toList_eq_map_get, List.map_map] at hl
      obtain ⟨c, -, rfl⟩ := List.mem_map.mp hl
      simp only [Function.comp_apply, Vec.get_ofFn, List.map_replicate] at hy
      rw [List.eq_of_mem_replicate hy]
      exact hx c
  refine eq_storedColumns rfl rfl (congrArg pointers hlengths.symm) ?_ ?_
  · exact hzeros (fun e => e.1.val) 0 fun _ => rfl
  · exact hzeros Prod.snd 0 fun _ => rfl

theorem rowsOf_triangleWith (upper : Vector (List (Fin n × Nat)) n) (values : Array α) :
    Factors.rowsOf (triangleWith upper values) = upper.map fun col => col.map Prod.fst := by
  rw [Factors.rowsOf, triangleWith, Vector.map_map]
  congr 1
  funext col
  exact List.map_map

/-- An analysis in place is an analysis, in any workspace. -/
theorem analyse_represents (A : Csc α) (order : Option (Array Nat)) (W : LdlWorkspace α n) :
    (∃ S F, analyse A n order W = .ok S ∧ Ldl.analyse A n order = .ok F ∧ S.Represents F) ∨
      ∃ e, analyse A n order W = .error e ∧ Ldl.analyse A n order = .error e := by
  unfold analyse Ldl.analyse
  cases hrequire : Ldl.requireUpper A n with
  | error e => exact .inr ⟨e, rfl, rfl⟩
  | ok u =>
    simp only [bind, Except.bind]
    cases horder : Order.ofArray n (order.getD (Array.range n)) with
    | error e => exact .inr ⟨e, rfl, rfl⟩
    | ok o =>
      left
      obtain ⟨hvalid, hm, hn, -⟩ := Ldl.requireUpper_eq_ok hrequire
      obtain ⟨places, hplaced, hsize, hplaces⟩ := o.permuteStored?_eq hvalid hm hn
      have hnnz : ∀ counts : Vector Nat n,
          (pointers counts.toList)[n]? = some counts.toList.sum := by
        intro counts
        rw [getElem?_pointers _ (by simp), List.take_of_length_le (by simp), List.sum_eq_foldl]
      simp only [lay?, hplaced, bind, Option.bind_some, Analysis.runStored?_storedColumns, hnnz,
        rowsOf_triangleWith, zeros_eq_storedColumns, pure, Option.elim_some]
      exact ⟨_, _, rfl, rfl, ⟨rfl, rfl, rfl, hsize, hplaces, rfl, rfl, rfl, rfl, rfl, rfl, rfl⟩⟩

/-- What is analysed is analysed in place. -/
theorem exists_analyse {A : Csc α} {order : Option (Array Nat)} {F : Ldl α n}
    (h : Ldl.analyse A n order = .ok F) (W : LdlWorkspace α n) :
    ∃ S, analyse A n order W = .ok S ∧ S.Represents F := by
  rcases analyse_represents A order W with ⟨S, G, hS, hG, hrep⟩ | ⟨e, -, he⟩
  · obtain rfl := Except.ok.inj (h.symm.trans hG)
    exact ⟨S, hS, hrep⟩
  · rw [h] at he
    cases he

namespace Represents

variable {S : LdlStorage α n} {F : Ldl α n}

/-! ### New values -/

theorem upperValues_eq (F : Ldl α n) : F.upperValues = triangleWith F.upper F.values := rfl

theorem size_nzval_upper (h : S.Represents F) :
    S.upper.nzval.size = (valueIndices F.upper).length := by
  rw [← Array.length_toList, h.upper, toList_nzval_storedColumns, upperValues_eq,
    toList_values_triangleWith, List.length_map]

/-- No two entries are stored in one place. -/
theorem nodup_places (h : S.Represents F) : S.places.toList.Nodup := by
  rw [List.nodup_iff_getElem?_ne_getElem?]
  intro i j hij hj heq
  have hjlt : j < S.places.size := hj
  have hplace := Array.getElem?_eq_getElem hjlt
  have hi := (h.places i _).mp (by rw [← Array.getElem?_toList, heq, Array.getElem?_toList, hplace])
  rw [(h.places j _).mp hplace, Option.some_inj] at hi
  omega

/-- New values are those of the triangle when they have been written to their places. -/
theorem overwrite?_places (h : S.Represents F) {values : Array α}
    (hsize : values.size = F.values.size) :
    ∃ nzval, overwrite? S.upper.nzval (S.places.toList.zip values.toList) = some nzval ∧
      { S.upper with nzval := nzval } = storedColumns (triangleWith F.upper values) := by
  have hwrites : ∀ p x, (p, x) ∈ S.places.toList.zip values.toList ↔
      ∃ k : Nat, (valueIndices F.upper)[p]? = some k ∧ values[k]? = some x := by
    intro p x
    rw [List.mem_iff_getElem?]
    refine exists_congr fun k => ?_
    rw [List.getElem?_zip_eq_some, Array.getElem?_toList, Array.getElem?_toList, h.places]
  have hkeys : (S.places.toList.zip values.toList).map Prod.fst = S.places.toList :=
    List.map_fst_zip (by simp [hsize, h.size_places])
  obtain ⟨nzval, hnzval, hlength, hwritten, -⟩ := overwrite?_eq_some (a := S.upper.nzval)
    (S.places.toList.zip values.toList) (fun e he => by
      obtain ⟨k, hk, -⟩ := (hwrites e.1 e.2).mp he
      rw [h.size_nzval_upper]
      exact (List.getElem?_eq_some_iff.mp hk).1) (by
      rw [hkeys]
      exact h.nodup_places)
  refine ⟨nzval, hnzval, eq_storedColumns ?_ ?_ ?_ ?_ ?_⟩
  · rw [h.upper]
    rfl
  · rw [h.upper]
    simp [storedColumns, Csc.ofColumns]
  · rw [h.upper, upperValues_eq]
    simp [storedColumns, Csc.ofColumns, toList_triangleWith, Function.comp_def]
  · rw [h.upper, toList_rowval_storedColumns, upperValues_eq]
    simp [toList_triangleWith, Function.comp_def]
  · rw [toList_values_triangleWith]
    apply List.ext_getElem?
    intro p
    rw [Array.getElem?_toList, List.getElem?_map]
    cases hp : (valueIndices F.upper)[p]? with
    | none =>
      rw [List.getElem?_eq_none_iff] at hp
      rw [Array.getElem?_eq_none (by rw [hlength, h.size_nzval_upper]; exact hp)]
      rfl
    | some k =>
      have hk : k < values.size := by
        have := (Array.getElem?_eq_some_iff.mp ((h.places k p).mpr hp)).1
        rwa [h.size_places, ← hsize] at this
      have hvalue := Array.getElem?_eq_getElem hk
      rw [hwritten p _ ((hwrites p _).mpr ⟨k, hp, hvalue⟩), Option.map_some,
        Array.getD_eq_getD_getElem?, hvalue]
      rfl

theorem setValues (h : S.Represents F) (values : Array α) :
    (∃ T G, S.setValues? values = some T ∧ F.withValues? values = some G ∧ T.Represents G) ∨
      S.setValues? values = none ∧ F.withValues? values = none := by
  unfold setValues? Ldl.withValues?
  rw [h.size_places]
  by_cases hsize : values.size = F.values.size
  · left
    obtain ⟨nzval, hnzval, hupper⟩ := h.overwrite?_places hsize
    rw [if_pos hsize, if_pos hsize, hnzval]
    exact ⟨_, _, rfl, rfl, { h with
      upper := hupper
      size_places := h.size_places.trans hsize.symm
      isFactored := rfl }⟩
  · right
    rw [if_neg hsize, if_neg hsize]
    exact ⟨rfl, rfl⟩

/-! ### Solves -/

theorem solve (h : S.Represents F) (b : Vec α n) :
    (∃ T x, S.solve? b = some (T, x) ∧ F.solve? b = some x ∧ T.Represents F) ∨
      S.solve? b = none ∧ F.solve? b = none := by
  unfold solve? Ldl.solve?
  have hflag := h.isFactored
  by_cases hfactored : F.isFactored = true
  · left
    have hlower : ∀ x : Vec α n, S.lower.solveLower? x = some (solveLower F.lower x) := by
      intro x
      rw [h.lower, solveLower?_storedColumns]
    have htranspose : ∀ x : Vec α n,
        S.lower.solveLowerTranspose? x = some (solveLowerTranspose F.lower x) := by
      intro x
      rw [h.lower, solveLowerTranspose?_storedColumns]
    rw [if_pos (hflag.trans hfactored), if_pos hfactored]
    simp only [hlower, htranspose, bind, Option.bind_some, pure]
    refine ⟨_, _, rfl, ?_, { h with }⟩
    rw [h.order, h.Dinv]
  · right
    rw [if_neg (hflag ▸ hfactored), if_neg hfactored]
    exact ⟨rfl, rfl⟩

end Represents
end LdlStorage
end QuadOpt
