/-
# Slots are used within their columns

The arrays of the factor are laid out by the elimination tree of a triangle, with room for the
entries that it counts. Factoring then ends with the cursors within their columns, whether all
rows have a pivot or not, and at their ends if they have. So no slot of another column is used,
and a complete factor fills its columns exactly.

Key definitions: `SlotUse.Within`, `LdlStorage.LaidOut`.
Key theorems: `Csc.eliminationTree?_runStored?`, `LdlStorage.LaidOut.exists_prepared`,
`LdlStorage.Represents.laidOut`, `LdlStorage.refactor_withinColumns`.
-/
import QuadOpt.Proofs.Exact
import QuadOpt.Proofs.Ldl.Slots
import QuadOpt.Proofs.Ldl.Tree

namespace QuadOpt

variable {α : Type} {n : Nat}

/-- The slot belongs to the column for which it is used. -/
def SlotUse.Within (L : Csc α) (u : SlotUse n) : Prop :=
  L.start u.column ≤ u.slot ∧ u.slot < L.start (u.column + 1)

/-- The tree in arrays is the one that the analysis of the stored triangle finds. -/
theorem Csc.eliminationTree?_runStored? {U : Csc α} (hU : U.Divided) (hm : U.m = n) (hn : U.n = n)
    (hupper : U.isUpper = true) : ∃ tree A, U.eliminationTree? = some tree ∧
      Analysis.runStored? U n = some A ∧ tree.counts = A.counts.toArray ∧
      tree.parents = (EliminationTree.storedParents A.forest).toArray := by
  obtain ⟨L, rfl⟩ := hU.exists_columns hm hn
  obtain ⟨tree, htree, htaken⟩ :=
    Csc.eliminationTree?_storedColumns (isUpper_storedColumns.mp hupper)
  exact ⟨tree, _, htree, Analysis.runStored?_storedColumns L, htaken.counts, htaken.parents⟩

namespace LdlStorage

/-- The triangle `U`, with some values, is to be factored in `S`. Its tree is known, and the
columns of the factor have room for the entries that have been counted; what is in them, and in
the workspace, may be anything. -/
structure LaidOut (S : LdlStorage α n) (U : Csc α) (tree : EliminationTree) : Prop where
  values : ∃ values : Array α, values.size = U.nzval.size ∧ S.upper = { U with nzval := values }
  parents : tree.parents = (EliminationTree.storedParents S.forest).toArray
  counts : tree.counts = S.counts.toArray
  divided : S.lower.Divided
  rows_eq : S.lower.m = n
  cols_eq : S.lower.n = n
  hasRoom : S.HasRoom

/-- What is laid out is prepared for elimination. -/
theorem LaidOut.exists_prepared {S : LdlStorage α n} {U : Csc α} {tree : EliminationTree}
    (h : S.LaidOut U tree) (hU : U.Divided) (hm : U.m = n) (hn : U.n = n)
    (hupper : U.isUpper = true) (htree : U.eliminationTree? = some tree) :
    ∃ triangle F, S.Prepared triangle F := by
  obtain ⟨values, hsize, hvalues⟩ := h.values
  have hdivided : S.upper.Divided := by
    rw [hvalues]
    exact { hU with nzval_size := hsize.trans hU.nzval_size }
  obtain ⟨L, hL⟩ := hdivided.exists_columns (n := n) (by rw [hvalues, ← hm]) (by rw [hvalues, ← hn])
  obtain ⟨M, hM⟩ := h.divided.exists_columns h.rows_eq h.cols_eq
  have hsame : (storedColumns L).eliminationTree? = U.eliminationTree? := by
    rw [← hL, hvalues]
    rfl
  have hisUpper : (storedColumns L).isUpper = true := by
    rw [← hL, hvalues]
    exact hupper
  obtain ⟨T, hT, htaken⟩ := Csc.eliminationTree?_storedColumns (isUpper_storedColumns.mp hisUpper)
  rw [hsame, htree] at hT
  cases hT
  have hcounts : S.counts = (Analysis.run (Factors.rowsOf L)).counts :=
    Vector.toArray_inj.mp (h.counts.symm.trans htaken.counts)
  have hforest : S.forest = (Analysis.run (Factors.rowsOf L)).forest :=
    EliminationTree.storedParents_injective
      (Vector.toArray_inj.mp (h.parents.symm.trans htaken.parents))
  refine ⟨L, {
      givenOrder := S.givenOrder
      order := S.order
      upper := Vector.replicate n []
      forest := S.forest
      counts := S.counts
      values := #[]
      lower := M
      D := S.D
      Dinv := S.Dinv
      positive := S.positive
      isFactored := S.isFactored }, hL, hforest, hcounts, hM, rfl, fun c => ?_⟩
  have hroom := h.hasRoom c
  rw [hM, start_storedColumns (Nat.succ_le_of_lt c.isLt),
    start_storedColumns (Nat.le_of_lt c.isLt), offset_storedColumns_succ] at hroom
  exact Nat.add_left_cancel hroom

variable [Scalar α]

/-- What is analysed is laid out, whatever has been called on it since. -/
theorem Represents.laidOut {S : LdlStorage α n} {F : Ldl α n} {A : Csc α} (h : S.Represents F)
    (hF : F.Analysed A) : S.upper.Divided ∧ S.upper.isUpper = true ∧
      ∃ tree, S.upper.eliminationTree? = some tree ∧ S.LaidOut S.upper tree := by
  have hprepared := h.prepared hF
  have hupper := hprepared.upper
  rw [hupper]
  obtain ⟨tree, htree, htaken⟩ := Csc.eliminationTree?_storedColumns hF.upperValues_le
  refine ⟨divided_storedColumns _, isUpper_storedColumns.mpr hF.upperValues_le, tree, htree, ?_⟩
  exact {
    values := ⟨_, rfl, hupper⟩
    parents := by rw [hprepared.forest, htaken.parents]
    counts := by rw [hprepared.counts, htaken.counts]
    divided := by
      rw [h.lower]
      exact divided_storedColumns _
    rows_eq := by
      rw [h.lower]
      rfl
    cols_eq := by rw [h.lower, cols_storedColumns]
    hasRoom := hprepared.hasRoom }

/-- **Slots within their columns.** An upper triangle, with the rows of a column in any order, has
an elimination tree whose parents are larger than their children. In arrays that are laid out by
it, no slot of another column is read or written for a column, whatever the values are and whether
all rows have a pivot or not. If they have, every column has been written from its start to its
end, and what is stored is well formed and strictly lower triangular. -/
theorem refactor_withinColumns {U : Csc α} (hU : U.Divided) (hm : U.m = n) (hn : U.n = n)
    (hupper : U.isUpper = true) : ∃ tree, U.eliminationTree? = some tree ∧
      (∀ i p : Nat, tree.parents[i]? = some (some p) → i < p ∧ p < n) ∧
      ∀ S : LdlStorage α n, S.LaidOut U tree →
        ∃ T result uses, S.refactorNoted.run [] = some ((T, result), uses) ∧
          S.refactor? = some (T, result) ∧
          (∀ u ∈ uses, u.Within S.lower) ∧
          ∀ p, result = .ok p →
            (∀ c : Fin n, SlotUse.writesTo c uses
              = List.range' (S.lower.start c) (S.counts.get c)) ∧
            T.lower.Valid ∧ T.lower.colptr = S.lower.colptr ∧
            ∀ j < n, ∀ i ∈ T.lower.rows j, j < i := by
  obtain ⟨L, rfl⟩ := hU.exists_columns hm hn
  obtain ⟨tree, htree, htaken⟩ := Csc.eliminationTree?_storedColumns
    (isUpper_storedColumns.mp hupper)
  refine ⟨tree, htree, htaken.lt_parent, fun S hS => ?_⟩
  obtain ⟨triangle, F, hprepared⟩ := hS.exists_prepared hU hm hn hupper htree
  obtain ⟨T, result, f, k, j, hrefactor, htracks, hshaped, hall⟩ := hprepared.exists_tracks
  rcases S.refactorNoted_repeats [] with ⟨hnone, -⟩ | ⟨r, uses, hr, hrun, next, hnext, hadvance⟩
  · rw [hrefactor] at hnone
    cases hnone
  obtain rfl := Option.some.inj (hrefactor.symm.trans hr)
  have hstart : ∀ c : Fin n, offset F.lower.toList c.val = S.lower.start c := fun c =>
    (hprepared.start_eq (Nat.le_of_lt c.isLt)).symm
  -- A cursor ends where the entries of its column end.
  have hend : ∀ c, T.next.get c = S.lower.start c + (f.lower.get c).length := fun c => by
    rw [htracks.next, hstart]
  refine ⟨T, result, uses, hrun, hrefactor, fun u hu => ?_, fun p hp => ?_⟩
  · obtain ⟨hle, hlt⟩ := hadvance.within (fun c => Nat.le_of_eq (hnext c).symm) hu
    refine ⟨hle, Nat.lt_of_lt_of_le hlt ?_⟩
    rw [hend, hprepared.hasRoom, ← hprepared.lengths]
    exact Nat.add_le_add_left (hprepared.length_le hshaped _) _
  · obtain rfl := hall p hp
    have hlength := hprepared.length_eq hshaped
    have hlower : T.lower = storedColumns f.lower := by
      rw [htracks.lower, Ldl.store_eq fun c => (hlength c).trans (hprepared.lengths c).symm]
    refine ⟨fun c => ?_, ?_, hadvance.colptr, fun j hj i hi => ?_⟩
    · rw [hadvance.writes, hend, hlength]
      show List.range' (next.get c) (_ - next.get c) = _
      rw [hnext, Nat.add_sub_cancel_left]
    · rw [hlower]
      exact valid_storedColumns hshaped.pairwise
    · rw [hlower, rows_storedColumns _ ⟨j, hj⟩] at hi
      obtain ⟨e, he, rfl⟩ := List.mem_map.mp hi
      exact hshaped.lt he

/-- Two columns do not have their rows in order. Eliminating the first column fills a place in
the last. -/
def unorderedTriangle : Csc ℚ :=
  ⟨4, 4, #[0, 1, 3, 4, 7], #[0, 1, 0, 2, 3, 0, 2], #[4, 4, 1, 4, 4, 1, 1]⟩

def unorderedTree : EliminationTree where
  marks := #[3, 3, 3, 3, 0, 0, 0, 0, 0, 0, 0, 0]
  counts := #[2, 1, 1, 0]
  parents := #[some 1, some 3, some 3, none]

/-- Arrays that are laid out by the tree, with something in all of them. -/
def unorderedStorage : LdlStorage ℚ 4 where
  visited := Vector.replicate 4 true
  pending := Vector.replicate 4 3
  path := Vector.replicate 4 1
  next := Vector.replicate 4 9
  work := .fill 4 5
  lower := ⟨4, 4, #[0, 2, 3, 4, 4], #[3, 0, 1, 2], #[7, 7, 7, 7]⟩
  D := .fill 4 7
  Dinv := .fill 4 7
  givenOrder := Array.range 4
  order := .natural 4
  upper := unorderedTriangle
  places := Array.range 7
  forest := ⟨#v[some 1, some 3, some 3, none], by decide⟩
  counts := #v[2, 1, 1, 0]
  positive := 0
  isFactored := false

theorem refactor_withinColumns_unordered : ∃ tree T uses,
    unorderedTriangle.eliminationTree? = some tree ∧
      unorderedStorage.LaidOut unorderedTriangle tree ∧
      unorderedStorage.refactorNoted.run [] = some ((T, .ok 4), uses) ∧
      (∀ u ∈ uses, u.Within unorderedStorage.lower) ∧
      SlotUse.writesTo 0 uses = [0, 1] ∧ SlotUse.writesTo 1 uses = [2] ∧
      SlotUse.writesTo 2 uses = [3] ∧ T.lower.Valid := by
  have htriangle : unorderedTriangle.Divided :=
    ⟨rfl, rfl, rfl, by decide, rfl, by decide⟩
  obtain ⟨tree, htree, -, hall⟩ := refactor_withinColumns htriangle
    (show unorderedTriangle.m = 4 from rfl) rfl (by decide)
  have hfound : unorderedTriangle.eliminationTree? = some unorderedTree := by decide +kernel
  obtain rfl := Option.some.inj (htree.symm.trans hfound)
  have hlaid : unorderedStorage.LaidOut unorderedTriangle unorderedTree := {
    values := ⟨#[4, 4, 1, 4, 4, 1, 1], rfl, rfl⟩
    parents := by decide +kernel
    counts := rfl
    divided := ⟨rfl, rfl, rfl, by decide, rfl, by decide⟩
    rows_eq := rfl
    cols_eq := rfl
    hasRoom := by decide }
  obtain ⟨T, result, uses, hrun, hrefactor, hwithin, hfull⟩ := hall unorderedStorage hlaid
  have hresult : (unorderedStorage.refactor?.bind fun r => r.2.toOption) = some 4 := by
    decide +kernel
  rw [hrefactor] at hresult
  cases result with
  | error e => cases hresult
  | ok p =>
    obtain rfl : p = 4 := Option.some.inj hresult
    obtain ⟨hwrites, hvalid, -⟩ := hfull 4 rfl
    exact ⟨_, T, uses, htree, hlaid, hrun, hwithin, hwrites 0, hwrites 1, hwrites 2, hvalid⟩

end LdlStorage
end QuadOpt
