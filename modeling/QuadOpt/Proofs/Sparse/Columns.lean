/-
# Matrices given by their columns

A matrix that is made of given columns has these columns, and it is well formed
if the rows of each of them increase and are in range.

Key theorems: `Csc.start_ofColumns`, `Csc.column_ofColumns`, `Csc.get?_ofColumns`,
`Csc.valid_ofColumns`.
-/
import Mathlib.Algebra.BigOperators.Group.List.Lemmas
import Mathlib.Algebra.GroupWithZero.Nat
import QuadOpt.Admm.Kkt
import QuadOpt.Proofs.Sparse.Entries

namespace QuadOpt.Csc

variable {α : Type} {m : Nat} {columns : List (List (Nat × α))}

theorem start_ofColumns {j : Nat} (hj : j ≤ columns.length) :
    (ofColumns m columns).start j = ((columns.map List.length).take j).sum := by
  have hpointer := getElem?_pointers (columns.map List.length) (j := j) (by simpa using hj)
  rw [start, Array.getD_eq_getD_getElem?, ofColumns, hpointer, Option.getD_some,
    List.sum_eq_foldl]

/-- What is stored from the start of a column to the start of the next. -/
theorem extract_flatten {β : Type} (f : Nat × α → β) {j : Nat} (hj : j < columns.length) :
    ((columns.flatten.map f).toArray.extract ((ofColumns m columns).start j)
      ((ofColumns m columns).start (j + 1))).toList = columns[j].map f := by
  have hslice := List.drop_take_succ_flatten_eq_getElem columns j hj
  rw [start_ofColumns (Nat.le_of_lt hj), start_ofColumns hj, List.extract_toArray,
    List.toList_toArray, List.extract_eq_take_drop, ← List.drop_take]
  have hmap := congrArg (List.map f) hslice
  rwa [List.map_drop, List.map_take] at hmap

theorem rows_ofColumns {j : Nat} (hj : j < columns.length) :
    (ofColumns m columns).rows j = columns[j].map Prod.fst := extract_flatten Prod.fst hj

theorem column_ofColumns {j : Nat} (hj : j < columns.length) :
    (ofColumns m columns).column j = columns[j] := by
  have hvalues : (ofColumns m columns).values j = columns[j].map Prod.snd :=
    extract_flatten Prod.snd hj
  rw [column, rows_ofColumns hj, hvalues, List.zip_map']
  exact List.map_id _

theorem start_ofColumns_succ {j : Nat} (hj : j < columns.length) :
    (ofColumns m columns).start (j + 1)
      = (ofColumns m columns).start j + columns[j].length := by
  rw [start_ofColumns hj, start_ofColumns (Nat.le_of_lt hj),
    List.take_succ_eq_append_getElem (by simpa using hj), List.sum_append]
  simp

theorem valid_ofColumns (hrows : ∀ column ∈ columns, ∀ e ∈ column, e.1 < m)
    (hsorted : ∀ column ∈ columns, (column.map Prod.fst).Pairwise (· < ·)) :
    (ofColumns m columns).Valid where
  colptr_size := by simp [ofColumns]
  nzval_size := by simp [ofColumns, Function.comp_def]
  start_zero := by rw [start_ofColumns (Nat.zero_le _), List.take_zero, List.sum_nil]
  start_mono j hj := by
    rw [start_ofColumns_succ hj]
    exact Nat.le_add_right _ _
  start_last := by
    have hall : (ofColumns m columns).start columns.length = (columns.map List.length).sum := by
      rw [start_ofColumns (Nat.le_refl _), List.take_of_length_le (by simp)]
    show (ofColumns m columns).start columns.length = _
    rw [hall]
    simp [ofColumns, List.length_flatten, Function.comp_def]
  rows_lt j hj i hi := by
    rw [rows_ofColumns hj] at hi
    obtain ⟨e, he, rfl⟩ := List.mem_map.mp hi
    exact hrows _ (List.getElem_mem hj) e he
  rows_sorted j hj := by
    rw [rows_ofColumns hj]
    exact hsorted _ (List.getElem_mem hj)

/-- A place is looked for in its column. -/
theorem get?_ofColumns {column : List (Nat × α)} {j : Nat} (h : columns[j]? = some column)
    (i : Nat) : (ofColumns m columns).get? i j = (column.find? fun e => e.1 == i).map Prod.snd := by
  obtain ⟨hj, rfl⟩ := List.getElem?_eq_some_iff.mp h
  rw [get?, column_ofColumns hj]

/-- Other values in the same columns. -/
theorem ofColumns_map {β : Type} (f : α → β) :
    ofColumns m (columns.map fun column => column.map fun e => (e.1, f e.2))
      = { (ofColumns m columns) with nzval := (ofColumns m columns).nzval.map f } := by
  simp [ofColumns, List.map_flatten, Function.comp_def]

end QuadOpt.Csc
