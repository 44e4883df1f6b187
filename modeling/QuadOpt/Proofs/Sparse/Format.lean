/-
# What the format check reads

The format check may be given any arrays. Each of its reads relies on what was checked before:
the last pointer on the length of the column pointers, the rows of a column on pointers that
ascend up to the number of rows. So it reads inside of the arrays, unless the number of columns
is the largest word: the number of pointers wraps around then, and without any pointer the last
one is read all the same.

Key definitions: `Csc.Overflows`.
Key theorems: `Csc.columnsFault?_eq`, `Csc.validate?_eq`, `Csc.validate_eq_unreadable_iff`,
`Csc.validate_eq_ok_iff`.
-/
import QuadOpt.Proofs.Sparse.Assembly
import QuadOpt.Sparse.Checked

namespace QuadOpt.Csc

variable {α : Type} {A : Csc α}

/-! ### Columns -/

/-- It is enough to compare neighbours. -/
theorem any_zip_tail_eq_false_iff {rows : List Nat} :
    (rows.zip rows.tail).any (fun r => r.2 ≤ r.1) = false ↔ rows.Pairwise (· < ·) := by
  rw [← List.isChain_iff_pairwise]
  induction rows with
  | nil => simp
  | cons i rows ih =>
    cases rows with
    | nil => simp
    | cons k rows =>
      rw [List.isChain_cons_cons, ← ih]
      simp

theorem rowsFault_rows (A : Csc α) (j : Nat) : rowsFault A.m (A.rows j) = A.columnFault j := by
  unfold rowsFault columnFault
  split
  · rfl
  · by_cases hsorted : (A.rows j).Pairwise (· < ·)
    · rw [if_pos hsorted, any_zip_tail_eq_false_iff.mpr hsorted, if_neg Bool.false_ne_true]
    · rw [if_neg hsorted, if_pos]
      rwa [← Bool.not_eq_false, any_zip_tail_eq_false_iff]

/-- The pairs of pointers are those of the columns. -/
theorem zip_tail_colptr (A : Csc α) : A.colptr.toList.zip A.colptr.toList.tail
    = (List.range (A.colptr.size - 1)).map fun j => (A.start j, A.start (j + 1)) := by
  apply List.ext_getElem
  · simp
  · intro j hj hj'
    have hlt : j + 1 < A.colptr.size := by
      rw [List.length_map, List.length_range] at hj'
      omega
    simp [start, show j < A.colptr.size by omega, hlt]

/-- Between pointers that ascend, up to the number of rows, all rows are read. -/
theorem columnsFault?_eq {js : List Nat} (hmono : ∀ j ∈ js, A.start j ≤ A.start (j + 1))
    (hsize : ∀ j ∈ js, A.start (j + 1) ≤ A.rowval.size) :
    A.columnsFault? (js.map fun j => (A.start j, A.start (j + 1)))
      = some (js.findSome? A.columnFault) := by
  induction js with
  | nil => rfl
  | cons j js ih =>
    have hrest := ih (fun k hk => hmono k (List.mem_cons_of_mem j hk))
      fun k hk => hsize k (List.mem_cons_of_mem j hk)
    have hslice : slice? A.rowval (A.start j) (A.start (j + 1)) = some (A.rows j) :=
      if_pos ⟨hmono j List.mem_cons_self, hsize j List.mem_cons_self⟩
    rw [List.map_cons, columnsFault?, hslice, List.findSome?_cons]
    simp only [Option.bind_eq_bind, Option.bind_some, rowsFault_rows]
    cases A.columnFault j with
    | none => exact hrest
    | some e => rfl

/-- If the pointers ascend up to the number of rows, then all columns are read. -/
theorem columnsFault?_pointers (hcount : A.colptr.size = A.n + 1)
    (hmono : ∀ j < A.n, A.start j ≤ A.start (j + 1)) (hend : A.start A.n = A.rowval.size) :
    A.columnsFault? (A.colptr.toList.zip A.colptr.toList.tail)
      = some ((List.range A.n).findSome? A.columnFault) := by
  rw [zip_tail_colptr, hcount, Nat.add_sub_cancel]
  refine columnsFault?_eq (fun j hj => hmono j (List.mem_range.mp hj)) fun j hj => ?_
  rw [← hend]
  exact start_le_start_of_mono hmono (List.mem_range.mp hj) (Nat.le_refl _)

/-! ### The check -/

/-- What the check says, if it has only read inside of the arrays. -/
def readInside : Except FormatError Unit → Option (Except FormatError Unit)
  | .error .unreadable => none
  | r => some r

theorem readInside_eq_none_iff {r : Except FormatError Unit} :
    readInside r = none ↔ r = .error .unreadable := by
  unfold readInside
  split <;> simp_all

theorem readInside_eq_some_iff {r s : Except FormatError Unit} (hs : s ≠ .error .unreadable) :
    readInside r = some s ↔ r = s := by
  unfold readInside
  split <;> simp_all [eq_comm]

/-- Columns have no other faults than those of their rows. -/
theorem findSome?_columnFault_ne (A : Csc α) (js : List Nat) :
    js.findSome? A.columnFault ≠ some .unreadable := by
  intro h
  obtain ⟨j, -, hj⟩ := List.exists_of_findSome?_eq_some h
  unfold columnFault at hj
  split_ifs at hj <;> cases hj

/-- The check with every read that may fail gives what the check gives. -/
theorem validate?_eq (A : Csc α) : A.validate? = readInside A.validate := by
  unfold validate? validate
  by_cases hsize : A.colptr.size ≠ (A.n + 1) % wordSize ∨ A.rowval.size ≠ A.nzval.size
  · rw [if_pos hsize, if_pos hsize]
    rfl
  rw [if_neg hsize, if_neg hsize]
  rw [not_or, not_ne_iff, not_ne_iff] at hsize
  cases hlast : A.colptr[A.n]? with
  | none => rfl
  | some last =>
    by_cases hrows : last ≠ A.rowval.size
    · simp [hrows, readInside]
    -- there is a last pointer, so the number of pointers has not wrapped around
    obtain ⟨hlt, hget⟩ := Array.getElem?_eq_some_iff.mp hlast
    have hcount : A.colptr.size = A.n + 1 := by
      have := Nat.mod_le (A.n + 1) wordSize
      omega
    have hfirst : A.colptr[0]? = some (A.start 0) := by
      simp [start, show 0 < A.colptr.size by omega]
    have hpointers : (A.colptr.toList.zip A.colptr.toList.tail).any (fun c => c.2 < c.1)
        = (List.range A.n).any fun j => A.start (j + 1) < A.start j := by
      rw [zip_tail_colptr, List.any_map, hcount]
      rfl
    simp only [hrows, hfirst, hpointers, Option.bind_eq_bind, Option.bind_some, if_false,
      Option.pure_def]
    by_cases hptr : A.start 0 ≠ 0 ∨
        (List.range A.n).any (fun j => decide (A.start (j + 1) < A.start j)) = true
    · rw [if_pos hptr, if_pos hptr]
      rfl
    rw [if_neg hptr, if_neg hptr]
    have hmono : ∀ j < A.n, A.start j ≤ A.start (j + 1) := by simpa using (not_or.mp hptr).2
    have hend : A.start A.n = A.rowval.size := by
      rw [start, Array.getD_eq_getD_getElem?, hlast]
      exact not_ne_iff.mp hrows
    rw [columnsFault?_pointers hcount hmono hend, Option.bind_some]
    cases hfault : (List.range A.n).findSome? A.columnFault with
    | none => rfl
    | some e =>
      have he : e ≠ .unreadable := by
        rintro rfl
        exact findSome?_columnFault_ne A _ hfault
      exact ((readInside_eq_some_iff (by simpa using he)).mpr rfl).symm

/-! ### Overflow -/

/-- The number of pointers wraps around to zero, and there is no pointer. -/
structure Overflows (A : Csc α) : Prop where
  n_eq : A.n + 1 = wordSize
  colptr_eq : A.colptr = #[]
  nzval_size : A.rowval.size = A.nzval.size

/-- The check stops with an overflow only, -/
theorem validate_eq_unreadable_iff (hn : A.n < wordSize) :
    A.validate = .error .unreadable ↔ A.Overflows := by
  constructor
  · intro h
    unfold validate at h
    split at h
    · cases h
    · rename_i hsize
      rw [not_or, not_ne_iff, not_ne_iff] at hsize
      split at h
      · rename_i hlast
        have hle : A.colptr.size ≤ A.n := Array.getElem?_eq_none_iff.mp hlast
        have hwrap : A.n + 1 = wordSize := by
          by_contra hne
          rw [Nat.mod_eq_of_lt (by omega)] at hsize
          omega
        rw [hwrap, Nat.mod_self, Array.size_eq_zero_iff] at hsize
        exact ⟨hwrap, hsize.1, hsize.2⟩
      · split at h
        · cases h
        · split at h
          · cases h
          · split at h
            · rename_i e hfault
              cases h
              exact absurd hfault (findSome?_columnFault_ne A _)
            · cases h
  · intro h
    have hsize : ¬(A.colptr.size ≠ (A.n + 1) % wordSize ∨ A.rowval.size ≠ A.nzval.size) := by
      rw [h.n_eq, h.colptr_eq, h.nzval_size]
      simp
    rw [validate, if_neg hsize, h.colptr_eq]
    rfl

/-- and it passes the well formed matrices, which have fewer pointers than there are words. -/
theorem validate_eq_ok_iff (hsize : A.colptr.size < wordSize) : A.validate = .ok () ↔ A.Valid :=
  ⟨valid_of_validate, fun h => validate_of_valid h (h.colptr_size ▸ hsize)⟩

end QuadOpt.Csc
