/-
# What the matrix of optimality conditions holds

Whatever values are filled into the pattern that was assembled for `P` and `A`,
the matrix is the upper triangle of

    [ P + δ₁ I      Aᵀ      ]
    [     A     -diag(δ₂)   ]

for these values, with every entry of the diagonal stored. The pattern depends on
where `P` and `A` store their entries only.

Key definitions: `Csc.IsKkt`, `kktMatrix`.
Key theorems: `valid_assembleKkt`, `start_lt_assembleKkt`, `fillKkt_isKkt`,
`Csc.IsKkt.mirror_eq`.
-/
import Mathlib.Data.Matrix.Block
import QuadOpt.Admm.Problem
import QuadOpt.Proofs.Sparse.Assembly
import QuadOpt.Proofs.Sparse.Columns
import QuadOpt.Proofs.Sparse.Meaning

namespace QuadOpt

/-! ### Columns of the pattern -/

section Pattern

variable {α : Type} {n m : Nat} (P A : Csc α)

theorem getElem?_kktColumns_of_lt {j : Nat} (hj : j < n) :
    (kktColumns n m P A)[j]? = some (hessianColumn P j) := by
  rw [kktColumns, List.getElem?_append_left (by simpa using hj)]
  simp [hj]

theorem getElem?_kktColumns_add (i : Fin m) :
    (kktColumns n m P A)[n + i.val]? = some (constraintColumn n i ((A.rowSlots m).get i)) := by
  rw [kktColumns, List.getElem?_append_right (by simp)]
  simp [Vec.get_eq_getElem]

theorem length_kktColumns : (kktColumns n m P A).length = n + m := by
  simp [kktColumns]

variable {P A}

/-- A column is one of `P` with its diagonal or one of `Aᵀ` with the one below it. -/
theorem kktColumns_cases {column : List (Nat × KktEntry)} {k : Nat}
    (h : (kktColumns n m P A)[k]? = some column) :
    (k < n ∧ column = hessianColumn P k) ∨
      ∃ i : Fin m, k = n + i ∧ column = constraintColumn n i ((A.rowSlots m).get i) := by
  have hk : k < n + m := by
    rw [← length_kktColumns P A]
    exact (List.getElem?_eq_some_iff.mp h).1
  by_cases hkn : k < n
  · rw [getElem?_kktColumns_of_lt P A hkn] at h
    exact .inl ⟨hkn, (Option.some.inj h).symm⟩
  · obtain ⟨i, rfl⟩ : ∃ i, k = n + i := ⟨k - n, by omega⟩
    rw [getElem?_kktColumns_add P A ⟨i, by omega⟩] at h
    exact .inr ⟨⟨i, by omega⟩, rfl, (Option.some.inj h).symm⟩

theorem map_fst_hessianColumn (P : Csc α) (j : Nat) : (hessianColumn P j).map Prod.fst
    = P.rows j ++ if (P.rows j).getLast? = some j then [] else [j] := by
  have hstored : ((P.rows j).zipIdx (P.start j)).map Prod.fst = P.rows j := List.zipIdx_map_fst _ _
  rw [hessianColumn, List.map_append, List.map_map]
  congr 1
  by_cases hlast : (P.rows j).getLast? = some j <;> simp [hlast]

theorem Csc.rows_le (hupper : P.isUpper = true) {j : Nat} (hj : j < P.n) :
    ∀ i ∈ P.rows j, i ≤ j := by
  simp only [Csc.isUpper, List.all_eq_true, List.mem_range, decide_eq_true_eq] at hupper
  exact hupper j hj

/-- As the rows of a column increase up to the diagonal, the diagonal is stored iff
it is the last of them. -/
theorem Csc.getLast?_rows_iff (h : P.Valid) (hupper : P.isUpper = true) {j : Nat}
    (hj : j < P.n) : (P.rows j).getLast? = some j ↔ j ∈ P.rows j := by
  refine ⟨List.mem_of_getLast?, fun hmem => ?_⟩
  have hsorted := h.rows_sorted j hj
  have hle := Csc.rows_le hupper hj
  obtain ⟨init, last, hrows⟩ : ∃ init last, P.rows j = init ++ [last] :=
    ⟨_, _, (List.dropLast_concat_getLast (List.ne_nil_of_mem hmem)).symm⟩
  rw [hrows] at hsorted hle hmem ⊢
  have hlast : last ≤ j := hle last (by simp)
  rcases List.mem_append.mp hmem with hinit | hend
  · have := (List.pairwise_append.mp hsorted).2.2 j hinit last (by simp)
    omega
  · simp_all

theorem rows_hessianColumn (h : P.Valid) (hupper : P.isUpper = true) {j : Nat} (hj : j < P.n) :
    ((hessianColumn P j).map Prod.fst).Pairwise (· < ·) ∧
      ∀ e ∈ hessianColumn P j, e.1 ≤ j := by
  have hle := Csc.rows_le hupper hj
  have hlast := Csc.getLast?_rows_iff h hupper hj
  have hall : ∀ i ∈ (hessianColumn P j).map Prod.fst, i ≤ j := by
    intro i hi
    rw [map_fst_hessianColumn] at hi
    rcases List.mem_append.mp hi with hi | hi
    · exact hle i hi
    · split at hi
      · cases hi
      · exact Nat.le_of_eq (List.mem_singleton.mp hi)
  refine ⟨?_, fun e he => hall e.1 (List.mem_map_of_mem he)⟩
  rw [map_fst_hessianColumn, List.pairwise_append]
  refine ⟨h.rows_sorted j hj, ?_, fun i hi k hk => ?_⟩
  · split <;> simp
  · split at hk
    · cases hk
    · rename_i hnot
      have hne : i ≠ j := fun he => hnot (hlast.mpr (he ▸ hi))
      have := hle i hi
      simp only [List.mem_singleton] at hk
      omega

variable [Scalar α]

theorem map_snd_rowSlots (h : A.Valid) (i : Fin m) : ((A.rowSlots m).get i).map Prod.snd
    = (A.entries.filter fun e => e.1 == i.val).map fun e => e.2.1 := by
  rw [Csc.rowSlots, get_group, Csc.entries_eq_map_slots h, List.filter_map, List.map_map]
  rfl

theorem rows_constraintColumn (h : A.Valid) (hn : A.n = n) (i : Fin m) :
    ((constraintColumn n i ((A.rowSlots m).get i)).map Prod.fst).Pairwise (· < ·) ∧
      ∀ e ∈ constraintColumn n i ((A.rowSlots m).get i), e.1 ≤ n + i := by
  have hrows : (constraintColumn n i ((A.rowSlots m).get i)).map Prod.fst
      = ((A.entries.filter fun e => e.1 == i.val).map fun e => e.2.1) ++ [n + i.val] := by
    rw [constraintColumn, List.map_append, List.map_map, ← map_snd_rowSlots h]
    rfl
  have hlt : ∀ k ∈ (A.entries.filter fun e => e.1 == i.val).map fun e => e.2.1, k < n := by
    intro k hk
    obtain ⟨e, he, rfl⟩ := List.mem_map.mp hk
    exact hn ▸ (Csc.entries_lt h (List.mem_of_mem_filter he)).2
  constructor
  · rw [hrows, List.pairwise_append]
    refine ⟨Csc.pairwise_columns_of_row h i, List.pairwise_singleton _ _, fun k hk r hr => ?_⟩
    have := hlt k hk
    simp only [List.mem_singleton] at hr
    omega
  · intro e he
    have hmem : e.1 ∈ (constraintColumn n i ((A.rowSlots m).get i)).map Prod.fst :=
      List.mem_map_of_mem he
    rw [hrows] at hmem
    rcases List.mem_append.mp hmem with hk | hk
    · have := hlt _ hk
      omega
    · exact Nat.le_of_eq (List.mem_singleton.mp hk)

end Pattern

/-! ### The pattern -/

section Assembled

variable {α : Type} [Scalar α] {n m : Nat} (P : SparseMatrix α n n) (A : SparseMatrix α m n)
  (hupper : P.csc.isUpper = true)

include hupper

theorem rows_kktColumns {column : List (Nat × KktEntry)} {k : Nat}
    (h : (kktColumns n m P.csc A.csc)[k]? = some column) :
    (column.map Prod.fst).Pairwise (· < ·) ∧ ∀ e ∈ column, e.1 ≤ k := by
  rcases kktColumns_cases h with ⟨hk, rfl⟩ | ⟨i, rfl, rfl⟩
  · exact rows_hessianColumn P.valid hupper (by rwa [P.cols_eq])
  · exact rows_constraintColumn A.valid A.cols_eq i

theorem valid_assembleKkt : (assembleKkt n m P.csc A.csc).Valid := by
  refine Csc.valid_ofColumns (fun column hcolumn e he => ?_) fun column hcolumn => ?_
  · obtain ⟨k, hk⟩ := List.mem_iff_getElem?.mp hcolumn
    have hle := (rows_kktColumns P A hupper hk).2 e he
    have hlt := (List.getElem?_eq_some_iff.mp hk).1
    rw [length_kktColumns] at hlt
    omega
  · obtain ⟨k, hk⟩ := List.mem_iff_getElem?.mp hcolumn
    exact (rows_kktColumns P A hupper hk).1

theorem isUpper_assembleKkt : (assembleKkt n m P.csc A.csc).isUpper = true := by
  simp only [Csc.isUpper, List.all_eq_true, List.mem_range, decide_eq_true_eq]
  intro k hk i hi
  have hk : k < (kktColumns n m P.csc A.csc).length := hk
  rw [assembleKkt, Csc.rows_ofColumns hk] at hi
  obtain ⟨e, he, rfl⟩ := List.mem_map.mp hi
  exact (rows_kktColumns P A hupper (List.getElem?_eq_getElem hk)).2 e he

omit [Scalar α] hupper in
/-- No column is empty, as each of them has its diagonal. -/
theorem start_lt_assembleKkt {k : Nat} (hk : k < n + m) :
    (assembleKkt n m P.csc A.csc).start k < (assembleKkt n m P.csc A.csc).start (k + 1) := by
  have hlt : k < (kktColumns n m P.csc A.csc).length := by rwa [length_kktColumns]
  have hget := List.getElem?_eq_getElem hlt
  have hpos : 0 < ((kktColumns n m P.csc A.csc)[k]).length := by
    rcases kktColumns_cases hget with ⟨_, hcolumn⟩ | ⟨i, _, hcolumn⟩
    · rw [hcolumn, ← List.length_map, map_fst_hessianColumn]
      by_cases hlast : (P.csc.rows k).getLast? = some k
      · have := List.length_pos_of_mem (List.mem_of_getLast? hlast)
        rw [List.length_append]
        omega
      · simp [hlast]
    · rw [hcolumn, constraintColumn, List.length_append]
      simp
  rw [assembleKkt, Csc.start_ofColumns_succ hlt]
  omega

end Assembled

/-! ### Values -/

section Stored

variable {α : Type} [Scalar α] {n m : Nat}

/-- `M` is the upper triangle of `[P + δ₁ I, Aᵀ; A, -diag(δ₂)]`, in which every
entry of the diagonal is stored, and off the diagonal what `P` and `A` store. -/
structure Csc.IsKkt (M : Csc α) (P : SparseMatrix α n n) (A : SparseMatrix α m n) (δ₁ : α)
    (δ₂ : Vec α m) : Prop where
  valid : M.Valid
  rows_eq : M.m = n + m
  cols_eq : M.n = n + m
  isUpper : M.isUpper = true
  hessian : ∀ i j : Fin n, i < j → M.get? i j = P.csc.get? i j
  shifted : ∀ j : Fin n, M.get? j j
    = some (match P.csc.get? j j with | some v => δ₁ + v | none => δ₁)
  constraint : ∀ (i : Fin m) (j : Fin n), M.get? j (n + i) = A.csc.get? i j
  dual : ∀ i k : Fin m, k ≤ i → M.get? (n + k) (n + i) = if k = i then some (-δ₂.get i) else none

theorem hessianColumn_value (P : SparseMatrix α n n) (A : Csc α) (δ₁ : α) (δ₂ : Vec α m) {j : Nat}
    (hj : j < n) : (hessianColumn P.csc j).map (fun e => (e.1, e.2.value P.csc A δ₁ δ₂))
      = (P.csc.column j).map (fun e => (e.1, if e.1 = j then δ₁ + e.2 else e.2))
        ++ if (P.csc.rows j).getLast? = some j then [] else [(j, δ₁)] := by
  have hj : j < P.csc.n := by rwa [P.cols_eq]
  have hle : P.csc.start (j + 1) ≤ P.csc.nzval.size :=
    Nat.le_trans (Csc.start_le_size P.valid hj) (Nat.le_of_eq P.valid.nzval_size.symm)
  have hcolumn : P.csc.column j
      = ((P.csc.rows j).zipIdx (P.csc.start j)).map fun e => (e.1, P.csc.nzval.getD e.2 0) := by
    rw [Csc.column, Csc.values, Csc.extract_eq_map_getD P.csc.nzval 0 hle,
      ← Csc.length_rows P.valid hj, List.zip_map_right, List.zipIdx_eq_zip_range']
    rfl
  rw [hessianColumn, List.map_append, hcolumn, List.map_map, List.map_map]
  congr 1
  · apply List.map_congr_left
    intro e _
    by_cases he : e.1 = j <;> simp [he, KktEntry.value]
  · by_cases hlast : (P.csc.rows j).getLast? = some j <;> simp [hlast, KktEntry.value]

theorem constraintColumn_value (P : Csc α) (A : SparseMatrix α m n) (δ₁ : α) (δ₂ : Vec α m)
    (i : Fin m) : (constraintColumn n i ((A.csc.rowSlots m).get i)).map
        (fun e => (e.1, e.2.value P A.csc δ₁ δ₂))
      = ((A.csc.entries.filter fun e => e.1 == i.val).map fun e => (e.2.1, e.2.2))
        ++ [(n + i.val, -δ₂.get i)] := by
  rw [constraintColumn, List.map_append, Csc.entries_eq_map_slots A.valid, List.filter_map,
    List.map_map, List.map_map, Csc.rowSlots, get_group]
  congr 1
  simp [KktEntry.value, Vec.coord_eq_get]

variable (P : SparseMatrix α n n) (A : SparseMatrix α m n) (δ₁ : α) (δ₂ : Vec α m)

theorem fillKkt_eq_ofColumns : fillKkt (assembleKkt n m P.csc A.csc) P.csc A.csc δ₁ δ₂
    = .ofColumns (n + m) ((kktColumns n m P.csc A.csc).map fun column =>
        column.map fun e => (e.1, e.2.value P.csc A.csc δ₁ δ₂)) :=
  (Csc.ofColumns_map _).symm

variable {P}

theorem get?_fillKkt_hessian (hupper : P.csc.isUpper = true) (i j : Fin n) :
    (fillKkt (assembleKkt n m P.csc A.csc) P.csc A.csc δ₁ δ₂).get? i j
      = if i = j then some (match P.csc.get? j j with | some v => δ₁ + v | none => δ₁)
        else P.csc.get? i j := by
  have hj : j.val < P.csc.n := by
    rw [P.cols_eq]
    exact j.isLt
  have hlast := Csc.getLast?_rows_iff P.valid hupper hj
  have hcolumn : ((kktColumns n m P.csc A.csc).map fun column =>
        column.map fun e => (e.1, e.2.value P.csc A.csc δ₁ δ₂))[j.val]?
      = some ((P.csc.column j).map (fun e => (e.1, if e.1 = j.val then δ₁ + e.2 else e.2))
        ++ if (P.csc.rows j).getLast? = some j.val then [] else [(j.val, δ₁)]) := by
    rw [List.getElem?_map, getElem?_kktColumns_of_lt P.csc A.csc j.isLt, Option.map_some,
      hessianColumn_value P A.csc δ₁ δ₂ j.isLt]
  rw [fillKkt_eq_ofColumns, Csc.get?_ofColumns hcolumn, List.find?_append, List.find?_map,
    Csc.get?, Csc.get?]
  simp only [Function.comp_def]
  cases hfind : (P.csc.column j).find? fun e => e.1 == i.val with
  | some e =>
    have hei : e.1 = i.val := by simpa using List.find?_some hfind
    by_cases hij : i = j
    · subst hij
      simp [hfind, hei]
    · have hne : ¬e.1 = j.val := fun h => hij (Fin.ext (hei.symm.trans h))
      simp [hij, hne]
  | none =>
    by_cases hij : i = j
    · subst hij
      have hrow : i.val ∉ P.csc.rows i := by
        rw [← Csc.map_fst_column P.valid hj]
        intro hmem
        obtain ⟨e, he, hei⟩ := List.mem_map.mp hmem
        have := List.find?_eq_none.mp hfind e he
        simp [hei] at this
      rw [if_neg fun h => hrow (hlast.mp h)]
      simp [hfind]
    · have hne : ¬j.val = i.val := fun h => hij (Fin.ext h.symm)
      by_cases hstored : (P.csc.rows j).getLast? = some j.val <;> simp [hij, hne, hstored]

variable (P) {A}

theorem get?_fillKkt_constraint (i : Fin m) (k : Nat) :
    (fillKkt (assembleKkt n m P.csc A.csc) P.csc A.csc δ₁ δ₂).get? k (n + i)
      = if k = n + i then some (-δ₂.get i) else A.csc.get? i k := by
  have hcolumn : ((kktColumns n m P.csc A.csc).map fun column =>
        column.map fun e => (e.1, e.2.value P.csc A.csc δ₁ δ₂))[n + i.val]?
      = some (((A.csc.entries.filter fun e => e.1 == i.val).map fun e => (e.2.1, e.2.2))
        ++ [(n + i.val, -δ₂.get i)]) := by
    rw [List.getElem?_map, getElem?_kktColumns_add P.csc A.csc i, Option.map_some,
      constraintColumn_value P.csc A δ₁ δ₂ i]
  have hnodup : (((A.csc.entries.filter fun e => e.1 == i.val).map
      fun e => (e.2.1, e.2.2)).map Prod.fst).Nodup := by
    rw [List.map_map]
    exact (Csc.pairwise_columns_of_row A.valid i.val).imp Nat.ne_of_lt
  -- A place of the row is looked for among the entries of the row.
  have hrow : (((A.csc.entries.filter fun e => e.1 == i.val).map
      fun e => (e.2.1, e.2.2)).find? fun e => e.1 == k).map Prod.snd = A.csc.get? i k := by
    ext v
    rw [Csc.get?_eq_some_iff A.valid, Option.map_eq_some_iff]
    simp only [Csc.find?_key_eq_some_iff hnodup, List.mem_map, List.mem_filter, beq_iff_eq]
    constructor
    · rintro ⟨_, ⟨⟨e, ⟨he, hei⟩, rfl⟩, rfl⟩, rfl⟩
      rwa [← hei]
    · intro hmem
      exact ⟨(k, v), ⟨⟨_, ⟨hmem, rfl⟩, rfl⟩, rfl⟩, rfl⟩
  rw [fillKkt_eq_ofColumns, Csc.get?_ofColumns hcolumn, List.find?_append]
  by_cases hk : k = n + i.val
  · have hbeyond : A.csc.get? i k = none := Csc.get?_of_le A.valid i (by
      rw [A.cols_eq]
      omega)
    rw [hbeyond, Option.map_eq_none_iff] at hrow
    rw [hrow, if_pos hk]
    simp [hk]
  · have hne : ¬n + i.val = k := fun h => hk h.symm
    rw [if_neg hk, ← hrow]
    simp [hne]

/-- What the pattern is filled with is the matrix of optimality conditions. -/
theorem fillKkt_isKkt (hupper : P.csc.isUpper = true) :
    (fillKkt (assembleKkt n m P.csc A.csc) P.csc A.csc δ₁ δ₂).IsKkt P A δ₁ δ₂ := by
  have hvalid : (fillKkt (assembleKkt n m P.csc A.csc) P.csc A.csc δ₁ δ₂).Valid :=
    (valid_assembleKkt P A hupper).mapValues _
  exact {
    valid := hvalid
    rows_eq := rfl
    cols_eq := length_kktColumns P.csc A.csc
    isUpper := isUpper_assembleKkt P A hupper
    hessian := fun i j hij => by
      rw [get?_fillKkt_hessian A δ₁ δ₂ hupper, if_neg (Fin.ne_of_lt hij)]
    shifted := fun j => by rw [get?_fillKkt_hessian A δ₁ δ₂ hupper, if_pos rfl]
    constraint := fun i j => by
      rw [get?_fillKkt_constraint, if_neg (by omega)]
    dual := fun i k hki => by
      have hbeyond : A.csc.get? i (n + k.val) = none := Csc.get?_of_le A.valid i (by
        rw [A.cols_eq]
        omega)
      rw [get?_fillKkt_constraint, hbeyond]
      by_cases hk : k = i
      · rw [if_pos hk, if_pos (by rw [hk])]
      · rw [if_neg hk, if_neg (by omega)] }

end Stored

/-! ### The symmetric matrix -/

section Exact

open Matrix

variable {K : Type} [Field K] [LinearOrder K] [ExactScalar K] {n m : Nat}

/-- The matrix `[P + δ₁ I, Aᵀ; A, -diag(δ₂)]`. -/
def kktMatrix (P : Matrix (Fin n) (Fin n) K) (A : Matrix (Fin m) (Fin n) K) (δ₁ : K)
    (δ₂ : Fin m → K) : Matrix (Fin n ⊕ Fin m) (Fin n ⊕ Fin m) K :=
  .fromBlocks (P + δ₁ • 1) Aᵀ A (-.diagonal δ₂)

section Rows

variable (P : Matrix (Fin n) (Fin n) K) (A : Matrix (Fin m) (Fin n) K) (δ₁ : K) (δ₂ : Fin m → K)
  (x : Fin n → K) (y : Fin m → K)

omit [LinearOrder K] [ExactScalar K] in
theorem kktMatrix_mulVec_inl (j : Fin n) : (kktMatrix P A δ₁ δ₂ *ᵥ Sum.elim x y) (.inl j)
    = (P *ᵥ x) j + δ₁ * x j + (Aᵀ *ᵥ y) j := by
  simp [kktMatrix, fromBlocks_mulVec, add_mulVec, smul_mulVec]

omit [LinearOrder K] [ExactScalar K] in
theorem kktMatrix_mulVec_inr (i : Fin m) : (kktMatrix P A δ₁ δ₂ *ᵥ Sum.elim x y) (.inr i)
    = (A *ᵥ x) i - δ₂ i * y i := by
  simp [kktMatrix, fromBlocks_mulVec, mulVec_diagonal, sub_eq_add_neg]

end Rows

/-- The symmetric matrix with the stored upper triangle, block by block. -/
theorem Csc.IsKkt.mirror_eq {M : Csc K} {P : SparseMatrix K n n} {A : SparseMatrix K m n} {δ₁ : K}
    {δ₂ : Vec K m} (h : M.IsKkt P A δ₁ δ₂) :
    (M.mirror (n + m)).submatrix finSumFinEquiv finSumFinEquiv
      = kktMatrix (P.csc.mirror n) (A.csc.toMatrix m n) δ₁ δ₂.get := by
  have hhessian : ∀ i j : Fin n, i ≤ j →
      M.entry i j = P.csc.entry i j + if i = j then δ₁ else 0 := by
    intro i j hij
    rw [entry_eq_getD h.valid, entry_eq_getD P.valid]
    by_cases he : i = j
    · subst he
      rw [h.shifted]
      cases P.csc.get? i i <;> simp [add_comm]
    · rw [h.hessian i j (lt_of_le_of_ne hij he), if_neg he, add_zero]
  have hconstraint : ∀ (i : Fin m) (j : Fin n), M.entry j (n + i) = A.csc.entry i j := by
    intro i j
    rw [entry_eq_getD h.valid, entry_eq_getD A.valid, h.constraint]
  have hdual : ∀ i k : Fin m, k ≤ i →
      M.entry (n + k) (n + i) = if k = i then -δ₂.get i else 0 := by
    intro i k hki
    rw [entry_eq_getD h.valid, h.dual i k hki]
    by_cases he : k = i <;> simp [he]
  ext (i | i) (j | j)
  · simp only [kktMatrix, submatrix_apply, finSumFinEquiv_apply_left, mirror, of_apply,
      Fin.val_castAdd, fromBlocks_apply₁₁, Matrix.add_apply, Matrix.smul_apply, one_apply,
      smul_eq_mul, mul_ite, mul_one, mul_zero]
    by_cases hij : i ≤ j
    · have hle : Fin.castAdd m i ≤ Fin.castAdd m j := hij
      rw [if_pos hle, if_pos hij, hhessian i j hij]
    · have hle : ¬Fin.castAdd m i ≤ Fin.castAdd m j := hij
      rw [if_neg hle, if_neg hij, hhessian j i (le_of_not_ge hij)]
      simp only [eq_comm]
  · have hle : Fin.castAdd m i ≤ Fin.natAdd n j := by
      show i.val ≤ n + j.val
      omega
    simp only [kktMatrix, submatrix_apply, finSumFinEquiv_apply_left, finSumFinEquiv_apply_right,
      mirror, of_apply, if_pos hle, fromBlocks_apply₁₂, transpose_apply, toMatrix]
    exact hconstraint j i
  · have hle : ¬Fin.natAdd n i ≤ Fin.castAdd m j := by
      show ¬n + i.val ≤ j.val
      omega
    simp only [kktMatrix, submatrix_apply, finSumFinEquiv_apply_left, finSumFinEquiv_apply_right,
      mirror, of_apply, if_neg hle, fromBlocks_apply₂₁, toMatrix]
    exact hconstraint i j
  · simp only [kktMatrix, submatrix_apply, finSumFinEquiv_apply_right, mirror, of_apply,
      Fin.val_natAdd, fromBlocks_apply₂₂, Matrix.neg_apply, diagonal_apply]
    by_cases hij : i ≤ j
    · rw [if_pos (by simpa using hij), hdual j i hij]
      by_cases he : i = j <;> simp [he]
    · rw [if_neg (by simpa using hij), hdual i j (le_of_not_ge hij)]
      have hne : i ≠ j := fun he => hij (le_of_eq he)
      simp [hne, hne.symm]

end Exact
end QuadOpt
