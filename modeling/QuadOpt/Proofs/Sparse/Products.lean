/-
# The three products agree with the dense one

A product is formed by scattering the entries of each column, the product with the
transpose by gathering each column, and that with a symmetric matrix by doing both,
except on the diagonal. In exact arithmetic all three are products with one dense
matrix, and the symmetric product is that of the matrix stored in full. None of them
reads outside of the arrays of a matrix that has passed the check.

Key definitions: `Csc.full`.
Key theorems: `Csc.mem_mirrored`, `Csc.valid_full`, `Csc.get?_full`, `Csc.mirror_eq_full`,
`Csc.products_dense`.
-/
import QuadOpt.Proofs.Sparse.Assembly
import QuadOpt.Proofs.Sparse.Meaning
import QuadOpt.Sparse.Checked

namespace QuadOpt.Csc

open Matrix

/-! ### Products read inside of the arrays -/

section Readable

variable {α : Type} {M : Csc α}

theorem readable_of_valid (h : M.Valid) {j : Nat} (hj : j < M.n) : M.readable j = true := by
  have hsize := h.colptr_size
  have hmono := h.start_mono j hj
  have hle : M.start (j + 1) ≤ M.rowval.size := start_le_size h hj
  have hvalues := h.nzval_size
  simp only [readable, rowsReadable, Bool.and_eq_true, decide_eq_true_eq]
  omega

theorem allReadable_of_valid (h : M.Valid) : M.allReadable = true := by
  have hpointers : M.hasPointers = true := by
    rw [hasPointers, decide_eq_true_eq, h.colptr_size]
    exact Nat.le_refl _
  rw [allReadable, hpointers, Bool.true_and, List.all_eq_true]
  intro j hj
  exact readable_of_valid h (List.mem_range.mp hj)

theorem rowsBelow_of_valid (h : M.Valid) : M.rowsBelow M.m = true := by
  simp only [rowsBelow, List.all_eq_true, List.mem_range, decide_eq_true_eq]
  exact h.rows_lt

variable [Scalar α]

theorem mulVecAdd?_of_valid (h : M.Valid) (a b : α) (x : Vec α M.n) (y : Vec α M.m) :
    M.mulVecAdd? a x b y = some (M.mulVecAdd a x b y) := by
  rw [mulVecAdd?, allReadable_of_valid h, rowsBelow_of_valid h, Bool.and_true, Bool.or_true,
    if_pos rfl]

theorem transposeMulVecAdd?_of_valid (h : M.Valid) (a b : α) (x : Vec α M.m) (y : Vec α M.n) :
    M.transposeMulVecAdd? a x b y = some (M.transposeMulVecAdd a x b y) := by
  rw [transposeMulVecAdd?, allReadable_of_valid h, rowsBelow_of_valid h, Bool.and_true,
    Bool.or_true, if_pos rfl]

theorem symMulVecAdd?_of_valid (h : M.Valid) (hsquare : M.m = M.n) (a b : α)
    (x y : Vec α M.n) : M.symMulVecAdd? a x b y = some (M.symMulVecAdd a x b y) := by
  have hrows := rowsBelow_of_valid h
  rw [hsquare] at hrows
  have hsame : (M.m == M.n) = true := beq_iff_eq.mpr hsquare
  rw [symMulVecAdd?, hsame, allReadable_of_valid h, hrows, Bool.and_self, Bool.and_self,
    if_pos rfl]

end Readable

/-! ### A symmetric matrix in full -/

section Mirrored

variable {α : Type} {l : List (Nat × Nat × α)}

/-- An entry is one of those listed, or the mirror image of one off the diagonal. -/
theorem mem_mirrored {e : Nat × Nat × α} :
    e ∈ mirrored l ↔ e ∈ l ∨ e.1 ≠ e.2.1 ∧ (e.2.1, e.1, e.2.2) ∈ l := by
  simp only [mirrored, List.mem_flatMap]
  constructor
  · rintro ⟨t, ht, he⟩
    by_cases hdiag : t.1 = t.2.1
    · rw [if_pos hdiag, List.mem_singleton] at he
      exact .inl (he ▸ ht)
    · rw [if_neg hdiag, List.mem_cons, List.mem_singleton] at he
      rcases he with rfl | rfl
      · exact .inl ht
      · exact .inr ⟨Ne.symm hdiag, ht⟩
  · rintro (he | ⟨hdiag, he⟩)
    · refine ⟨e, he, ?_⟩
      by_cases hdiag : e.1 = e.2.1 <;> simp [hdiag]
    · refine ⟨_, he, ?_⟩
      rw [if_neg (Ne.symm hdiag)]
      simp

/-- No place is listed twice if each is listed at most once on one side of the diagonal. -/
theorem nodup_mirrored (hupper : ∀ e ∈ l, e.1 ≤ e.2.1)
    (hplaces : (l.map fun e => (e.1, e.2.1)).Nodup) :
    ((mirrored l).map fun e => (e.1, e.2.1)).Nodup := by
  rw [mirrored, List.map_flatMap, List.nodup_flatMap]
  constructor
  · intro e _
    by_cases hdiag : e.1 = e.2.1 <;> simp [hdiag]
  · refine (List.pairwise_map.mp hplaces).imp_of_mem fun {e t} he ht hne => ?_
    have he := hupper e he
    have ht := hupper t ht
    have hne : ¬(e.1 = t.1 ∧ e.2.1 = t.2.1) := fun h => hne (Prod.ext h.1 h.2)
    -- Two mirror images of one place would have their images on one side in one place.
    intro p hp hp'
    by_cases hdiag : e.1 = e.2.1 <;> by_cases hdiag' : t.1 = t.2.1 <;>
      simp only [hdiag, hdiag', if_true, if_false, List.map_cons, List.map_nil, List.mem_cons,
        List.not_mem_nil, or_false, Prod.ext_iff] at hp hp' <;> omega

theorem mirrored_lt {M : Csc α} (h : M.Valid) (hsquare : M.m = M.n) {e : Nat × Nat × α}
    (he : e ∈ mirrored M.entries) : e.1 < M.n ∧ e.2.1 < M.n := by
  rcases mem_mirrored.mp he with he | ⟨-, he⟩
  · have := entries_lt h he
    rwa [hsquare] at this
  · have := entries_lt h he
    rw [hsquare] at this
    exact this.symm

/-- The matrix in full of which `M` stores the upper triangle: an entry off the diagonal
is stored in its mirrored place as well. -/
def full [Scalar α] (M : Csc α) : Csc α :=
  .ofTriplets M.n M.n ((mirrored M.entries).map fun e => ⟨e.1, e.2.1, e.2.2⟩)

end Mirrored

variable {K : Type} [Field K] [LinearOrder K] [ExactScalar K] {M : Csc K}

section Full

variable (h : M.Valid) (hsquare : M.m = M.n) (hupper : M.isUpper = true)

include h hsquare hupper

theorem valid_full : M.full.Valid ∧ M.full.entries.Perm (mirrored M.entries) := by
  have hplaces : (((mirrored M.entries).map fun e => (⟨e.1, e.2.1, e.2.2⟩ : Triplet K)).map
      Triplet.place).Nodup := by
    rw [List.map_map]
    exact nodup_mirrored (fun e => le_of_isUpper hupper) (nodup_places h)
  have hlt : ∀ t ∈ (mirrored M.entries).map fun e => (⟨e.1, e.2.1, e.2.2⟩ : Triplet K),
      t.row < M.n ∧ t.col < M.n := by
    intro t ht
    obtain ⟨e, he, rfl⟩ := List.mem_map.mp ht
    exact mirrored_lt h hsquare he
  refine ⟨valid_ofTriplets lt_irrefl hplaces (fun t ht => (hlt t ht).1) fun t ht => (hlt t ht).2, ?_⟩
  have hperm := entries_ofTriplets_perm (m := M.n) lt_irrefl hplaces fun t ht => (hlt t ht).2
  rw [List.map_map] at hperm
  exact hperm.trans (List.Perm.of_eq (List.map_id _))

/-- What is stored in full at a place is what `M` stores above the diagonal. -/
theorem get?_full (i j : Nat) : M.full.get? i j = M.get? (min i j) (max i j) := by
  obtain ⟨hvalid, hperm⟩ := valid_full h hsquare hupper
  ext v
  rw [get?_eq_some_iff hvalid, get?_eq_some_iff h, hperm.mem_iff, mem_mirrored]
  constructor
  · rintro (he | ⟨-, he⟩)
    · have hij : i ≤ j := le_of_isUpper hupper he
      rwa [Nat.min_eq_left hij, Nat.max_eq_right hij]
    · have hji : j ≤ i := le_of_isUpper hupper he
      rwa [Nat.min_eq_right hji, Nat.max_eq_left hji]
  · intro he
    by_cases hij : i ≤ j
    · rw [Nat.min_eq_left hij, Nat.max_eq_right hij] at he
      exact .inl he
    · have hji : j ≤ i := Nat.le_of_not_le hij
      rw [Nat.min_eq_right hji, Nat.max_eq_left hji] at he
      exact .inr ⟨fun hsame => hij (Nat.le_of_eq hsame), he⟩

/-- Read as a matrix it is the symmetric one. -/
theorem mirror_eq_full : M.mirror M.n = M.full.toMatrix M.n M.n := by
  obtain ⟨-, hperm⟩ := valid_full h hsquare hupper
  ext i j
  rw [mirror_apply_eq_entrySum fun e => le_of_isUpper hupper]
  exact ((hperm.map _).sum_eq).symm

theorem symMulVecAdd_eq_full (a b : K) (x y : Vec K M.n) :
    M.symMulVecAdd a x b y = M.full.mulVecAdd a x b y := by
  apply Vec.ext_get
  intro i
  rw [get_symMulVecAdd M (fun e => le_of_isUpper hupper), get_mulVecAdd,
    mirror_eq_full h hsquare hupper]

end Full

/-! ### Dense products -/

/-- The columns of a matrix that passes the check can be counted. -/
theorem lt_wordSize_of_validate {α : Type} {A : Csc α} (h : A.validate = .ok ()) :
    A.n + 1 < wordSize := by
  have hsize := (valid_of_validate h).colptr_size
  unfold validate at h
  split at h
  · cases h
  · rename_i hlengths
    have hmod : A.colptr.size = (A.n + 1) % wordSize := by omega
    rw [hsize] at hmod
    rw [hmod]
    exact Nat.mod_lt _ (by decide)

omit [LinearOrder K] [ExactScalar K] in
theorem toMatrix_eq_get? (h : M.Valid) {m n : Nat} :
    M.toMatrix m n = .of fun i j => (M.get? i j).getD 0 := by
  ext i j
  exact entry_eq_getD h i j

/-- A matrix may be moved from one side of a dot product to the other, transposed. -/
theorem dot_mulVec (M : Csc K) (x : Vec K M.n) (y : Vec K M.m) :
    (M.mulVec M.m x).dot y = x.dot (M.transposeMulVec M.n y) := by
  have hMx : (M.mulVec M.m x).get = M.toMatrix M.m M.n *ᵥ x.get := funext (M.get_mulVec x)
  have hMy : (M.transposeMulVec M.n y).get = (M.toMatrix M.m M.n)ᵀ *ᵥ y.get :=
    funext (M.get_transposeMulVec rfl y)
  calc (M.mulVec M.m x).dot y
      = (M.toMatrix M.m M.n *ᵥ x.get) ⬝ᵥ y.get := by rw [Vec.dot_eq_sum, hMx]; rfl
    _ = x.get ⬝ᵥ ((M.toMatrix M.m M.n)ᵀ *ᵥ y.get) := by
        rw [dotProduct_comm, dotProduct_mulVec, mulVec_transpose, dotProduct_comm]
    _ = x.dot (M.transposeMulVec M.n y) := by rw [Vec.dot_eq_sum, hMy]; rfl

/-- On a matrix that passes the check, the product and the product with the transpose are
`a M x + b y` and `a Mᵀ x + b y` for the dense matrix of what is stored, whatever the
factors are, and the symmetric product is the product with the matrix in full. So the two
sides of `⟨M x, y⟩ = ⟨x, Mᵀ y⟩` are what the products compute. -/
theorem products_dense (h : M.validate = .ok ()) (a b : K) :
    let D : Matrix (Fin M.m) (Fin M.n) K := .of fun i j => (M.get? i j).getD 0
    (∀ (x : Vec K M.n) (y : Vec K M.m), ∃ w, M.mulVecAdd? a x b y = some w ∧
      w.get = a • (D *ᵥ x.get) + b • y.get) ∧
    (∀ (x : Vec K M.m) (y : Vec K M.n), ∃ w, M.transposeMulVecAdd? a x b y = some w ∧
      w.get = a • (Dᵀ *ᵥ x.get) + b • y.get) ∧
    (M.m = M.n → M.isUpper = true → M.full.validate = .ok () ∧
      (∀ i j, M.full.get? i j = M.get? (min i j) (max i j)) ∧
      ∀ x y : Vec K M.n, ∃ w, M.symMulVecAdd? a x b y = some w ∧
        M.full.mulVecAdd? a x b y = some w) ∧
    ∀ (x : Vec K M.n) (y : Vec K M.m),
      (M.mulVec M.m x).dot y = x.dot (M.transposeMulVec M.n y) := by
  intro D
  have hvalid := valid_of_validate h
  have hD : M.toMatrix M.m M.n = D := toMatrix_eq_get? hvalid
  refine ⟨fun x y => ⟨_, mulVecAdd?_of_valid hvalid a b x y, ?_⟩,
    fun x y => ⟨_, transposeMulVecAdd?_of_valid hvalid a b x y, ?_⟩,
    fun hsquare hupper => ⟨?_, get?_full hvalid hsquare hupper, fun x y =>
      ⟨_, symMulVecAdd?_of_valid hvalid hsquare a b x y, ?_⟩⟩, dot_mulVec M⟩
  · funext i
    rw [get_mulVecAdd, hD]
    rfl
  · funext j
    rw [get_transposeMulVecAdd M rfl, hD]
    rfl
  · have hword : M.n + 1 < wordSize := lt_wordSize_of_validate h
    exact validate_of_valid (valid_full hvalid hsquare hupper).1 hword
  · rw [symMulVecAdd_eq_full hvalid hsquare hupper]
    exact mulVecAdd?_of_valid (valid_full hvalid hsquare hupper).1 a b x y

/-- An upper triangle with an empty column, in which the factors are special. -/
theorem products_dense_gap :
    let M : Csc ℚ := ⟨3, 3, #[0, 1, 1, 3], #[0, 0, 2], #[2, -1, 5]⟩
    M.validate = .ok () ∧ M.m = M.n ∧ M.isUpper = true ∧
      (∀ x y : Vec ℚ 3, ∃ w, M.symMulVecAdd? 1 x 0 y = some w ∧
        M.full.mulVecAdd? 1 x 0 y = some w) ∧
      ∀ x y : Vec ℚ 3, (M.mulVec 3 x).dot y = x.dot (M.transposeMulVec 3 y) := by
  intro M
  have hvalidate : M.validate = .ok () := by decide +kernel
  have hupper : M.isUpper = true := by decide +kernel
  obtain ⟨-, -, hfull, hdot⟩ := products_dense hvalidate 1 0
  exact ⟨hvalidate, rfl, hupper, (hfull rfl hupper).2.2, hdot⟩

end QuadOpt.Csc
