/-
# The matrix that a compressed matrix stands for

Read as a matrix, a list of entries has at each place the sum of what is listed
for it. In exact arithmetic the sparse products are the products with this
matrix, and the scalings scale it.

Key definitions: `entrySum`, `Csc.entry`, `Csc.toMatrix`, `Csc.mirror`.
Key theorems: `Csc.entry_eq_getD`, `Csc.get_mulVecAdd`, `Csc.get_transposeMulVecAdd`,
`Csc.get_symMulVecAdd`, `Csc.entry_scale`, `Csc.entry_scaleSides`.
-/
import Mathlib.Algebra.BigOperators.Group.List.Lemmas
import Mathlib.Data.Matrix.Mul
import Mathlib.Tactic.Ring
import QuadOpt.Proofs.Sparse.Entries
import QuadOpt.Proofs.Vec
import QuadOpt.Sparse.Matrix
import QuadOpt.Sparse.Product

namespace QuadOpt

open Matrix

/-! ### Sums of entries -/

section EntrySum

variable {K : Type} [Field K]

/-- The sum of the values that are listed for row `i` and column `j`. -/
def entrySum (l : List (Nat × Nat × K)) (i j : Nat) : K :=
  (l.map fun e => if e.1 = i ∧ e.2.1 = j then e.2.2 else 0).sum

theorem entrySum_cons (e : Nat × Nat × K) (l : List (Nat × Nat × K)) (i j : Nat) :
    entrySum (e :: l) i j = (if e.1 = i ∧ e.2.1 = j then e.2.2 else 0) + entrySum l i j := rfl

/-- Values that are changed place by place change the sums so. -/
theorem entrySum_map (f : Nat → Nat → K → K) (hadd : ∀ i j s t, f i j (s + t) = f i j s + f i j t)
    (l : List (Nat × Nat × K)) (i j : Nat) :
    entrySum (l.map fun e => (e.1, e.2.1, f e.1 e.2.1 e.2.2)) i j = f i j (entrySum l i j) := by
  have hzero : f i j 0 = 0 := by
    have := hadd i j 0 0
    rwa [add_zero, left_eq_add] at this
  induction l with
  | nil => exact hzero.symm
  | cons e l ih =>
    rw [List.map_cons, entrySum_cons, entrySum_cons, ih, hadd]
    by_cases he : e.1 = i ∧ e.2.1 = j
    · obtain ⟨rfl, rfl⟩ := he
      simp
    · simp only [he, if_false, hzero]

theorem entrySum_eq_zero {l : List (Nat × Nat × K)} {i j : Nat}
    (h : ∀ e ∈ l, ¬(e.1 = i ∧ e.2.1 = j)) : entrySum l i j = 0 := by
  induction l with
  | nil => rfl
  | cons e l ih =>
    rw [entrySum_cons, if_neg (h e (by simp)), zero_add]
    exact ih fun e' he' => h e' (List.mem_cons_of_mem _ he')

/-- The sum for a place that is listed once. -/
theorem entrySum_eq_of_mem {l : List (Nat × Nat × K)} (h : (l.map fun e => (e.1, e.2.1)).Nodup)
    {i j : Nat} {v : K} (hmem : (i, j, v) ∈ l) : entrySum l i j = v := by
  induction l with
  | nil => cases hmem
  | cons e l ih =>
    obtain ⟨hhead, htail⟩ := List.nodup_cons.mp h
    rw [entrySum_cons]
    rcases List.mem_cons.mp hmem with rfl | hmem
    · have hrest : entrySum l i j = 0 := by
        refine entrySum_eq_zero fun e he hplace => hhead ?_
        rw [← hplace.1, ← hplace.2]
        exact List.mem_map_of_mem (f := fun e => (e.1, e.2.1)) he
      rw [if_pos ⟨rfl, rfl⟩, hrest, add_zero]
    · have hne : ¬(e.1 = i ∧ e.2.1 = j) := by
        rintro ⟨rfl, rfl⟩
        exact hhead (List.mem_map_of_mem (f := fun e => (e.1, e.2.1)) hmem)
      rw [if_neg hne, zero_add, ih htail hmem]

/-- A row of sums against the values of `g` is a sum over the entries. -/
theorem sum_entrySum_mul {n : Nat} (l : List (Nat × Nat × K)) (i : Nat) (g : Nat → K)
    (hg : ∀ j, n ≤ j → g j = 0) :
    ∑ j : Fin n, entrySum l i j * g j
      = (l.map fun e => if e.1 = i then e.2.2 * g e.2.1 else 0).sum := by
  induction l with
  | nil => simp [entrySum]
  | cons e l ih =>
    have hhead : ∑ j : Fin n, (if e.1 = i ∧ e.2.1 = j then e.2.2 else 0) * g j
        = if e.1 = i then e.2.2 * g e.2.1 else 0 := by
      by_cases hi : e.1 = i
      · by_cases hj : e.2.1 < n
        · rw [Finset.sum_eq_single ⟨e.2.1, hj⟩]
          · simp [hi]
          · intro j _ hne
            have : e.2.1 ≠ j := fun h => hne (Fin.ext h.symm)
            simp [this]
          · simp
        · rw [if_pos hi, hg _ (by omega), mul_zero]
          apply Finset.sum_eq_zero
          intro j _
          have : e.2.1 ≠ j := by omega
          simp [this]
      · simp [hi]
    simp only [entrySum_cons, add_mul, Finset.sum_add_distrib, List.map_cons, List.sum_cons]
    rw [hhead, ih]

/-- The values of `g` against sums over rows are a sum over the entries. -/
theorem sum_mul_rowSum {n : Nat} (l : List (Nat × Nat × K)) (g : Nat → K)
    (w : Nat × Nat × K → K) (hg : ∀ i, n ≤ i → g i = 0) :
    ∑ i : Fin n, g i * (l.map fun e => if e.1 = i.val then w e else 0).sum
      = (l.map fun e => g e.1 * w e).sum := by
  induction l with
  | nil => simp
  | cons e l ih =>
    have hhead : ∑ i : Fin n, g i * (if e.1 = i then w e else 0) = g e.1 * w e := by
      by_cases he : e.1 < n
      · rw [Finset.sum_eq_single ⟨e.1, he⟩]
        · simp
        · intro i _ hne
          have : e.1 ≠ i := fun h => hne (Fin.ext h.symm)
          simp [this]
        · simp
      · rw [hg _ (by omega), zero_mul]
        apply Finset.sum_eq_zero
        intro i _
        have : e.1 ≠ i := by omega
        simp [this]
    simp only [List.map_cons, List.sum_cons, mul_add, Finset.sum_add_distrib]
    rw [hhead, ih]

/-- The sums of the transposed entries. -/
theorem entrySum_swap (l : List (Nat × Nat × K)) (i j : Nat) :
    entrySum (l.map fun e => (e.2.1, e.1, e.2.2)) i j = entrySum l j i := by
  simp only [entrySum, List.map_map]
  congr 1
  apply List.map_congr_left
  intro e _
  simp [and_comm]

theorem entrySum_append (l l' : List (Nat × Nat × K)) (i j : Nat) :
    entrySum (l ++ l') i j = entrySum l i j + entrySum l' i j := by
  simp [entrySum]

/-- The entries of a symmetric matrix of which `l` lists those on and above the
diagonal. -/
def mirrored (l : List (Nat × Nat × K)) : List (Nat × Nat × K) :=
  l.flatMap fun e => if e.1 = e.2.1 then [e] else [e, (e.2.1, e.1, e.2.2)]

theorem entrySum_mirrored {l : List (Nat × Nat × K)} (hupper : ∀ e ∈ l, e.1 ≤ e.2.1) (i j : Nat) :
    entrySum (mirrored l) i j = if i ≤ j then entrySum l i j else entrySum l j i := by
  induction l with
  | nil => simp [mirrored, entrySum]
  | cons e l ih =>
    have he : e.1 ≤ e.2.1 := hupper e (by simp)
    have hone : entrySum (if e.1 = e.2.1 then [e] else [e, (e.2.1, e.1, e.2.2)]) i j
        = if i ≤ j then (if e.1 = i ∧ e.2.1 = j then e.2.2 else 0)
          else (if e.1 = j ∧ e.2.1 = i then e.2.2 else 0) := by
      by_cases hdiag : e.1 = e.2.1
      · rw [if_pos hdiag]
        simp only [entrySum, List.map_cons, List.map_nil, List.sum_cons, List.sum_nil, add_zero]
        by_cases hij : i ≤ j
        · rw [if_pos hij]
        · rw [if_neg hij, if_neg (by omega), if_neg (by omega)]
      · rw [if_neg hdiag]
        simp only [entrySum, List.map_cons, List.map_nil, List.sum_cons, List.sum_nil, add_zero]
        by_cases hij : i ≤ j
        · rw [if_pos hij, if_neg (show ¬(e.2.1 = i ∧ e.1 = j) by omega), add_zero]
        · rw [if_neg hij, if_neg (show ¬(e.1 = i ∧ e.2.1 = j) by omega), zero_add]
          simp only [and_comm]
    rw [mirrored, List.flatMap_cons, entrySum_append, hone]
    change _ + entrySum (mirrored l) i j = _
    rw [ih fun e' he' => hupper e' (List.mem_cons_of_mem _ he'), entrySum_cons, entrySum_cons]
    by_cases hij : i ≤ j <;> simp [hij]

end EntrySum

/-! ### Products -/

namespace Csc

variable {K : Type} [Field K] {m n : Nat}

/-- The entry in row `i` and column `j`, zero where nothing is stored. -/
def entry (M : Csc K) (i j : Nat) : K := entrySum M.entries i j

/-- The matrix with the entries of `M`. -/
def toMatrix (M : Csc K) (m n : Nat) : Matrix (Fin m) (Fin n) K :=
  .of fun i j => M.entry i j

/-- The symmetric matrix that has the entries of `M` on and above its
diagonal. -/
def mirror (M : Csc K) (n : Nat) : Matrix (Fin n) (Fin n) K :=
  .of fun i j => if i ≤ j then M.entry i j else M.entry j i

/-- The entries of a well formed matrix are the values that it stores. -/
theorem entry_eq_getD {M : Csc K} (h : M.Valid) (i j : Nat) : M.entry i j = (M.get? i j).getD 0 := by
  cases hget : M.get? i j with
  | some v => exact entrySum_eq_of_mem (nodup_places h) ((get?_eq_some_iff h).mp hget)
  | none =>
    refine entrySum_eq_zero fun e he hplace => ?_
    have := (get?_eq_some_iff h).mpr he
    rw [hplace.1, hplace.2, hget] at this
    cases this

theorem mirror_apply_eq_entrySum {M : Csc K} (hupper : ∀ e ∈ M.entries, e.1 ≤ e.2.1)
    (i j : Fin n) : M.mirror n i j = entrySum (mirrored M.entries) i j := by
  rw [entrySum_mirrored hupper]
  rfl

variable [LinearOrder K] [ExactScalar K]

theorem get_timesWeight (b : K) (y : Vec K n) (i : Fin n) :
    (y.timesWeight b).get i = b * y.get i := by
  unfold Vec.timesWeight
  by_cases h0 : b = 0
  · simp [h0]
  · by_cases h1 : b = 1
    · simp [h1]
    · simp [h0, h1, mul_comm]

theorem get_foldl_addAt (t : Nat × Nat × K → K) (i : Fin m) :
    ∀ (l : List (Nat × Nat × K)) (y : Vec K m),
      (l.foldl (fun y e => y.addAt e.1 (t e)) y).get i
        = y.get i + (l.map fun e => if e.1 = i.val then t e else 0).sum
  | [], y => by simp
  | e :: l, y => by
    rw [List.foldl_cons, get_foldl_addAt t i l, Vec.get_addAt, List.map_cons, List.sum_cons]
    by_cases he : e.1 = i.val <;> simp [he, add_assoc]

/-- A row of a product, taken over all entries. -/
theorem toMatrix_mulVec (M : Csc K) (x : Vec K n) (i : Fin m) : (M.toMatrix m n *ᵥ x.get) i
    = (M.entries.map fun e => if e.1 = i.val then e.2.2 * x.coord e.2.1 else 0).sum := by
  rw [← sum_entrySum_mul _ _ _ fun j hj => x.coord_of_le hj]
  simp only [Vec.coord_eq_get]
  rfl

/-- `a M x + b y`, whatever `a` and `b` are. -/
theorem get_mulVecAdd (M : Csc K) (a : K) (x : Vec K n) (b : K) (y : Vec K m) (i : Fin m) :
    (M.mulVecAdd a x b y).get i = a * (M.toMatrix m n *ᵥ x.get) i + b * y.get i := by
  unfold Csc.mulVecAdd
  by_cases ha : a = 0
  · simp [ha, get_timesWeight]
  · have hbeq : (a == 0) = false := by simpa using ha
    simp only [hbeq]
    rw [if_neg (by simp), get_foldl_addAt, get_timesWeight, toMatrix_mulVec, add_comm,
      ← List.sum_map_mul_left]
    congr 2
    apply List.map_congr_left
    intro e _
    by_cases he : e.1 = i.val <;> simp [he, mul_assoc]

omit [LinearOrder K] [ExactScalar K] in
theorem sum_map_entries (M : Csc K) (f : Nat × Nat × K → K) :
    (M.entries.map f).sum
      = ∑ j ∈ Finset.range M.n, ((M.column j).map fun e => f (e.1, j, e.2)).sum := by
  rw [entries, List.map_flatMap, List.flatMap_def, List.sum_flatten, List.map_map]
  simp only [List.map_map, Function.comp_def]
  rfl

omit [LinearOrder K] [ExactScalar K] in
/-- What is listed for a place is listed in its column. -/
theorem entry_eq_sum_column (M : Csc K) (i : Nat) {j : Nat} (hj : j < M.n) :
    M.entry i j = ((M.column j).map fun e => if e.1 = i then e.2 else 0).sum := by
  rw [entry, entrySum, sum_map_entries, Finset.sum_eq_single j]
  · simp only [and_true]
  · intro k _ hk
    simp [hk]
  · intro hnot
    exact absurd (Finset.mem_range.mpr hj) hnot

/-- The dot product with a column, taken over all entries. -/
theorem columnDot_eq_sum (M : Csc K) (x : Vec K m) {j : Nat} (hj : j < M.n) :
    M.columnDot x j
      = (M.entries.map fun e => if e.2.1 = j then e.2.2 * x.coord e.1 else 0).sum := by
  rw [sum_map_entries, Finset.sum_eq_single j]
  · simp only [if_true]
    rw [columnDot, List.sum_eq_foldl, List.foldl_map]
  · intro k _ hk
    simp [hk]
  · intro hnot
    exact absurd (Finset.mem_range.mpr hj) hnot

/-- `a Mᵀ x + b y`, whatever `a` and `b` are. -/
theorem get_transposeMulVecAdd (M : Csc K) (hn : M.n = n) (a : K) (x : Vec K m) (b : K)
    (y : Vec K n) (j : Fin n) :
    (M.transposeMulVecAdd a x b y).get j
      = a * ((M.toMatrix m n)ᵀ *ᵥ x.get) j + b * y.get j := by
  have hcol : ((M.toMatrix m n)ᵀ *ᵥ x.get) j = M.columnDot x j := by
    have hj : j.val < M.n := by omega
    have hswap := sum_entrySum_mul (n := m) (M.entries.map fun e => (e.2.1, e.1, e.2.2)) j.val
      x.coord fun i hi => x.coord_of_le hi
    simp only [entrySum_swap, List.map_map, Vec.coord_eq_get] at hswap
    rw [columnDot_eq_sum M x hj]
    exact hswap
  unfold Csc.transposeMulVecAdd
  by_cases ha : a = 0
  · simp [ha, get_timesWeight]
  · have hbeq : (a == 0) = false := by simpa using ha
    simp only [hbeq]
    rw [if_neg (by simp), Vec.get_ofFn, get_timesWeight, hcol, add_comm]

theorem mirror_mulVec {M : Csc K} (hupper : ∀ e ∈ M.entries, e.1 ≤ e.2.1) (x : Vec K n)
    (i : Fin n) : (M.mirror n *ᵥ x.get) i = ((mirrored M.entries).map fun e =>
      if e.1 = i.val then e.2.2 * x.coord e.2.1 else 0).sum := by
  rw [← sum_entrySum_mul _ _ _ fun j hj => x.coord_of_le hj]
  simp only [Vec.coord_eq_get, ← mirror_apply_eq_entrySum hupper]
  rfl

/-- The quadratic form of a symmetric matrix whose upper triangle is stored. -/
theorem dotProduct_mirror_mulVec {M : Csc K} (hupper : ∀ e ∈ M.entries, e.1 ≤ e.2.1)
    (x : Vec K n) : x.get ⬝ᵥ M.mirror n *ᵥ x.get = (M.entries.map fun e =>
      (if e.1 = e.2.1 then 1 else 2) * (e.2.2 * (x.coord e.1 * x.coord e.2.1))).sum := by
  have hmirrored : x.get ⬝ᵥ M.mirror n *ᵥ x.get
      = ((mirrored M.entries).map fun e => x.coord e.1 * (e.2.2 * x.coord e.2.1)).sum := by
    rw [← sum_mul_rowSum _ x.coord _ fun i hi => x.coord_of_le hi]
    simp only [dotProduct, mirror_mulVec hupper, Vec.coord_eq_get]
  rw [hmirrored, mirrored, List.map_flatMap, List.flatMap_def, List.sum_flatten, List.map_map]
  congr 1
  apply List.map_congr_left
  intro e _
  by_cases he : e.1 = e.2.1
  · simp only [Function.comp_apply, if_pos he, List.map_cons, List.map_nil, List.sum_cons,
      List.sum_nil]
    ring
  · simp only [Function.comp_apply, if_neg he, List.map_cons, List.map_nil, List.sum_cons,
      List.sum_nil]
    ring

/-- `a S x + b y` for the symmetric `S` whose upper triangle is stored. -/
theorem get_symMulVecAdd (M : Csc K) (hupper : ∀ e ∈ M.entries, e.1 ≤ e.2.1) (a : K) (x : Vec K n)
    (b : K) (y : Vec K n) (i : Fin n) :
    (M.symMulVecAdd a x b y).get i = a * (M.mirror n *ᵥ x.get) i + b * y.get i := by
  have hfold : M.symMulVecAdd a x b y
      = (mirrored M.entries).foldl (fun y e => y.addAt e.1 (a * e.2.2 * x.coord e.2.1))
          (y.timesWeight b) := by
    rw [mirrored, List.foldl_flatMap, Csc.symMulVecAdd]
    congr 1
    funext y e
    by_cases he : e.1 = e.2.1 <;> simp [he]
  rw [hfold, get_foldl_addAt, get_timesWeight, mirror_mulVec hupper, add_comm,
    ← List.sum_map_mul_left]
  congr 2
  apply List.map_congr_left
  intro e _
  by_cases he : e.1 = i.val <;> simp [he, mul_assoc]

theorem get_mulVec (M : Csc K) (x : Vec K n) (i : Fin m) :
    (M.mulVec m x).get i = (M.toMatrix m n *ᵥ x.get) i := by
  rw [mulVec, get_mulVecAdd, one_mul, zero_mul, add_zero]

theorem get_transposeMulVec (M : Csc K) (hn : M.n = n) (x : Vec K m) (j : Fin n) :
    (M.transposeMulVec n x).get j = ((M.toMatrix m n)ᵀ *ᵥ x.get) j := by
  rw [transposeMulVec, get_transposeMulVecAdd M hn, one_mul, zero_mul, add_zero]

theorem get_symMulVec (M : Csc K) (hupper : ∀ e ∈ M.entries, e.1 ≤ e.2.1) (x : Vec K n)
    (i : Fin n) : (M.symMulVec x).get i = (M.mirror n *ᵥ x.get) i := by
  rw [symMulVec, get_symMulVecAdd M hupper, one_mul, zero_mul, add_zero]

/-! ### Scalings -/

theorem entries_scale (M : Csc K) (c : K) :
    (M.scale c).entries = M.entries.map fun e => (e.1, e.2.1, e.2.2 * c) := by
  have hcolumn : ∀ j, (M.scale c).column j = (M.column j).map fun e => (e.1, e.2 * c) := by
    intro j
    have hvalues : (M.scale c).values j = (M.values j).map fun v => v * c := by
      simp [values, Csc.scale, start]
    rw [column, hvalues, column, List.zip_map_right]
    rfl
  rw [entries, entries, List.map_flatMap]
  apply List.flatMap_congr
  intro j _
  rw [hcolumn, List.map_map, List.map_map]
  rfl

theorem entry_scale (M : Csc K) (c : K) (i j : Nat) : (M.scale c).entry i j = M.entry i j * c := by
  rw [entry, entries_scale]
  exact entrySum_map (fun _ _ v => v * c) (fun _ _ _ _ => add_mul _ _ _) _ _ _

theorem scaledValues_getD_of_notMem (M : Csc K) (l : Vec K m) (r : Vec K n) {k : Nat} :
    ∀ {slots : List (Nat × Nat)} {vals : Array K}, k ∉ slots.map Prod.fst →
      (slots.foldl (fun vals s =>
        vals.modify s.1 fun v => v * (l.coord (M.rowval.getD s.1 0) * r.coord s.2)) vals).getD k 0
          = vals.getD k 0
  | [], _, _ => rfl
  | s :: slots, vals, h => by
    rw [List.map_cons, List.mem_cons, not_or] at h
    rw [List.foldl_cons, scaledValues_getD_of_notMem M l r h.2]
    simp only [Array.getD_eq_getD_getElem?, Array.getElem?_modify]
    rw [if_neg (Ne.symm h.1)]

/-- Each listed position is scaled once. -/
theorem scaledValues_getD_of_mem (M : Csc K) (l : Vec K m) (r : Vec K n) {s : Nat × Nat} :
    ∀ {slots : List (Nat × Nat)} {vals : Array K}, (slots.map Prod.fst).Nodup → s ∈ slots →
      (slots.foldl (fun vals s =>
        vals.modify s.1 fun v => v * (l.coord (M.rowval.getD s.1 0) * r.coord s.2)) vals).getD s.1 0
          = vals.getD s.1 0 * (l.coord (M.rowval.getD s.1 0) * r.coord s.2)
  | t :: slots, vals, hnodup, hmem => by
    rw [List.map_cons, List.nodup_cons] at hnodup
    rw [List.foldl_cons]
    rcases List.mem_cons.mp hmem with rfl | hmem
    · rw [scaledValues_getD_of_notMem M l r hnodup.1]
      simp only [Array.getD_eq_getD_getElem?, Array.getElem?_modify, if_true]
      cases vals[s.1]? <;> simp
    · have hne : t.1 ≠ s.1 := fun h => hnodup.1 (h ▸ List.mem_map_of_mem hmem)
      rw [scaledValues_getD_of_mem M l r hnodup.2 hmem]
      simp only [Array.getD_eq_getD_getElem?, Array.getElem?_modify]
      rw [if_neg hne]

theorem entries_scaleSides {M : Csc K} (h : M.Valid) (l : Vec K m) (r : Vec K n) :
    (M.scaleSides l r).entries
      = M.entries.map fun e => (e.1, e.2.1, e.2.2 * (l.coord e.1 * r.coord e.2.1)) := by
  have hvalid : (M.scaleSides l r).Valid := h.withValues (M.scaledValues_size l r M.slots)
  have hnodup : (M.slots.map Prod.fst).Nodup := by
    rw [map_fst_slots h]
    exact List.nodup_range
  rw [entries_eq_map_slots hvalid, entries_eq_map_slots h, List.map_map]
  apply List.map_congr_left
  intro s hs
  have hvalue : (M.scaleSides l r).nzval.getD s.1 0
      = M.nzval.getD s.1 0 * (l.coord (M.rowval.getD s.1 0) * r.coord s.2) :=
    scaledValues_getD_of_mem M l r hnodup hs
  rw [Function.comp_apply, hvalue]
  rfl

theorem entry_scaleSides {M : Csc K} (h : M.Valid) (l : Vec K m) (r : Vec K n) (i : Fin m)
    (j : Fin n) : (M.scaleSides l r).entry i j = M.entry i j * (l.get i * r.get j) := by
  rw [entry, entries_scaleSides h, ← Vec.coord_eq_get, ← Vec.coord_eq_get]
  exact entrySum_map (fun i j v => v * (l.coord i * r.coord j)) (fun _ _ _ _ => add_mul _ _ _) _ _ _

end Csc
end QuadOpt
