/-
# Vectors entry by entry

The kernels on vectors read through `get`: what an operation does to each entry,
and in exact arithmetic the sums and the norm that the reducing kernels compute.

Key definitions: `supNorm`.
Key theorems: `Vec.get_hadamard`, `Vec.get_addAt`, `Vec.dot_eq_sum`,
`supNorm_le_iff`, `Vec.normInfWeighted_eq_supNorm`.
-/
import Mathlib.Algebra.BigOperators.Fin
import QuadOpt.Proofs.Exact
import QuadOpt.Vec

namespace QuadOpt

/-! ### Entries -/

namespace Vec

section Entries

variable {α : Type} {n k : Nat}

theorem ext_get {v w : Vector α n} (h : ∀ i, v.get i = w.get i) : v = w := by
  apply Vector.ext
  intro i hi
  exact h ⟨i, hi⟩

@[simp] theorem get_map {β : Type} (f : α → β) (v : Vector α n) (i : Fin n) :
    (v.map f).get i = f (v.get i) := by
  simp [get_eq_getElem]

theorem toList_eq_map_get (v : Vector α n) : v.toList = (List.finRange n).map v.get := by
  apply List.ext_getElem
  · simp
  · intro i h _
    simp [get_eq_getElem]

theorem zip_toList {β : Type} (v : Vector α n) (w : Vector β n) :
    v.toList.zip w.toList = (List.finRange n).map fun i => (v.get i, w.get i) := by
  rw [toList_eq_map_get, toList_eq_map_get, List.zip_map']

theorem get_put_eq (v : Vector α n) (i j : Fin n) (x : α) :
    (put v i x).get j = if j = i then x else v.get j := by
  by_cases hj : j = i
  · subst hj
    rw [if_pos rfl, get_put]
  · rw [if_neg hj, get_put_ne _ (Ne.symm hj)]

@[simp] theorem get_fill (c : α) (i : Fin n) : (Vec.fill n c).get i = c := get_replicate c i

variable [Scalar α]

@[simp] theorem get_scale (v : Vec α n) (c : α) (i : Fin n) : (v.scale c).get i = v.get i * c :=
  get_map _ v i

@[simp] theorem get_recip (v : Vec α n) (i : Fin n) : v.recip.get i = 1 / v.get i :=
  get_map _ v i

@[simp] theorem get_negate (v : Vec α n) (i : Fin n) : v.negate.get i = -v.get i := get_map _ v i

@[simp] theorem get_hadamard (v w : Vec α n) (i : Fin n) :
    (v.hadamard w).get i = v.get i * w.get i := by
  simp [hadamard, get_eq_getElem]

@[simp] theorem get_combine (a b : α) (v w : Vec α n) (i : Fin n) :
    (Vec.combine a v b w).get i = a * v.get i + b * w.get i := by
  simp [combine]

theorem coord_eq_get (v : Vec α n) (i : Fin n) : v.coord i = v.get i := by
  simp [coord, get_eq_getElem]

theorem coord_of_le (v : Vec α n) {i : Nat} (h : n ≤ i) : v.coord i = 0 := by
  simp [coord, h]

theorem get_addAt (v : Vec α n) (i : Nat) (t : α) (j : Fin n) :
    (v.addAt i t).get j = if i = j then v.get j + t else v.get j := by
  unfold addAt
  by_cases hi : i < n
  · rw [dif_pos hi]
    by_cases hij : i = j
    · subst hij
      simp [get_eq_getElem]
    · rw [if_neg hij, get_eq_getElem, get_eq_getElem, Vector.getElem_set_ne _ _ hij]
  · have hij : i ≠ j := by omega
    rw [dif_neg hi, if_neg hij]

end Entries
end Vec

/-! ### Sums and norms -/

section Exact

variable {K : Type} [Field K] [LinearOrder K] {n : Nat}

/-- The largest magnitude among the numbers `f i`, and zero if there are none. -/
def supNorm (f : Fin n → K) : K := (List.finRange n).foldl (fun t i => max t |f i|) 0

omit [Field K] in
theorem foldl_max_le_iff {β : Type} (g : β → K) (c : K) :
    ∀ (l : List β) (t : K), l.foldl (fun t x => max t (g x)) t ≤ c ↔ t ≤ c ∧ ∀ x ∈ l, g x ≤ c
  | [], t => by simp
  | x :: l, t => by
    rw [List.foldl_cons, foldl_max_le_iff g c l, max_le_iff, List.forall_mem_cons, and_assoc]

/-- What the norm is: the least number that is not negative and not below any
magnitude. -/
theorem supNorm_le_iff {f : Fin n → K} {c : K} : supNorm f ≤ c ↔ 0 ≤ c ∧ ∀ i, |f i| ≤ c := by
  rw [supNorm, foldl_max_le_iff]
  simp

theorem supNorm_nonneg (f : Fin n → K) : 0 ≤ supNorm f := (supNorm_le_iff.mp le_rfl).1

theorem mul_supNorm [IsStrictOrderedRing K] {c : K} (hc : 0 < c) (f : Fin n → K) :
    c * supNorm f = supNorm fun i => c * f i := by
  apply eq_of_forall_ge_iff
  intro b
  rw [← le_div_iff₀' hc, supNorm_le_iff, supNorm_le_iff]
  have hb : 0 ≤ b / c ↔ 0 ≤ b := by
    rw [le_div_iff₀ hc, zero_mul]
  refine and_congr hb (forall_congr' fun i => ?_)
  rw [abs_mul, abs_of_pos hc, le_div_iff₀' hc]

variable [ExactScalar K]

theorem Vec.dot_eq_sum (v w : Vec K n) : v.dot w = ∑ i, v.get i * w.get i := by
  rw [Vec.dot, Vec.zip_toList, List.foldl_map, Fin.sum_univ_def, List.sum_eq_foldl,
    List.foldl_map]

theorem Vec.normInfWeighted_eq_supNorm (v w : Vec K n) :
    v.normInfWeighted w = supNorm fun i => v.get i * w.get i := by
  rw [Vec.normInfWeighted, Vec.zip_toList, List.foldl_map]
  rfl

end Exact
end QuadOpt
