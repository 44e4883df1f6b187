/-
# Triangular solves

A matrix that is stored by its columns, with the entries of a column in any
order, and solves with `I + L` and its transpose for an `L` below the diagonal.
Arithmetic is exact.

Key definitions: `coefficient`, `columnMatrix`, `StrictlyLower`, `MovedOver`,
`SolvedFrom`.
Key theorems: `get_foldl_sub`, `solveLower_eq`, `solveLowerTranspose_eq`.
-/
import Mathlib.Data.Matrix.Mul
import Mathlib.Tactic.Ring
import QuadOpt.Ldl.Numeric
import QuadOpt.Proofs.Pass
import QuadOpt.Proofs.Vec

namespace QuadOpt

open Matrix

/-! ### Columns -/

section Column

variable {K : Type} [Field K] {n : Nat}

/-- The sum of the values that a column lists for row `i`. -/
def coefficient (col : List (Fin n × K)) (i : Fin n) : K :=
  (col.map fun e => if e.1 = i then e.2 else 0).sum

theorem coefficient_nil (i : Fin n) : coefficient ([] : List (Fin n × K)) i = 0 := rfl

theorem coefficient_cons (e : Fin n × K) (col : List (Fin n × K)) (i : Fin n) :
    coefficient (e :: col) i = (if e.1 = i then e.2 else 0) + coefficient col i := rfl

theorem coefficient_append (col col' : List (Fin n × K)) (i : Fin n) :
    coefficient (col ++ col') i = coefficient col i + coefficient col' i := by
  simp [coefficient]

theorem coefficient_eq_zero {col : List (Fin n × K)} {i : Fin n} (h : ∀ e ∈ col, e.1 ≠ i) :
    coefficient col i = 0 := by
  induction col with
  | nil => rfl
  | cons e col ih =>
    rw [coefficient_cons, if_neg (h e (by simp)), zero_add]
    exact ih fun e' he' => h e' (List.mem_cons_of_mem _ he')

/-- A coefficient against the values of `g` is a sum over the entries. -/
theorem sum_coefficient_mul (col : List (Fin n × K)) (g : Fin n → K) :
    ∑ i, coefficient col i * g i = (col.map fun e => e.2 * g e.1).sum := by
  induction col with
  | nil => simp [coefficient]
  | cons e col ih =>
    simp only [coefficient_cons, add_mul, Finset.sum_add_distrib, ih, List.map_cons, List.sum_cons]
    simp

/-- The matrix with the listed columns. -/
def columnMatrix (lower : Vector (List (Fin n × K)) n) : Matrix (Fin n) (Fin n) K :=
  .of fun i c => coefficient (lower.get c) i

end Column

/-- Every column lists rows below the diagonal only. -/
def StrictlyLower {α : Type} {n : Nat} (lower : Vector (List (Fin n × α)) n) : Prop :=
  ∀ c, ∀ e ∈ lower.get c, c < e.1

section Solve

variable {K : Type} [Field K] {n : Nat} {lower : Vector (List (Fin n × K)) n}

theorem StrictlyLower.columnMatrix_eq_zero (h : StrictlyLower lower) {i c : Fin n} (hic : i ≤ c) :
    columnMatrix lower i c = 0 := by
  refine coefficient_eq_zero fun e he hei => ?_
  have := h c e he
  subst hei
  omega

theorem sum_lt_succ (g : Fin n → K) (i : Fin n) :
    ∑ c : Fin n, (if c.val < i.val + 1 then g c else 0)
      = (∑ c : Fin n, if c.val < i.val then g c else 0) + g i := by
  have hsplit : ∀ c : Fin n, (if c.val < i.val + 1 then g c else 0)
      = (if c.val < i.val then g c else 0) + if c = i then g c else 0 := by
    intro c
    by_cases hc : c = i
    · subst hc
      simp
    · have hiff : c.val < i.val + 1 ↔ c.val < i.val := by omega
      simp [hc, hiff]
  simp only [hsplit, Finset.sum_add_distrib]
  simp

/-- Subtracting `t` times a column. -/
theorem get_foldl_sub (t : K) (i : Fin n) (col : List (Fin n × K)) (y : Vec K n) :
    (col.foldl (fun y e => y.put e.1 (y.get e.1 - e.2 * t)) y).get i
      = y.get i - coefficient col i * t := by
  induction col generalizing y with
  | nil => simp [coefficient_nil]
  | cons e col ih =>
    rw [List.foldl_cons, ih, Vec.get_put_eq, coefficient_cons]
    by_cases he : i = e.1
    · subst he
      rw [if_pos rfl, if_pos rfl]
      ring
    · rw [if_neg he, if_neg (Ne.symm he), zero_add]

theorem foldl_add_eq_sum (col : List (Fin n × K)) (x : Vec K n) (s : K) :
    col.foldl (fun s e => s + e.2 * x.get e.1) s = s + ∑ i, coefficient col i * x.get i := by
  rw [sum_coefficient_mul]
  induction col generalizing s with
  | nil => simp
  | cons e col ih => rw [List.foldl_cons, ih, List.map_cons, List.sum_cons, add_assoc]

/-! ### One column of a solve -/

/-- The columns before `k` have been moved over to the right-hand side `b`. -/
def MovedOver (lower : Vector (List (Fin n × K)) n) (b : Vec K n) (k : Nat) (x : Vec K n) : Prop :=
  ∀ i, b.get i = x.get i
    + ∑ c : Fin n, if c.val < k then columnMatrix lower i c * x.get c else 0

theorem MovedOver.step (h : StrictlyLower lower) {b x x' : Vec K n} {k : Fin n}
    (hx : MovedOver lower b k.val x)
    (hnew : ∀ r, x'.get r = x.get r - columnMatrix lower r k * x.get k) :
    MovedOver lower b (k.val + 1) x' := by
  intro i
  have hkeep : ∀ c : Fin n, c ≤ k → x'.get c = x.get c := by
    intro c hc
    rw [hnew, h.columnMatrix_eq_zero hc, zero_mul, sub_zero]
  have hsum : (∑ c : Fin n, if c.val < k.val then columnMatrix lower i c * x'.get c else 0)
      = ∑ c : Fin n, if c.val < k.val then columnMatrix lower i c * x.get c else 0 := by
    apply Finset.sum_congr rfl
    intro c _
    by_cases hc : c.val < k.val
    · rw [if_pos hc, if_pos hc, hkeep c (Nat.le_of_lt hc)]
    · rw [if_neg hc, if_neg hc]
  rw [sum_lt_succ, hsum, hkeep k (Fin.le_refl k), hnew i, hx i]
  ring

/-- The rows from `k` on are solved for `b`, and those before are as they were. -/
def SolvedFrom (lower : Vector (List (Fin n × K)) n) (b : Vec K n) (k : Nat) (x : Vec K n) : Prop :=
  ∀ i : Fin n, (k ≤ i.val → b.get i = x.get i + ∑ r, columnMatrix lower r i * x.get r) ∧
    (i.val < k → x.get i = b.get i)

theorem SolvedFrom.step (h : StrictlyLower lower) {b x x' : Vec K n} {k : Fin n}
    (hx : SolvedFrom lower b (k.val + 1) x)
    (hnew : ∀ r, x'.get r
      = if r = k then x.get k - ∑ r, columnMatrix lower r k * x.get r else x.get r) :
    SolvedFrom lower b k.val x' := by
  intro i
  have hsum : k ≤ i → ∑ r, columnMatrix lower r i * x'.get r
      = ∑ r, columnMatrix lower r i * x.get r := by
    intro hki
    apply Finset.sum_congr rfl
    intro r _
    by_cases hr : r = k
    · subst hr
      rw [h.columnMatrix_eq_zero hki, zero_mul, zero_mul]
    · rw [hnew, if_neg hr]
  constructor
  · intro hki
    rw [hsum hki, hnew]
    by_cases hik : i = k
    · subst hik
      rw [if_pos rfl, sub_add_cancel, (hx i).2 (by omega)]
    · rw [if_neg hik]
      exact (hx i).1 (by omega)
  · intro hik
    have hne : i ≠ k := by
      rintro rfl
      omega
    rw [hnew, if_neg hne]
    exact (hx i).2 (by omega)

/-! ### All columns -/

variable [LinearOrder K] [ExactScalar K]

/-- Solving with `I + L`. -/
theorem solveLower_eq (h : StrictlyLower lower) (b : Vec K n) :
    (1 + columnMatrix lower) *ᵥ (solveLower lower b).get = b.get := by
  have hpass : MovedOver lower b n (solveLower lower b) := by
    refine pass_induction (MovedOver lower b) (fun i => by simp) fun k x hx => ?_
    exact hx.step h fun r => get_foldl_sub (x.get k) r (lower.get k) x
  ext i
  have hall := hpass i
  simp only [Fin.is_lt, if_true] at hall
  rw [add_mulVec, one_mulVec, Pi.add_apply, hall]
  rfl

/-- Solving with the transpose of `I + L`. -/
theorem solveLowerTranspose_eq (h : StrictlyLower lower) (b : Vec K n) :
    (1 + columnMatrix lower)ᵀ *ᵥ (solveLowerTranspose lower b).get = b.get := by
  have hpass : SolvedFrom lower b 0 (solveLowerTranspose lower b) := by
    rw [solveLowerTranspose, List.foldl_reverse]
    refine backward_pass_induction (SolvedFrom lower b)
      (fun i => ⟨fun hi => absurd i.isLt (Nat.not_lt_of_le hi), fun _ => rfl⟩) fun k x hx => ?_
    have hdot := foldl_add_eq_sum (lower.get k) x 0
    rw [zero_add] at hdot
    rw [hdot]
    exact hx.step h fun r => Vec.get_put_eq x k r _
  ext i
  rw [transpose_add, transpose_one, add_mulVec, one_mulVec, Pi.add_apply,
    (hpass i).1 (Nat.zero_le _)]
  rfl

end Solve
end QuadOpt
