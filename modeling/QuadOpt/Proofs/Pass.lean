/-
# Passes over the rows

A pass visits the rows `0 … n - 1` in order, forwards or backwards, and may stop
with an error. What each visit hands to the next holds at the end.

Key theorems: `pass_induction`, `backward_pass_induction`,
`failing_pass_induction`, `partial_pass_induction`.
-/
import Mathlib.Data.List.Basic

namespace QuadOpt

variable {n : Nat} {β ε : Type}

theorem take_finRange_succ (i : Fin n) :
    (List.finRange n).take (i.val + 1) = (List.finRange n).take i.val ++ [i] := by
  rw [List.take_succ_eq_append_getElem (by simp)]
  simp

theorem drop_finRange (i : Fin n) :
    (List.finRange n).drop i.val = i :: (List.finRange n).drop (i.val + 1) := by
  rw [List.drop_eq_getElem_cons (by simp)]
  simp

/-- A pass from the first row to the last. -/
theorem pass_induction {f : β → Fin n → β} (motive : Nat → β → Prop) {init : β}
    (start : motive 0 init)
    (step : ∀ (i : Fin n) (b : β), motive i.val b → motive (i.val + 1) (f b i)) :
    motive n ((List.finRange n).foldl f init) := by
  have hprefix : ∀ k ≤ n, motive k (((List.finRange n).take k).foldl f init) := by
    intro k
    induction k with
    | zero => exact fun _ => start
    | succ k ih =>
      intro hk
      rw [take_finRange_succ ⟨k, hk⟩, List.foldl_append]
      exact step ⟨k, hk⟩ _ (ih (by omega))
  have := hprefix n (Nat.le_refl n)
  rwa [List.take_of_length_le (by simp)] at this

/-- A pass from the last row to the first. -/
theorem backward_pass_induction {f : Fin n → β → β} (motive : Nat → β → Prop) {init : β}
    (start : motive n init)
    (step : ∀ (i : Fin n) (b : β), motive (i.val + 1) b → motive i.val (f i b)) :
    motive 0 ((List.finRange n).foldr f init) := by
  have hsuffix : ∀ d ≤ n, motive (n - d) (((List.finRange n).drop (n - d)).foldr f init) := by
    intro d
    induction d with
    | zero =>
      intro _
      rw [Nat.sub_zero, List.drop_of_length_le (by simp)]
      exact start
    | succ d ih =>
      intro hd
      rw [drop_finRange ⟨n - (d + 1), by omega⟩, List.foldr_cons]
      have hnext : n - (d + 1) + 1 = n - d := by omega
      refine step ⟨n - (d + 1), by omega⟩ _ ?_
      rw [hnext]
      exact ih (by omega)
  have := hsuffix n (Nat.le_refl n)
  rwa [Nat.sub_self, List.drop_zero] at this

/-- A pass from the first row on, which ends at the first error. -/
theorem failing_pass_induction {f : β → Fin n → Except ε β} (motive : Nat → β → Prop)
    (failure : ε → Prop) {init : β} (start : motive 0 init)
    (step : ∀ (i : Fin n) (b : β), motive i.val b →
      (∀ c, f b i = .ok c → motive (i.val + 1) c) ∧ ∀ e, f b i = .error e → failure e) :
    (∀ c, (List.finRange n).foldlM f init = .ok c → motive n c) ∧
      ∀ e, (List.finRange n).foldlM f init = .error e → failure e := by
  have hprefix : ∀ k ≤ n,
      (∀ c, ((List.finRange n).take k).foldlM f init = .ok c → motive k c) ∧
        ∀ e, ((List.finRange n).take k).foldlM f init = .error e → failure e := by
    intro k
    induction k with
    | zero =>
      refine fun _ => ⟨fun c hc => ?_, fun e he => (by cases he)⟩
      cases hc
      exact start
    | succ k ih =>
      intro hk
      obtain ⟨ihok, iherror⟩ := ih (by omega)
      rw [take_finRange_succ ⟨k, hk⟩, List.foldlM_append]
      cases hrun : ((List.finRange n).take k).foldlM f init with
      | error e =>
        refine ⟨fun c hc => (by cases hc), fun e' he => ?_⟩
        cases he
        exact iherror e hrun
      | ok b =>
        obtain ⟨hok, herror⟩ := step ⟨k, hk⟩ b (ihok b hrun)
        have hlast : [(⟨k, hk⟩ : Fin n)].foldlM f b = f b ⟨k, hk⟩ := by simp
        show (∀ c, [(⟨k, hk⟩ : Fin n)].foldlM f b = .ok c → _) ∧
          ∀ e, [(⟨k, hk⟩ : Fin n)].foldlM f b = .error e → _
        rw [hlast]
        exact ⟨hok, herror⟩
  have := hprefix n (Nat.le_refl n)
  rwa [List.take_of_length_le (by simp)] at this

/-- A pass from the first row to the last that is never refused. -/
theorem partial_pass_induction {f : β → Fin n → Option β} (motive : Nat → β → Prop) {init : β}
    (start : motive 0 init)
    (step : ∀ (i : Fin n) (b : β), motive i.val b → ∃ c, f b i = some c ∧ motive (i.val + 1) c) :
    ∃ b, (List.finRange n).foldlM f init = some b ∧ motive n b := by
  have hprefix : ∀ k ≤ n, ∃ b, ((List.finRange n).take k).foldlM f init = some b ∧ motive k b := by
    intro k
    induction k with
    | zero => exact fun _ => ⟨init, rfl, start⟩
    | succ k ih =>
      intro hk
      obtain ⟨b, hb, hmotive⟩ := ih (by omega)
      obtain ⟨c, hc, hnext⟩ := step ⟨k, hk⟩ b hmotive
      refine ⟨c, ?_, hnext⟩
      rw [take_finRange_succ ⟨k, hk⟩, List.foldlM_append, hb]
      simpa using hc
  have := hprefix n (Nat.le_refl n)
  rwa [List.take_of_length_le (by simp)] at this

end QuadOpt
