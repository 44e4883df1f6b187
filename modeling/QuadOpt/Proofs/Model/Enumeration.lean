/-
# The order of terms does not show in a standard form

Triplets of different places are sorted before they are stored, and each linear coefficient is
set at a position of its own. So a standard form is the same in whatever order the terms of the
objective and of the constraints are met, and so are their texts. Of arithmetic this needs that
two summands may be exchanged and that zero is neutral but for its sign, and no more: sums are
nowhere regrouped.

Key definitions: `Constraint.Same`.
Key theorems: `StandardForm.assemble_eq_of_same`, `StandardForm.enumeration_unobservable`.
-/
import QuadOpt.Proofs.Binary64
import QuadOpt.Proofs.Expr.Enumeration
import QuadOpt.Proofs.Model.StandardForm
import QuadOpt.Proofs.Sparse.Merging

namespace QuadOpt

variable {α : Type}

/-! ### Constraints -/

/-- The same terms within the same bounds. -/
structure Constraint.Same (c d : Constraint α) : Prop where
  terms : c.terms.Same d.terms
  lower : c.lower = d.lower
  upper : c.upper = d.upper

section Highest

theorem max?_eq_of_perm {l l' : List Nat} (h : l.Perm l') : l.max? = l'.max? := by
  ext i
  simp only [List.max?_eq_some_iff, h.mem_iff]

theorem LinExpr.Same.highestIndex?_eq {e f : LinExpr α} (h : e.Same f) :
    e.highestIndex? = f.highestIndex? :=
  max?_eq_of_perm ((List.Perm.map _ h.terms).map _)

theorem QuadExpr.Same.highestIndex?_eq {e f : QuadExpr α} (h : e.Same f) :
    e.highestIndex? = f.highestIndex? :=
  max?_eq_of_perm (((List.Perm.map _ h.quadratic).map _).append
    ((List.Perm.map _ h.linear.terms).map _))

end Highest

variable [Scalar α]

theorem Constraint.Same.expression {c d : Constraint α} (h : c.Same d) :
    c.expression.Same d.expression := ⟨h.terms, rfl⟩

theorem Constraint.Same.text_eq [ScalarText α] {c d : Constraint α} (h : c.Same d) :
    c.text = d.text := by
  rw [text, text, h.expression.text_eq, h.lower, h.upper]

namespace StandardForm

/-! ### Assembly -/

/-- Each coefficient is set at a position of its own. -/
theorem denseRow_eq_of_same (n : Nat) {e f : LinExpr α} (h : e.Same f) :
    denseRow n e = denseRow n f := by
  refine List.Perm.foldl_eq' h.terms (fun s hs t ht row => ?_) _
  by_cases hst : s.1 = t.1
  · have hterm : s = t := List.inj_on_of_nodup_map e.terms.nodup hs ht hst
    rw [hterm]
  · exact Array.setIfInBounds_comm _ _ fun hindex => hst (congrArg Variable.mk hindex)

section Rows

variable {cs ds : List (Constraint α)} (h : List.Forall₂ Constraint.Same cs ds)

include h

omit [Scalar α] in
theorem flatMap_rowTriplets_perm (k : Nat) :
    ((cs.zipIdx k).flatMap rowTriplets).Perm ((ds.zipIdx k).flatMap rowTriplets) := by
  induction h generalizing k with
  | nil => exact .refl _
  | @cons c d cs ds hcd _ ih =>
    rw [List.zipIdx_cons, List.zipIdx_cons, List.flatMap_cons, List.flatMap_cons]
    exact (List.Perm.map _ hcd.terms).append (ih (k + 1))

theorem forM_checkIndex_eq (n : Nat) :
    (cs.forM fun c => checkIndex n c.expression.highestIndex?)
      = ds.forM fun d => checkIndex n d.expression.highestIndex? := by
  induction h with
  | nil => rfl
  | @cons c d cs ds hcd _ ih => rw [List.forM, List.forM, ih, hcd.expression.highestIndex?_eq]

omit [Scalar α] in
theorem bounds_eq : cs.map Constraint.lower = ds.map Constraint.lower ∧
    cs.map Constraint.upper = ds.map Constraint.upper := by
  induction h with
  | nil => exact ⟨rfl, rfl⟩
  | @cons c d cs ds hcd _ ih =>
    simp only [List.map_cons, hcd.lower, hcd.upper, ih.1, ih.2, and_self]

end Rows

/-- Assembly does not see the order of terms. -/
theorem assemble_eq_of_same (n : Nat) {objective objective' : QuadExpr α}
    {cs ds : List (Constraint α)} (h : objective.Same objective')
    (hcs : List.Forall₂ Constraint.Same cs ds) :
    assemble n objective cs = assemble n objective' ds := by
  have hP : Csc.ofTriplets n n (objective.quadratic.toList.map hessianTriplet)
      = .ofTriplets n n (objective'.quadratic.toList.map hessianTriplet) :=
    Csc.ofTriplets_eq_of_perm (List.Perm.map _ h.quadratic) (nodup_hessianTriplets objective)
  have hA : Csc.ofTriplets cs.length n (cs.zipIdx.flatMap rowTriplets)
      = .ofTriplets cs.length n (ds.zipIdx.flatMap rowTriplets) :=
    Csc.ofTriplets_eq_of_perm (flatMap_rowTriplets_perm hcs 0)
      (nodup_rowTerms Constraint.terms cs)
  obtain ⟨hlower, hupper⟩ := bounds_eq hcs
  unfold assemble
  rw [h.highestIndex?_eq, forM_checkIndex_eq hcs, hP, hA, denseRow_eq_of_same n h.linear,
    h.linear.constant, hlower, hupper, hcs.length_eq]

/-- The order in which terms are met is not to be observed: a formula builds the same terms if each
operator meets those of its operands in an order of its own, and expressions, constraints and
standard forms of the same terms have the same text and the same matrices, vectors and
errors. -/
theorem enumeration_unobservable [CommutativeSums α] [ScalarText α] :
    (∀ (f : Formula α) (o : Operand α), f.Builds o ↔ ∃ p, f.build? = some p ∧ p.Same o) ∧
    (∀ o p : Operand α, o.Same p → o.text = p.text) ∧
    (∀ c d : Constraint α, c.Same d → c.text = d.text) ∧
    ∀ (n : Nat) (objective objective' : QuadExpr α) (cs ds : List (Constraint α)),
      objective.Same objective' → List.Forall₂ Constraint.Same cs ds →
        assemble n objective cs = assemble n objective' ds :=
  ⟨fun _ _ => Formula.builds_iff, fun _ _ => Operand.Same.text_eq,
    fun _ _ => Constraint.Same.text_eq, fun n _ _ _ _ => assemble_eq_of_same n⟩

/-- Terms of two variables, in binary. -/
def twoTerms : TermMap Variable Float := ⟨[(⟨0⟩, 3), (⟨1⟩, 0.1)], by decide⟩

/-- The same terms, met the other way round. -/
def twoTermsReversed : TermMap Variable Float := ⟨[(⟨1⟩, 0.1), (⟨0⟩, 3)], by decide⟩

theorem enumeration_unobservable_binary64 :
    (Operand.quadratic (.ofLinExpr ⟨twoTerms, 0.5⟩)).text
      = (Operand.quadratic (.ofLinExpr ⟨twoTermsReversed, 0.5⟩)).text ∧
    Constraint.text ⟨twoTerms, -1.5, 0.0⟩ = Constraint.text ⟨twoTermsReversed, -1.5, 0.0⟩ ∧
    assemble 2 (.ofLinExpr ⟨twoTerms, 0.5⟩) [⟨twoTerms, -1.5, 0.0⟩]
      = assemble 2 (.ofLinExpr ⟨twoTermsReversed, 0.5⟩) [⟨twoTermsReversed, -1.5, 0.0⟩] := by
  have hsame : twoTerms.Same twoTermsReversed := .swap _ _ _
  obtain ⟨-, hexpression, hconstraint, hassembled⟩ := enumeration_unobservable (α := Float)
  exact ⟨hexpression _ _ (.quadratic (.ofLinExpr ⟨hsame, rfl⟩)),
    hconstraint _ _ ⟨hsame, rfl, rfl⟩,
    hassembled 2 _ _ _ _ (.ofLinExpr ⟨hsame, rfl⟩) (.cons ⟨hsame, rfl, rfl⟩ .nil)⟩

end StandardForm
end QuadOpt
