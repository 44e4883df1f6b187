/-
# The order of terms does not show

A map keeps its terms in an order of its own, and each loop over a map meets them in that
order. Sums, differences, multiples and the operators in place give each key one summand at
most for each map, so nothing depends on the order. A product gives the square of a variable one
summand and the product of two variables two, which are added to zero and may be exchanged. So
the operators of a formula build the same terms in whatever order they meet those of their
operands, and texts are the same because terms are sorted by their keys first.

Key definitions: `LinExpr.Same`, `QuadExpr.Same`, `Operand.Same`, `Formula.Builds`.
Key theorems: `TermMap.same_iff`, `LinExpr.Same.product`, `BinaryOp.result?_same`,
`Formula.builds_iff`, `Operand.Same.text_eq`.
-/
import QuadOpt.Expr.Text
import QuadOpt.Proofs.Expr.Formula
import QuadOpt.Proofs.Numbers
import Mathlib.Data.List.Perm.Basic
import Mathlib.Data.List.Perm.Subperm
import Mathlib.Data.List.Nodup

namespace QuadOpt

open Scalar

/-! ### Maps with the same terms -/

namespace TermMap

section Same

variable {κ α : Type} [DecidableEq κ] {t t' s : TermMap κ α}

omit [DecidableEq κ] in
theorem Same.refl (t : TermMap κ α) : t.Same t := List.Perm.refl _

omit [DecidableEq κ] in
theorem Same.trans (h : t.Same t') (h' : t'.Same s) : t.Same s := List.Perm.trans h h'

/-- The first term is looked at first. -/
theorem lookup_cons_eq (k : κ) (e : κ × α) (l : List (κ × α)) :
    (e :: l).lookup k = if e.1 = k then some e.2 else l.lookup k := by
  obtain ⟨j, c⟩ := e
  by_cases h : j = k
  · simp [h]
  · simp [List.lookup_cons, h, beq_false_of_ne (Ne.symm h)]

theorem get?_eq_some_iff {k : κ} {c : α} : t.get? k = some c ↔ (k, c) ∈ t.toList := by
  have hnodup := t.nodup
  unfold get?
  generalize t.toList = l at hnodup
  induction l with
  | nil => simp
  | cons e l ih =>
    obtain ⟨hhead, htail⟩ := List.nodup_cons.mp hnodup
    rw [lookup_cons_eq, List.mem_cons]
    by_cases hk : e.1 = k
    · have hnotin : (k, c) ∉ l := fun h => hhead (hk ▸ List.mem_map.mpr ⟨(k, c), h, rfl⟩)
      simp [hk, hnotin, Prod.ext_iff, eq_comm]
    · simp [hk, Ne.symm hk, Prod.ext_iff, ih htail]

/-- Maps have the same terms iff they give each key the same coefficient. -/
theorem same_iff : t.Same s ↔ ∀ k, t.get? k = s.get? k := by
  have hnodup : ∀ r : TermMap κ α, r.toList.Nodup := fun r => List.Nodup.of_map _ r.nodup
  have hmem : t.Same s ↔ ∀ e, e ∈ t.toList ↔ e ∈ s.toList :=
    List.perm_ext_iff_of_nodup (hnodup t) (hnodup s)
  rw [hmem]
  constructor
  · intro h k
    ext c
    rw [get?_eq_some_iff, get?_eq_some_iff, h]
  · rintro h ⟨k, c⟩
    rw [← get?_eq_some_iff, ← get?_eq_some_iff, h]

omit [DecidableEq κ] in
theorem Same.map (h : t.Same s) (f : α → α) : (t.map f).Same (s.map f) := List.Perm.map _ h

end Same

/-! ### What a key receives -/

section Receive

variable {κ α : Type} [DecidableEq κ] [Scalar α] {t s : TermMap κ α}

/-- A coefficient after one more summand. The first one is added to zero. -/
def receive (c : Option α) (d : α) : Option α := some (c.getD 0 + d)

/-- The summands for a key, in turn. -/
def summands (k : κ) (es : List (κ × α)) : List α := (es.filter fun e => e.1 = k).map Prod.snd

theorem get?_add (t : TermMap κ α) (k : κ) (c : α) (j : κ) :
    (t.add k c).get? j = if k = j then receive (t.get? j) c else t.get? j := by
  show (addToList k c t.toList).lookup j = _
  unfold get?
  induction t.toList with
  | nil => by_cases hj : k = j <;> simp [addToList, lookup_cons_eq, hj, receive]
  | cons e l ih =>
    unfold addToList
    by_cases he : e.1 = k
    · by_cases hj : k = j <;> simp [lookup_cons_eq, he, hj, receive]
    · by_cases hj : e.1 = j
      · have hk : ¬k = j := fun hk => he (hj.trans hk.symm)
        rw [if_neg he, lookup_cons_eq, lookup_cons_eq, if_pos hj, if_neg hk, if_pos hj]
      · rw [if_neg he, lookup_cons_eq, lookup_cons_eq, if_neg hj, if_neg hj, ih]

theorem get?_addList (es : List (κ × α)) (t : TermMap κ α) (k : κ) :
    (t.addList es).get? k = (summands k es).foldl receive (t.get? k) := by
  induction es generalizing t with
  | nil => rfl
  | cons e es ih =>
    have hstep : (t.addList (e :: es)).get? k = ((t.add e.1 e.2).addList es).get? k := rfl
    rw [hstep, ih, get?_add]
    by_cases hk : e.1 = k
    · simp [summands, hk]
    · simp [summands, hk]

omit [Scalar α] in
theorem length_summands_le {es : List (κ × α)} (hnodup : (es.map Prod.fst).Nodup) (k : κ) :
    (summands k es).length ≤ 1 := by
  have hfilter : (es.filter fun e => e.1 = k).map Prod.fst ⊆ [k] := by
    intro j hj
    obtain ⟨e, he, rfl⟩ := List.mem_map.mp hj
    simpa using (List.mem_filter.mp he).2
  have hle := (List.subperm_of_subset (hnodup.sublist (List.filter_sublist.map _)) hfilter).length_le
  simpa [summands] using hle

omit [DecidableEq κ] [Scalar α] in
theorem eq_of_perm_of_length_le {cs ds : List α} (h : cs.Perm ds) (hlen : cs.length ≤ 1) :
    cs = ds := by
  match cs with
  | [] => exact (List.nil_perm.mp h).symm
  | [c] => exact (List.singleton_perm.mp h)

/-- Each key is added once, so the order does not show. -/
theorem Same.addList (h : t.Same s) {es fs : List (κ × α)} (hperm : es.Perm fs)
    (hnodup : (es.map Prod.fst).Nodup) : (t.addList es).Same (s.addList fs) := by
  rw [same_iff] at h ⊢
  intro k
  have hsummands : (summands k es).Perm (summands k fs) := (hperm.filter _).map _
  rw [get?_addList, get?_addList, h k,
    eq_of_perm_of_length_le hsummands (length_summands_le hnodup k)]

theorem Same.addAll {t' s' : TermMap κ α} (h : t.Same s) (h' : t'.Same s') :
    (t.addAll t').Same (s.addAll s') := h.addList h' t'.nodup

theorem Same.add (h : t.Same s) (k : κ) (c : α) : (t.add k c).Same (s.add k c) :=
  h.addList (.refl [(k, c)]) (List.nodup_singleton k)

variable [CommutativeSums α]

/-- Two summands of a new key may be exchanged. -/
theorem foldl_receive_eq_of_perm {cs ds : List α} (h : cs.Perm ds) (hlen : cs.length ≤ 2) :
    cs.foldl receive none = ds.foldl receive none := by
  induction h with
  | nil => rfl
  | cons c h ih =>
    rw [eq_of_perm_of_length_le h (by simpa using hlen)]
  | swap c d l =>
    have hl : l = [] := by
      rw [← List.length_eq_zero_iff]
      simpa using hlen
    subst hl
    exact congrArg some (CommutativeSums.zero_add_exchange d c)
  | trans h h' ih ih' => rw [ih hlen, ih' (h.length_eq ▸ hlen)]

end Receive

section Sorted
variable {κ α : Type} [DecidableEq κ] {t s : TermMap κ α}

omit [DecidableEq κ] in
/-- The terms in the order of their keys. -/
theorem Same.sorted_eq (h : t.Same s) {le : κ → κ → Bool}
    (htrans : ∀ j k l, le j k → le k l → le j l) (htotal : ∀ j k, le j k || le k j)
    (hantisymm : ∀ j k, le j k → le k j → j = k) : t.sorted le = s.sorted le := by
  have hsorted : ∀ r : TermMap κ α, (r.sorted le).Pairwise fun a b => le a.1 b.1 = true := fun r =>
    List.pairwise_mergeSort (fun a b c => htrans a.1 b.1 c.1) (fun a b => htotal a.1 b.1) _
  have hperm : (t.sorted le).Perm (s.sorted le) :=
    (List.mergeSort_perm _ _).trans (List.Perm.trans h (List.mergeSort_perm _ _).symm)
  refine List.Perm.eq_of_pairwise (fun a b ha hb hab hba => ?_) (hsorted t) (hsorted s) hperm
  exact List.inj_on_of_nodup_map t.nodup (List.mem_mergeSort.mp ha)
    (h.mem_iff.mpr (List.mem_mergeSort.mp hb)) (hantisymm _ _ hab hba)

end Sorted

end TermMap

/-! ### Expressions with the same terms -/

section Expressions

variable {α : Type}

/-- The same terms, in any order, and the same constant. -/
structure LinExpr.Same (e f : LinExpr α) : Prop where
  terms : e.terms.Same f.terms
  constant : e.constant = f.constant

/-- The same terms of either kind, in any order, and the same constant. -/
structure QuadExpr.Same (e f : QuadExpr α) : Prop where
  quadratic : e.quadratic.Same f.quadratic
  linear : e.linear.Same f.linear

/-- Operands of one kind that are the same but for the order of their terms. -/
inductive Operand.Same : Operand α → Operand α → Prop where
  | number (c : α) : Same (.number c) (.number c)
  | var (v : Variable) : Same (.var v) (.var v)
  | affine {e f : LinExpr α} (h : e.Same f) : Same (.affine e) (.affine f)
  | quadratic {e f : QuadExpr α} (h : e.Same f) : Same (.quadratic e) (.quadratic f)

theorem LinExpr.Same.refl (e : LinExpr α) : e.Same e := ⟨.refl _, rfl⟩

theorem LinExpr.Same.trans {e f g : LinExpr α} (h : e.Same f) (h' : f.Same g) : e.Same g :=
  ⟨h.terms.trans h'.terms, h.constant.trans h'.constant⟩

theorem Operand.Same.refl (o : Operand α) : o.Same o := by
  cases o with
  | number c => exact .number c
  | var v => exact .var v
  | affine e => exact .affine (.refl e)
  | quadratic e => exact .quadratic ⟨.refl _, .refl _⟩

theorem Operand.Same.trans {o p q : Operand α} (h : o.Same p) (h' : p.Same q) : o.Same q := by
  cases h with
  | number c => exact h'
  | var v => exact h'
  | affine h =>
    cases h' with
    | affine h' => exact .affine (h.trans h')
  | quadratic h =>
    cases h' with
    | quadratic h' =>
      exact .quadratic ⟨h.quadratic.trans h'.quadratic, h.linear.trans h'.linear⟩

variable [Scalar α]

namespace LinExpr

variable {e e' f f' : LinExpr α}

theorem Same.addTerm (h : e.Same e') (v : Variable) (c : α) :
    (e.addTerm v c).Same (e'.addTerm v c) := ⟨h.terms.add v c, h.constant⟩

theorem Same.addConstant (h : e.Same e') (c : α) : (e.addConstant c).Same (e'.addConstant c) :=
  ⟨h.terms, congrArg (· + c) h.constant⟩

theorem Same.subtractConstant (h : e.Same e') (c : α) :
    (e.subtractConstant c).Same (e'.subtractConstant c) := ⟨h.terms, congrArg (· - c) h.constant⟩

theorem Same.add (h : e.Same e') (h' : f.Same f') : (e + f).Same (e' + f') :=
  ⟨h.terms.addAll h'.terms, congrArg₂ (· + ·) h.constant h'.constant⟩

theorem Same.sub (h : e.Same e') (h' : f.Same f') : (e - f).Same (e' - f') :=
  ⟨h.terms.addAll (h'.terms.map _), congrArg₂ (· - ·) h.constant h'.constant⟩

theorem Same.scale (h : e.Same e') (k : α) : (e.scale k).Same (e'.scale k) :=
  ⟨h.terms.map _, congrArg (· * k) h.constant⟩

/-! ### Products -/

theorem Same.nonzeroTerms_perm (h : e.Same e') : e.nonzeroTerms.Perm e'.nonzeroTerms :=
  List.Perm.filter _ h.terms

theorem nodup_nonzeroTerms (e : LinExpr α) : (e.nonzeroTerms.map Prod.fst).Nodup :=
  e.terms.nodup.sublist (List.filter_sublist.map _)

theorem Same.termsTimes_perm (h : e.Same e') (k : α) : (e.termsTimes k).Perm (e'.termsTimes k) := by
  unfold termsTimes
  split
  · exact h.nonzeroTerms_perm.map _
  · exact .refl _

theorem nodup_termsTimes (e : LinExpr α) (k : α) : ((e.termsTimes k).map Prod.fst).Nodup := by
  unfold termsTimes
  split
  · rw [List.map_map]
    exact nodup_nonzeroTerms e
  · exact List.nodup_nil

/-- Each term of one expression with each of another. -/
def termPairs (e f : LinExpr α) : List ((Variable × α) × (Variable × α)) :=
  e.nonzeroTerms ×ˢ f.nonzeroTerms

/-- The term that two terms multiply to. -/
def termProduct (q : (Variable × α) × (Variable × α)) : VarPair × α :=
  (.of q.1.1 q.2.1, q.1.2 * q.2.2)

theorem quadratic_product (e f : LinExpr α) : (e.product f).quadratic
    = TermMap.empty.addList ((termPairs e f).map termProduct) := by
  have hpairs : (termPairs e f).map termProduct = e.nonzeroTerms.flatMap fun s =>
      f.nonzeroTerms.map fun t => (.of s.1 t.1, s.2 * t.2) := by
    show (e.nonzeroTerms.flatMap fun s => f.nonzeroTerms.map (Prod.mk s)).map termProduct = _
    rw [List.map_flatMap]
    simp only [List.map_map]
    rfl
  rw [hpairs]
  rfl

/-- A product of variables has two names at most. -/
theorem of_eq_cases {v w : Variable} {p : VarPair} (h : VarPair.of v w = p) :
    (v, w) = (p.first, p.second) ∨ (v, w) = (p.second, p.first) := by
  subst h
  unfold VarPair.of
  split
  · exact .inl rfl
  · exact .inr rfl

/-- So a product of variables receives two summands at most. -/
theorem length_summands_product_le (e f : LinExpr α) (p : VarPair) :
    (TermMap.summands p ((termPairs e f).map termProduct)).length ≤ 2 := by
  have hnodup : ((termPairs e f).map fun q => (q.1.1, q.2.1)).Nodup := by
    have hproduct : (termPairs e f).map (fun q => (q.1.1, q.2.1))
        = (e.nonzeroTerms.map Prod.fst) ×ˢ (f.nonzeroTerms.map Prod.fst) := by
      simp only [termPairs, SProd.sprod, List.product, List.map_flatMap, List.flatMap_map, List.map_map,
        Function.comp_def]
    rw [hproduct]
    exact (nodup_nonzeroTerms e).product (nodup_nonzeroTerms f)
  have hsubset : ((termPairs e f).filter fun q => (termProduct q).1 = p).map
      (fun q => (q.1.1, q.2.1)) ⊆ [(p.first, p.second), (p.second, p.first)] := by
    intro k hk
    obtain ⟨q, hq, rfl⟩ := List.mem_map.mp hk
    have hname : VarPair.of q.1.1 q.2.1 = p := of_decide_eq_true (List.mem_filter.mp hq).2
    simpa using of_eq_cases hname
  have hle := (List.subperm_of_subset (hnodup.sublist (List.filter_sublist.map _)) hsubset).length_le
  rw [TermMap.summands, List.filter_map, List.length_map, List.length_map]
  rwa [List.length_map] at hle

variable [CommutativeSums α]

theorem Same.product (h : e.Same e') (h' : f.Same f') : (e.product f).Same (e'.product f') := by
  refine ⟨?_, ?_, congrArg₂ (· * ·) h.constant h'.constant⟩
  · rw [quadratic_product, quadratic_product, TermMap.same_iff]
    intro p
    have hpairs : (termPairs e f).Perm (termPairs e' f') :=
      h.nonzeroTerms_perm.product h'.nonzeroTerms_perm
    rw [TermMap.get?_addList, TermMap.get?_addList]
    exact TermMap.foldl_receive_eq_of_perm (((hpairs.map _).filter _).map _)
      (length_summands_product_le e f p)
  · show ((TermMap.empty.addList (e.termsTimes f.constant)).addList (f.termsTimes e.constant)).Same
      ((TermMap.empty.addList (e'.termsTimes f'.constant)).addList (f'.termsTimes e'.constant))
    rw [h.constant, h'.constant]
    exact ((TermMap.Same.refl _).addList (h.termsTimes_perm _) (nodup_termsTimes e _)).addList
      (h'.termsTimes_perm _) (nodup_termsTimes f _)

end LinExpr

namespace QuadExpr

variable {e e' f f' : QuadExpr α}

omit [Scalar α] in
theorem Same.ofLinExpr {g g' : LinExpr α} (h : g.Same g') : (ofLinExpr g).Same (ofLinExpr g') :=
  ⟨.refl _, h⟩

theorem Same.addProduct (h : e.Same e') (v w : Variable) (c : α) :
    (e.addProduct v w c).Same (e'.addProduct v w c) := ⟨h.quadratic.add _ c, h.linear⟩

theorem Same.add (h : e.Same e') (h' : f.Same f') : (e + f).Same (e' + f') :=
  ⟨h.quadratic.addAll h'.quadratic, h.linear.add h'.linear⟩

theorem Same.sub (h : e.Same e') (h' : f.Same f') : (e - f).Same (e' - f') :=
  ⟨h.quadratic.addAll (h'.quadratic.map _), h.linear.sub h'.linear⟩

theorem Same.scale (h : e.Same e') (k : α) : (e.scale k).Same (e'.scale k) :=
  ⟨h.quadratic.map _, h.linear.scale k⟩

end QuadExpr

/-! ### Operators -/

namespace Operand

variable {a a' b b' : Operand α}

theorem Same.toQuadExpr (h : a.Same a') : a.toQuadExpr.Same a'.toQuadExpr := by
  cases h with
  | number c => exact .ofLinExpr (.refl _)
  | var v => exact .ofLinExpr (.refl _)
  | affine h => exact .ofLinExpr h
  | quadratic h => exact h

theorem Same.scale? (h : a.Same a') (k : α) : Option.Rel Same (a.scale? k) (a'.scale? k) := by
  cases h with
  | number c => exact .none
  | var v => exact .some (.refl _)
  | affine h => exact .some (.affine (h.scale k))
  | quadratic h => exact .some (.quadratic (h.scale k))

theorem Same.combine? (h : a.Same a') (h' : b.Same b') {lin : LinExpr α → LinExpr α → LinExpr α}
    {quad : QuadExpr α → QuadExpr α → QuadExpr α}
    (hlin : ∀ {e e' f f'}, e.Same e' → f.Same f' → (lin e f).Same (lin e' f'))
    (hquad : ∀ {e e' f f'}, e.Same e' → f.Same f' → (quad e f).Same (quad e' f')) :
    Option.Rel Same (combine? lin quad a b) (combine? lin quad a' b') := by
  have hquadratic := hquad h.toQuadExpr h'.toQuadExpr
  cases h with
  | number c =>
    cases h' with
    | number d => exact .none
    | var w => exact .some (.affine (hlin (.refl _) (.refl _)))
    | affine h' => exact .some (.affine (hlin (.refl _) h'))
    | quadratic h' => exact .some (.quadratic hquadratic)
  | var v =>
    cases h' with
    | number d => exact .some (.affine (hlin (.refl _) (.refl _)))
    | var w => exact .some (.affine (hlin (.refl _) (.refl _)))
    | affine h' => exact .some (.affine (hlin (.refl _) h'))
    | quadratic h' => exact .some (.quadratic hquadratic)
  | affine h =>
    cases h' with
    | number d => exact .some (.affine (hlin h (.refl _)))
    | var w => exact .some (.affine (hlin h (.refl _)))
    | affine h' => exact .some (.affine (hlin h h'))
    | quadratic h' => exact .some (.quadratic hquadratic)
  | quadratic h => cases h' <;> exact .some (.quadratic hquadratic)

theorem Same.mul? [CommutativeSums α] (h : a.Same a') (h' : b.Same b') :
    Option.Rel Same (a.mul? b) (a'.mul? b') := by
  cases h' with
  | number k =>
    have hscale := h.scale? k
    cases h <;> exact hscale
  | var w =>
    cases h with
    | number k => exact (Same.var w).scale? k
    | var v => exact .some (.quadratic (LinExpr.Same.product (.refl _) (.refl _)))
    | affine h => exact .some (.quadratic (h.product (.refl _)))
    | quadratic h => exact .none
  | affine h' =>
    cases h with
    | number k => exact (Same.affine h').scale? k
    | var v => exact .some (.quadratic (LinExpr.Same.product (.refl _) h'))
    | affine h => exact .some (.quadratic (h.product h'))
    | quadratic h => exact .none
  | quadratic h' =>
    cases h with
    | number k => exact (Same.quadratic h').scale? k
    | var | affine | quadratic => exact .none

theorem Same.increase? (h : a.Same a') (h' : b.Same b') :
    Option.Rel Same (a.increase? b) (a'.increase? b') := by
  cases h with
  | number | var => exact .none
  | affine h =>
    cases h' with
    | number c => exact .some (.affine (h.addConstant c))
    | var v => exact .some (.affine (h.addTerm v 1))
    | affine h' => exact .some (.affine (h.add h'))
    | quadratic h' => exact .none
  | quadratic h =>
    cases h' with
    | number c => exact .some (.quadratic ⟨h.quadratic, h.linear.addConstant c⟩)
    | var v => exact .some (.quadratic ⟨h.quadratic, h.linear.addTerm v 1⟩)
    | affine h' => exact .some (.quadratic ⟨h.quadratic, h.linear.add h'⟩)
    | quadratic h' => exact .some (.quadratic (h.add h'))

theorem Same.decrease? (h : a.Same a') (h' : b.Same b') :
    Option.Rel Same (a.decrease? b) (a'.decrease? b') := by
  cases h with
  | number | var => exact .none
  | affine h =>
    cases h' with
    | number c => exact .some (.affine (h.subtractConstant c))
    | var v => exact .some (.affine (h.addTerm v (-1)))
    | affine h' => exact .some (.affine (h.sub h'))
    | quadratic h' => exact .none
  | quadratic h =>
    cases h' with
    | number c => exact .some (.quadratic ⟨h.quadratic, h.linear.subtractConstant c⟩)
    | var v => exact .some (.quadratic ⟨h.quadratic, h.linear.addTerm v (-1)⟩)
    | affine h' => exact .some (.quadratic ⟨h.quadratic, h.linear.sub h'⟩)
    | quadratic h' => exact .some (.quadratic (h.sub h'))

theorem Same.rescale? (h : a.Same a') (h' : b.Same b') :
    Option.Rel Same (a.rescale? b) (a'.rescale? b') := by
  cases h with
  | number | var => exact .none
  | affine h =>
    cases h' with
    | number k => exact .some (.affine (h.scale k))
    | var | affine | quadratic => exact .none
  | quadratic h =>
    cases h' with
    | number k => exact .some (.quadratic (h.scale k))
    | var | affine | quadratic => exact .none

end Operand

open Operand

theorem UnaryOp.result?_same (op : UnaryOp α) {a a' : Operand α} (h : a.Same a') :
    Option.Rel Operand.Same (op.result? a) (op.result? a') := by
  cases op with
  | neg => exact h.scale? (-1)
  | toAffine =>
    cases h with
    | number c => exact .some (.refl _)
    | var v => exact .some (.refl _)
    | affine h => exact .some (.affine h)
    | quadratic h => exact .none
  | toQuadratic => exact .some (.quadratic h.toQuadExpr)
  | addTerm v c =>
    cases h with
    | affine h => exact .some (.affine (h.addTerm v c))
    | number | var | quadratic => exact .none
  | addProduct v w c =>
    cases h with
    | quadratic h => exact .some (.quadratic (h.addProduct v w c))
    | number | var | affine => exact .none

/-- What an operator makes of operands is the same in whatever order their terms are. -/
theorem BinaryOp.result?_same [CommutativeSums α] (op : BinaryOp) {a a' b b' : Operand α}
    (h : a.Same a') (h' : b.Same b') :
    Option.Rel Operand.Same (op.result? a b) (op.result? a' b') := by
  cases op with
  | add => exact h.combine? h' .add .add
  | sub => exact h.combine? h' .sub .sub
  | mul => exact h.mul? h'
  | increase => exact h.increase? h'
  | decrease => exact h.decrease? h'
  | rescale => exact h.rescale? h'

/-! ### Formulas -/

/-- The operands that a formula builds if its operators may meet the terms of their operands in
any order. -/
inductive Formula.Builds : Formula α → Operand α → Prop where
  | number (c : α) : Builds (.number c) (.number c)
  | var (v : Variable) : Builds (.var v) (.var v)
  | unary {op : UnaryOp α} {f : Formula α} {a o : Operand α} (hf : Builds f a)
      (h : op.result? a = some o) : Builds (.unary op f) o
  | binary {op : BinaryOp} {f g : Formula α} {a b o : Operand α} (hf : Builds f a)
      (hg : Builds g b) (h : op.result? a b = some o) : Builds (.binary op f g) o
  | reordered {f : Formula α} {o p : Operand α} (h : Builds f o) (hsame : o.Same p) : Builds f p

theorem Formula.builds_of_build? {f : Formula α} {o : Operand α} (h : f.build? = some o) :
    f.Builds o := by
  induction f generalizing o with
  | number c =>
    cases h
    exact .number c
  | var v =>
    cases h
    exact .var v
  | unary op f ih =>
    obtain ⟨a, ha, hop⟩ := Option.bind_eq_some_iff.mp h
    exact .unary (ih ha) hop
  | binary op f g ihf ihg =>
    obtain ⟨a, ha, hrest⟩ := Option.bind_eq_some_iff.mp h
    obtain ⟨b, hb, hop⟩ := Option.bind_eq_some_iff.mp hrest
    exact .binary (ihf ha) (ihg hb) hop

/-- A related result is there. -/
theorem exists_of_rel {β : Type} {R : β → β → Prop} {x y : Option β} {b : β}
    (h : Option.Rel R x y) (hy : y = some b) : ∃ a, x = some a ∧ R a b := by
  subst hy
  cases h with
  | some h => exact ⟨_, rfl, h⟩

/-- In whatever order terms are met, a formula builds the same operand. -/
theorem Formula.builds_iff [CommutativeSums α] {f : Formula α} {o : Operand α} :
    f.Builds o ↔ ∃ p, f.build? = some p ∧ p.Same o := by
  constructor
  · intro h
    induction h with
    | number c => exact ⟨_, rfl, .refl _⟩
    | var v => exact ⟨_, rfl, .refl _⟩
    | @unary op f a o hf h ih =>
      obtain ⟨a', ha', hsame⟩ := ih
      obtain ⟨o', ho', hresult⟩ := exists_of_rel (op.result?_same hsame) h
      exact ⟨o', Option.bind_eq_some_iff.mpr ⟨a', ha', ho'⟩, hresult⟩
    | @binary op f g a b o hf hg h ihf ihg =>
      obtain ⟨a', ha', hsame⟩ := ihf
      obtain ⟨b', hb', hsame'⟩ := ihg
      obtain ⟨o', ho', hresult⟩ := exists_of_rel (op.result?_same hsame hsame') h
      exact ⟨o', Option.bind_eq_some_iff.mpr ⟨a', ha', Option.bind_eq_some_iff.mpr ⟨b', hb', ho'⟩⟩,
        hresult⟩
    | reordered h hsame ih =>
      obtain ⟨p, hp, hsame'⟩ := ih
      exact ⟨p, hp, hsame'.trans hsame⟩
  · rintro ⟨p, hp, hsame⟩
    exact .reordered (builds_of_build? hp) hsame

/-! ### Text -/

section Text

variable [ScalarText α]

omit [Scalar α] [ScalarText α] in
theorem LinExpr.Same.namedTerms_eq {e f : LinExpr α} (h : e.Same f) :
    e.namedTerms = f.namedTerms := by
  have hsorted : e.terms.sorted Variable.le = f.terms.sorted Variable.le := by
    refine h.terms.sorted_eq (fun u v w huv hvw => ?_) (fun u v => ?_) fun ⟨i⟩ ⟨j⟩ hij hji => ?_
    · simp only [Variable.le, decide_eq_true_eq] at huv hvw ⊢
      omega
    · simp only [Variable.le, Bool.or_eq_true, decide_eq_true_eq]
      omega
    · simp only [Variable.le, decide_eq_true_eq] at hij hji
      rw [Nat.le_antisymm hij hji]
  rw [namedTerms, namedTerms, hsorted]

theorem LinExpr.Same.text_eq {e f : LinExpr α} (h : e.Same f) : e.text = f.text := by
  rw [text, text, h.namedTerms_eq, h.constant]

theorem VarPair.le_iff {p q : VarPair} : p.le q = true ↔
    p.first.index < q.first.index ∨ p.first.index = q.first.index ∧ p.second.index ≤ q.second.index := by
  obtain ⟨⟨i⟩, ⟨j⟩, hp⟩ := p
  obtain ⟨⟨k⟩, ⟨l⟩, hq⟩ := q
  simp [le]

theorem QuadExpr.Same.text_eq {e f : QuadExpr α} (h : e.Same f) : e.text = f.text := by
  have hsorted : e.quadratic.sorted VarPair.le = f.quadratic.sorted VarPair.le := by
    refine h.quadratic.sorted_eq (fun p q r hpq hqr => ?_) (fun p q => ?_) fun p q hpq hqp => ?_
    · rw [VarPair.le_iff] at hpq hqr ⊢
      omega
    · rw [Bool.or_eq_true, VarPair.le_iff, VarPair.le_iff]
      omega
    · rw [VarPair.le_iff] at hpq hqp
      obtain ⟨⟨i⟩, ⟨j⟩, hp⟩ := p
      obtain ⟨⟨k⟩, ⟨l⟩, hq⟩ := q
      obtain ⟨rfl, rfl⟩ : i = k ∧ j = l := by
        simp only at hpq hqp
        omega
      rfl
  rw [text, text, hsorted, h.linear.namedTerms_eq, h.linear.constant]

/-- The text of an operand. -/
def Operand.text : Operand α → String
  | number c => ScalarText.text .plain c
  | var v => v.text
  | affine e => e.text
  | quadratic e => e.text

theorem Operand.Same.text_eq {o p : Operand α} (h : o.Same p) : o.text = p.text := by
  cases h with
  | number c => rfl
  | var v => rfl
  | affine h => exact h.text_eq
  | quadratic h => exact h.text_eq

end Text
end Expressions

end QuadOpt
