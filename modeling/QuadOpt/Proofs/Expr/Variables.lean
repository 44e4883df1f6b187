/-
# The variables of an expression

Terms are added under their keys and none is ever removed, so the variables of a combination
are those of what was combined. A product has no others, but may lack some, as terms with the
coefficient zero leave no trace in it. Hence a combination of expressions in the first `n`
variables is one in them too.

Key theorems: `TermMap.mem_keys_addList`, `LinExpr.fits_add`, `QuadExpr.fits_add`,
`LinExpr.fits_product`.
-/
import QuadOpt.Expr.Quadratic

namespace QuadOpt

/-! ### Keys -/

section Keys

variable {κ α : Type} [DecidableEq κ]

theorem TermMap.mem_keys_add [Zero α] [Add α] (t : TermMap κ α) (k : κ) (c : α) {j : κ} :
    j ∈ (t.add k c).keys ↔ j ∈ t.keys ∨ j = k := by
  rw [keys_add]
  split
  · rename_i hk
    exact ⟨.inl, fun h => h.elim id fun h => h ▸ hk⟩
  · rw [List.mem_append, List.mem_singleton]

theorem TermMap.mem_keys_addList [Zero α] [Add α] {j : κ} :
    ∀ (es : List (κ × α)) (t : TermMap κ α),
      j ∈ (t.addList es).keys ↔ j ∈ t.keys ∨ j ∈ es.map Prod.fst
  | [], t => by simp [addList]
  | e :: es, t => by
    rw [addList, List.foldl_cons, ← addList, mem_keys_addList es, mem_keys_add, List.map_cons,
      List.mem_cons, or_assoc]

theorem TermMap.mem_keys_addAll [Zero α] [Add α] (t s : TermMap κ α) {j : κ} :
    j ∈ (t.addAll s).keys ↔ j ∈ t.keys ∨ j ∈ s.keys := mem_keys_addList s.toList t

omit [DecidableEq κ] in
theorem TermMap.keys_map (t : TermMap κ α) (f : α → α) : (t.map f).keys = t.keys := by
  rw [keys, map, List.map_map]
  rfl

end Keys

/-! ### Expressions -/

variable {α : Type} [Scalar α] {n : Nat}

namespace LinExpr

variable {e f : LinExpr α}

omit [Scalar α] in
theorem fits_iff : e.fits n = true ↔ ∀ v ∈ e.terms.keys, v.index < n := by
  simp [fits]

omit [Scalar α] in
theorem fits_ofConstant (c : α) : (ofConstant c).fits n = true := rfl

theorem fits_addTerm {v : Variable} (he : e.fits n = true) (hv : v.index < n) (c : α) :
    (e.addTerm v c).fits n = true := by
  rw [fits_iff] at he ⊢
  intro w hw
  rcases (TermMap.mem_keys_add e.terms v c).mp hw with hw | rfl
  · exact he w hw
  · exact hv

theorem fits_ofVariable {v : Variable} (hv : v.index < n) :
    (ofVariable v : LinExpr α).fits n = true :=
  fits_addTerm (e := empty) (fits_ofConstant 0) hv 1

theorem fits_add (he : e.fits n = true) (hf : f.fits n = true) : (e + f).fits n = true := by
  rw [fits_iff] at he hf ⊢
  intro v hv
  exact ((TermMap.mem_keys_addAll e.terms f.terms).mp hv).elim (he v) (hf v)

theorem fits_sub (he : e.fits n = true) (hf : f.fits n = true) : (e - f).fits n = true := by
  rw [fits_iff] at he hf ⊢
  intro v hv
  have hkeys := (TermMap.mem_keys_addAll e.terms (f.terms.map fun c => -c)).mp hv
  rw [TermMap.keys_map] at hkeys
  exact hkeys.elim (he v) (hf v)

theorem fits_scale (he : e.fits n = true) (k : α) : (e.scale k).fits n = true := by
  rw [fits_iff] at he ⊢
  intro v hv
  rw [scale, TermMap.keys_map] at hv
  exact he v hv

theorem mem_keys_of_mem_nonzeroTerms {t : Variable × α} (ht : t ∈ e.nonzeroTerms) :
    t.1 ∈ e.terms.keys := List.mem_map_of_mem (List.mem_filter.mp ht).1

theorem mem_keys_of_mem_termsTimes {k : α} {t : Variable × α} (ht : t ∈ e.termsTimes k) :
    t.1 ∈ e.terms.keys := by
  unfold termsTimes at ht
  split at ht
  · obtain ⟨s, hs, rfl⟩ := List.mem_map.mp ht
    exact mem_keys_of_mem_nonzeroTerms (t := s) hs
  · cases ht

end LinExpr

namespace QuadExpr

variable {e f : QuadExpr α}

omit [Scalar α] in
theorem fits_iff : e.fits n = true ↔
    (∀ p ∈ e.quadratic.keys, p.second.index < n) ∧ e.linear.fits n = true := by
  simp [fits]

omit [Scalar α] in
theorem fits_mapLinear {g : LinExpr α → LinExpr α}
    (hg : e.linear.fits n = true → (g e.linear).fits n = true) (he : e.fits n = true) :
    (e.mapLinear g).fits n = true := by
  rw [fits_iff] at he ⊢
  exact ⟨he.1, hg he.2⟩

theorem second_of_lt {v w : Variable} (hv : v.index < n) (hw : w.index < n) :
    (VarPair.of v w).second.index < n := by
  unfold VarPair.of
  split
  · exact hw
  · exact hv

theorem fits_addProduct {v w : Variable} (he : e.fits n = true) (hv : v.index < n)
    (hw : w.index < n) (c : α) : (e.addProduct v w c).fits n = true := by
  rw [fits_iff] at he ⊢
  refine ⟨fun p hp => ?_, he.2⟩
  rcases (TermMap.mem_keys_add e.quadratic (.of v w) c).mp hp with hp | rfl
  · exact he.1 p hp
  · exact second_of_lt hv hw

theorem fits_add (he : e.fits n = true) (hf : f.fits n = true) : (e + f).fits n = true := by
  rw [fits_iff] at he hf ⊢
  refine ⟨fun p hp => ?_, LinExpr.fits_add he.2 hf.2⟩
  exact ((TermMap.mem_keys_addAll e.quadratic f.quadratic).mp hp).elim (he.1 p) (hf.1 p)

theorem fits_sub (he : e.fits n = true) (hf : f.fits n = true) : (e - f).fits n = true := by
  rw [fits_iff] at he hf ⊢
  refine ⟨fun p hp => ?_, LinExpr.fits_sub he.2 hf.2⟩
  have hkeys := (TermMap.mem_keys_addAll e.quadratic (f.quadratic.map fun c => -c)).mp hp
  rw [TermMap.keys_map] at hkeys
  exact hkeys.elim (he.1 p) (hf.1 p)

theorem fits_scale (he : e.fits n = true) (k : α) : (e.scale k).fits n = true := by
  rw [fits_iff] at he ⊢
  refine ⟨fun p hp => ?_, LinExpr.fits_scale he.2 k⟩
  rw [scale, TermMap.keys_map] at hp
  exact he.1 p hp

end QuadExpr

theorem LinExpr.fits_product {e f : LinExpr α} (he : e.fits n = true) (hf : f.fits n = true) :
    (e.product f).fits n = true := by
  rw [fits_iff] at he hf
  rw [QuadExpr.fits_iff, fits_iff]
  constructor
  · intro p hp
    rcases (TermMap.mem_keys_addList _ _).mp hp with hp | hp
    · cases hp
    · obtain ⟨t, ht, rfl⟩ := List.mem_map.mp hp
      obtain ⟨s, hs, ht⟩ := List.mem_flatMap.mp ht
      obtain ⟨u, hu, rfl⟩ := List.mem_map.mp ht
      exact QuadExpr.second_of_lt (he _ (mem_keys_of_mem_nonzeroTerms hs))
        (hf _ (mem_keys_of_mem_nonzeroTerms hu))
  · intro v hv
    rcases (TermMap.mem_keys_addList _ _).mp hv with hv | hv
    · rcases (TermMap.mem_keys_addList _ _).mp hv with hv | hv
      · cases hv
      · obtain ⟨t, ht, rfl⟩ := List.mem_map.mp hv
        exact he _ (mem_keys_of_mem_termsTimes ht)
    · obtain ⟨t, ht, rfl⟩ := List.mem_map.mp hv
      exact hf _ (mem_keys_of_mem_termsTimes ht)

end QuadOpt
