/-
# The matrix in place is that of its latest values

However often new values have been written into the assembled matrix, it is the upper
triangle of the matrix of optimality conditions for the latest of them: each place is
written as its entry asks for, and nothing is left of what was there before.

Key definitions: `KktValues.Fits`, `storedKkt`.
Key theorems: `KktMap.Records.isDiagonal_iff`, `KktMap.Records.fill?_eq`,
`fillAll?_last`, `assembleStored?_fillAll?`.
-/
import QuadOpt.Proofs.Admm.KktPlaces
import QuadOpt.Proofs.Sparse.Shape
import QuadOpt.Sparse.Pattern

namespace QuadOpt

/-! ### Filling in place -/

/-- The places of the entries come with their values. -/
theorem mem_zip_values {α : Type} [Zero α] {places : Array Nat} {values : Array α}
    (hsize : places.size = values.size) {k p : Nat} (hk : places[k]? = some p) :
    (p, values.getD k 0) ∈ places.toList.zip values.toList := by
  have hlt : k < values.size := hsize ▸ (Array.getElem?_eq_some_iff.mp hk).1
  apply List.mem_of_getElem? (i := k)
  rw [List.getElem?_zip_eq_some, Array.getElem?_toList, Array.getElem?_toList]
  exact ⟨hk, by simp [hlt]⟩

namespace KktMap.Records

variable {α : Type} {n m : Nat} {M : KktMap} {E : List KktEntry} (h : M.Records n E)

include h

theorem mem_hessian {p : Nat} : p ∈ M.hessian.toList ↔
    ∃ k, E[p]? = some (KktEntry.hessian k) ∨ E[p]? = some (KktEntry.hessianDiagonal k) := by
  simp only [List.mem_iff_getElem?, Array.getElem?_toList, h.hessian]

theorem mem_constraint {p : Nat} : p ∈ M.constraint.toList ↔
    ∃ k, E[p]? = some (KktEntry.constraint k) := by
  simp only [List.mem_iff_getElem?, Array.getElem?_toList, h.constraint]

theorem mem_dual {p : Nat} : p ∈ M.diagonal.toList.drop n ↔
    ∃ i, E[p]? = some (KktEntry.dual i) := by
  simp only [List.mem_iff_getElem?, List.getElem?_drop, Array.getElem?_toList, h.dual]

/-- The search finds the places of the diagonal and no others. -/
theorem isDiagonal_iff {p : Nat} : M.isDiagonal p = true ↔
    p ∈ M.diagonal.toList.take n ∨ p ∈ M.diagonal.toList.drop n := by
  rw [← List.mem_append, List.take_append_drop, KktMap.isDiagonal, beq_iff_eq,
    ← Array.length_toList, Csc.getElem?_halving_iff h.sorted]

/-- An entry tells which of the passes write to its place. -/
theorem mem_places_iff {p : Nat} {e : KktEntry} (he : E[p]? = some e) :
    (p ∈ M.diagonal.toList.take n ↔ e = .shift ∨ ∃ k, e = .hessianDiagonal k) ∧
    (p ∈ M.hessian.toList ↔ ∃ k, e = .hessian k ∨ e = .hessianDiagonal k) ∧
    (p ∈ M.constraint.toList ↔ ∃ k, e = .constraint k) ∧
    (p ∈ M.diagonal.toList.drop n ↔ ∃ i, e = .dual i) := by
  rw [h.shifted, h.mem_hessian, h.mem_constraint, h.mem_dual, he]
  simp

theorem nodup_hessian : M.hessian.toList.Nodup := by
  rw [List.nodup_iff_getElem?_ne_getElem?]
  intro i j hij hj heq
  have hi := List.getElem?_eq_getElem (Nat.lt_trans hij hj)
  have hsame := heq.symm.trans hi
  rw [Array.getElem?_toList, h.hessian] at hi hsame
  rcases hi with hi | hi <;> rcases hsame with hsame | hsame <;> rw [hi] at hsame <;>
    simp at hsame <;> omega

theorem nodup_constraint : M.constraint.toList.Nodup := by
  rw [List.nodup_iff_getElem?_ne_getElem?]
  intro i j hij hj heq
  have hi := List.getElem?_eq_getElem (Nat.lt_trans hij hj)
  have hsame := heq.symm.trans hi
  rw [Array.getElem?_toList, h.constraint] at hi hsame
  rw [hi] at hsame
  simp at hsame
  omega

variable {a : Array α} (ha : a.size = E.length)

include ha

/-- The first pass sets the diagonal that is shifted. -/
theorem overwrite?_shift (δ₁ : α) :
    ∃ v, overwrite? a ((M.diagonal.toList.take n).map fun place => (place, δ₁)) = some v ∧
      v.size = a.size ∧
      (∀ p ∈ M.diagonal.toList.take n, v[p]? = some δ₁) ∧
      ∀ p ∉ M.diagonal.toList.take n, v[p]? = a[p]? := by
  have hkeys : ((M.diagonal.toList.take n).map fun place => (place, δ₁)).map Prod.fst
      = M.diagonal.toList.take n := by
    rw [List.map_map]
    exact List.map_id _
  obtain ⟨v, hv, hsize, hwritten, hkept⟩ := overwrite?_eq_some (a := a)
    ((M.diagonal.toList.take n).map fun place => (place, δ₁)) (fun e he => by
      obtain ⟨p, hp, rfl⟩ := List.mem_map.mp he
      rw [ha]
      rcases h.shifted.mp hp with he | ⟨k, he⟩ <;> exact (List.getElem?_eq_some_iff.mp he).1) (by
      rw [hkeys]
      exact (h.sorted.sublist (List.take_sublist n _)).imp Nat.ne_of_lt)
  rw [hkeys] at hkept
  exact ⟨v, hv, hsize, fun p hp => hwritten p δ₁ (List.mem_map_of_mem hp), hkept⟩

variable [Scalar α]

/-- The second pass adds the entries of `P` to the shifts, and sets them elsewhere. -/
theorem alterAll?_hessian {P : Csc α} (hP : M.hessian.size = P.nzval.size) :
    ∃ v, alterAll? a ((M.hessian.toList.zip P.nzval.toList).map fun e =>
        (e.1, fun t => if M.isDiagonal e.1 then t + e.2 else e.2)) = some v ∧
      v.size = a.size ∧
      (∀ k p, M.hessian[k]? = some p → v[p]? = a[p]?.map fun t =>
        if M.isDiagonal p then t + P.nzval.getD k 0 else P.nzval.getD k 0) ∧
      ∀ p ∉ M.hessian.toList, v[p]? = a[p]? := by
  have hkeys : ((M.hessian.toList.zip P.nzval.toList).map fun e => (e.1, fun t =>
      if M.isDiagonal e.1 then t + e.2 else e.2)).map Prod.fst = M.hessian.toList := by
    rw [List.map_map]
    exact List.map_fst_zip (by simp [hP])
  obtain ⟨v, hv, hsize, hwritten, hkept⟩ := alterAll?_of_nodup (a := a)
    ((M.hessian.toList.zip P.nzval.toList).map fun e =>
      (e.1, fun t => if M.isDiagonal e.1 then t + e.2 else e.2)) (fun c hc => by
      obtain ⟨e, he, rfl⟩ := List.mem_map.mp hc
      obtain ⟨k, he⟩ := h.mem_hessian.mp (List.of_mem_zip he).1
      rw [ha]
      rcases he with he | he <;> exact (List.getElem?_eq_some_iff.mp he).1) (by
      rw [hkeys]
      exact h.nodup_hessian)
  rw [hkeys] at hkept
  exact ⟨v, hv, hsize, fun k p hk => hwritten p _ (List.mem_map_of_mem (mem_zip_values hP hk)),
    hkept⟩

/-- The third pass sets the entries of `A`. -/
theorem overwrite?_constraint {A : Csc α} (hA : M.constraint.size = A.nzval.size) :
    ∃ v, overwrite? a (M.constraint.toList.zip A.nzval.toList) = some v ∧ v.size = a.size ∧
      (∀ k p, M.constraint[k]? = some p → v[p]? = some (A.nzval.getD k 0)) ∧
      ∀ p ∉ M.constraint.toList, v[p]? = a[p]? := by
  have hkeys : (M.constraint.toList.zip A.nzval.toList).map Prod.fst = M.constraint.toList :=
    List.map_fst_zip (by simp [hA])
  obtain ⟨v, hv, hsize, hwritten, hkept⟩ := overwrite?_eq_some (a := a)
    (M.constraint.toList.zip A.nzval.toList) (fun e he => by
      obtain ⟨k, he⟩ := h.mem_constraint.mp (List.of_mem_zip he).1
      rw [ha]
      exact (List.getElem?_eq_some_iff.mp he).1) (by
      rw [hkeys]
      exact h.nodup_constraint)
  rw [hkeys] at hkept
  exact ⟨v, hv, hsize, fun k p hk => hwritten p _ (mem_zip_values hA hk), hkept⟩

/-- The last pass sets the rest of the diagonal. -/
theorem overwrite?_dual (δ₂ : Vec α m) (hdiagonal : M.diagonal.size = n + m) :
    ∃ v, overwrite? a ((M.diagonal.toList.drop n).zip δ₂.negate.toList) = some v ∧
      v.size = a.size ∧
      (∀ i p, M.diagonal[n + i]? = some p → v[p]? = some (-δ₂.coord i)) ∧
      ∀ p ∉ M.diagonal.toList.drop n, v[p]? = a[p]? := by
  have hkeys : ((M.diagonal.toList.drop n).zip δ₂.negate.toList).map Prod.fst
      = M.diagonal.toList.drop n := List.map_fst_zip (by simp [hdiagonal])
  obtain ⟨v, hv, hsize, hwritten, hkept⟩ := overwrite?_eq_some (a := a)
    ((M.diagonal.toList.drop n).zip δ₂.negate.toList) (fun e he => by
      obtain ⟨i, he⟩ := h.mem_dual.mp (List.of_mem_zip he).1
      rw [ha]
      exact (List.getElem?_eq_some_iff.mp he).1) (by
      rw [hkeys]
      exact (h.sorted.sublist (List.drop_sublist n _)).imp Nat.ne_of_lt)
  rw [hkeys] at hkept
  refine ⟨v, hv, hsize, fun i p hi => hwritten p _ ?_, hkept⟩
  have hlt : i < m := by
    have := (Array.getElem?_eq_some_iff.mp hi).1
    omega
  apply List.mem_of_getElem? (i := i)
  rw [List.getElem?_zip_eq_some, List.getElem?_drop, Array.getElem?_toList]
  refine ⟨hi, ?_⟩
  have hcoord := Vec.coord_eq_get δ₂ ⟨i, hlt⟩
  rw [List.getElem?_eq_getElem (by simpa using hlt), Option.some_inj, hcoord,
    ← Vec.get_negate, Vec.get_eq_getElem, Vector.getElem_toList]

/-- Whatever was stored before, each entry has its value after the passes. -/
theorem exists_fill? {K P A : Csc α} (hvalues : K.nzval = a) (δ₁ : α) (δ₂ : Vec α m)
    (hcols : P.n = n) (hP : M.hessian.size = P.nzval.size)
    (hA : M.constraint.size = A.nzval.size) (hdiagonal : M.diagonal.size = n + m) :
    ∃ v, M.fill? K P A δ₁ δ₂ = some { K with nzval := v } ∧ v.size = a.size ∧
      ∀ (p : Nat) (e : KktEntry), E[p]? = some e → v[p]? = some (e.value P A δ₁ δ₂) := by
  obtain ⟨v₁, hv₁, hsize₁, hset₁, hkept₁⟩ := h.overwrite?_shift ha δ₁
  obtain ⟨v₂, hv₂, hsize₂, hset₂, hkept₂⟩ := h.alterAll?_hessian (hsize₁.trans ha) hP
  obtain ⟨v₃, hv₃, hsize₃, hset₃, hkept₃⟩ :=
    h.overwrite?_constraint (hsize₂.trans (hsize₁.trans ha)) hA
  obtain ⟨v₄, hv₄, hsize₄, hset₄, hkept₄⟩ :=
    h.overwrite?_dual (hsize₃.trans (hsize₂.trans (hsize₁.trans ha))) δ₂ hdiagonal
  have hfill : M.fill? K P A δ₁ δ₂ = some { K with nzval := v₄ } := by
    unfold fill?
    rw [hvalues, hcols]
    simp only [bind, Option.bind_some, hv₁, hv₂, hv₃, hv₄]
    rfl
  refine ⟨v₄, hfill, hsize₄.trans (hsize₃.trans (hsize₂.trans hsize₁)), fun p e he => ?_⟩
  have hp : p < a.size := ha ▸ (List.getElem?_eq_some_iff.mp he).1
  have hread : a[p]? = some a[p] := Array.getElem?_eq_getElem hp
  obtain ⟨hshift, hhessian, hconstraint, hdual⟩ := h.mem_places_iff he
  cases e with
  | hessian k =>
    have hsearch : M.isDiagonal p = false := by
      rw [← Bool.not_eq_true, h.isDiagonal_iff]
      simp [hshift, hdual]
    rw [hkept₄ p (by simp [hdual]), hkept₃ p (by simp [hconstraint]),
      hset₂ k p (h.hessian.mpr (.inl he)), hkept₁ p (by simp [hshift]), hread, hsearch]
    rfl
  | hessianDiagonal k =>
    have hsearch : M.isDiagonal p = true := h.isDiagonal_iff.mpr (.inl (by simp [hshift]))
    rw [hkept₄ p (by simp [hdual]), hkept₃ p (by simp [hconstraint]),
      hset₂ k p (h.hessian.mpr (.inr he)), hset₁ p (by simp [hshift]), hsearch]
    rfl
  | shift =>
    rw [hkept₄ p (by simp [hdual]), hkept₃ p (by simp [hconstraint]),
      hkept₂ p (by simp [hhessian]), hset₁ p (by simp [hshift])]
    rfl
  | constraint k =>
    rw [hkept₄ p (by simp [hdual]), hset₃ k p (h.constraint.mpr he)]
    rfl
  | dual i =>
    rw [hset₄ i p (h.dual.mpr he)]
    rfl

/-- A fill writes the values of the entries, and nothing else is left. -/
theorem fill?_eq {K P A : Csc α} (hvalues : K.nzval = a) (δ₁ : α) (δ₂ : Vec α m)
    (hcols : P.n = n) (hP : M.hessian.size = P.nzval.size)
    (hA : M.constraint.size = A.nzval.size) (hdiagonal : M.diagonal.size = n + m) :
    M.fill? K P A δ₁ δ₂
      = some { K with nzval := (E.map (KktEntry.value P A δ₁ δ₂)).toArray } := by
  obtain ⟨v, hv, hsize, hwritten⟩ := h.exists_fill? ha hvalues δ₁ δ₂ hcols hP hA hdiagonal
  have hresult : v = (E.map (KktEntry.value P A δ₁ δ₂)).toArray := by
    rw [← Array.toList_inj, List.toList_toArray]
    apply List.ext_getElem?
    intro p
    rw [Array.getElem?_toList, List.getElem?_map]
    cases he : E[p]? with
    | none =>
      have hle := List.getElem?_eq_none_iff.mp he
      exact Array.getElem?_eq_none (by omega)
    | some e => exact hwritten p e he
  rw [hv, hresult]

end KktMap.Records

/-! ### Fills one after the other -/

section Fills

variable {α : Type} [Scalar α] {n m : Nat}

/-- The values are for matrices that store entries where `P` and `A` do. -/
def KktValues.Fits (V : KktValues α n m) (P : SparseMatrix α n n) (A : SparseMatrix α m n) : Prop :=
  V.P.csc.samePattern P.csc = true ∧ V.A.csc.samePattern A.csc = true

/-- The pattern with values in it. -/
def storedKkt (n m : Nat) (P A : Csc α) (v : Array α) : Csc α :=
  ⟨n + m, (assembleKkt n m P A).n, (assembleKkt n m P A).colptr, (assembleKkt n m P A).rowval, v⟩

theorem Csc.eq_of_samePattern {β : Type} {A B : Csc β} (h : A.samePattern B = true) :
    A = { B with nzval := A.nzval } := by
  simp only [samePattern, Bool.and_eq_true, beq_iff_eq] at h
  obtain ⟨⟨⟨hm, hn⟩, hcolptr⟩, hrowval⟩ := h
  rw [← hm, ← hn, ← hcolptr, ← hrowval]

variable {P : SparseMatrix α n n} {A : SparseMatrix α m n} {V : KktValues α n m}

omit [Scalar α] in
theorem KktValues.Fits.pattern_eq (h : V.Fits P A) :
    assembleKkt n m V.P.csc V.A.csc = assembleKkt n m P.csc A.csc := by
  rw [Csc.eq_of_samePattern h.1, Csc.eq_of_samePattern h.2]
  rfl

omit [Scalar α] in
theorem KktValues.Fits.sizes (h : V.Fits P A) : V.P.csc.nzval.size = P.csc.nzval.size ∧
    V.A.csc.nzval.size = A.csc.nzval.size := by
  have hrows : V.P.csc.rowval = P.csc.rowval ∧ V.A.csc.rowval = A.csc.rowval := by
    rw [Csc.eq_of_samePattern h.1, Csc.eq_of_samePattern h.2]
    exact ⟨rfl, rfl⟩
  rw [V.P.valid.nzval_size, V.A.valid.nzval_size, P.valid.nzval_size, A.valid.nzval_size,
    hrows.1, hrows.2]
  exact ⟨rfl, rfl⟩

omit [Scalar α] in
theorem KktValues.Fits.upper (h : V.Fits P A) (hupper : P.csc.isUpper = true) :
    V.P.csc.isUpper = true := by
  rw [Csc.eq_of_samePattern h.1]
  exact hupper

/-- One fill, whatever values the matrix had before. -/
theorem fill?_storedKkt {M : KktMap} (h : M.Records n (kktEntries n m P.csc A.csc))
    (hP : M.hessian.size = P.csc.nzval.size) (hA : M.constraint.size = A.csc.nzval.size)
    (hdiagonal : M.diagonal.size = n + m) (hfits : V.Fits P A) {v : Array α}
    (hv : v.size = (kktEntries n m P.csc A.csc).length) :
    M.fill? (storedKkt n m P.csc A.csc v) V.P.csc V.A.csc V.shift V.dual
      = some (fillKkt (assembleKkt n m P.csc A.csc) V.P.csc V.A.csc V.shift V.dual) := by
  obtain ⟨hsizeP, hsizeA⟩ := hfits.sizes
  rw [h.fill?_eq hv rfl V.shift V.dual V.P.cols_eq (hP.trans hsizeP.symm) (hA.trans hsizeA.symm)
    hdiagonal, ← toList_nzval_assembleKkt]
  simp only [storedKkt, fillKkt, Option.some_inj, Csc.mk.injEq, true_and]
  exact ⟨rfl, by rw [← Array.toList_inj]; simp⟩

/-- The matrix keeps its pattern in every fill. -/
theorem fillAll?_storedKkt {M : KktMap} (h : M.Records n (kktEntries n m P.csc A.csc))
    (hP : M.hessian.size = P.csc.nzval.size) (hA : M.constraint.size = A.csc.nzval.size)
    (hdiagonal : M.diagonal.size = n + m) (fills : List (KktValues α n m))
    (hfits : ∀ V ∈ fills, V.Fits P A) {v : Array α}
    (hv : v.size = (kktEntries n m P.csc A.csc).length) :
    ∃ w : Array α, w.size = (kktEntries n m P.csc A.csc).length ∧
      M.fillAll? (storedKkt n m P.csc A.csc v) fills = some (storedKkt n m P.csc A.csc w) := by
  induction fills generalizing v with
  | nil => exact ⟨v, hv, rfl⟩
  | cons V fills ih =>
    have hfill := fill?_storedKkt h hP hA hdiagonal (hfits V (List.mem_cons_self ..)) hv
    have hsize : ((assembleKkt n m P.csc A.csc).nzval.map
        (KktEntry.value V.P.csc V.A.csc V.shift V.dual)).size
        = (kktEntries n m P.csc A.csc).length := by
      rw [Array.size_map, ← Array.length_toList, toList_nzval_assembleKkt]
    obtain ⟨w, hw, hall⟩ := ih (fun V hV => hfits V (List.mem_cons_of_mem _ hV)) hsize
    refine ⟨w, hw, ?_⟩
    rw [KktMap.fillAll?, List.foldlM_cons, hfill]
    exact hall

/-- After any fills the matrix is what the last of them makes of the pattern. -/
theorem fillAll?_last {M : KktMap} (h : M.Records n (kktEntries n m P.csc A.csc))
    (hP : M.hessian.size = P.csc.nzval.size) (hA : M.constraint.size = A.csc.nzval.size)
    (hdiagonal : M.diagonal.size = n + m) (fills : List (KktValues α n m))
    (hfits : ∀ W ∈ fills ++ [V], W.Fits P A) {v : Array α}
    (hv : v.size = (kktEntries n m P.csc A.csc).length) :
    M.fillAll? (storedKkt n m P.csc A.csc v) (fills ++ [V])
      = some (fillKkt (assembleKkt n m P.csc A.csc) V.P.csc V.A.csc V.shift V.dual) := by
  obtain ⟨w, hw, hbefore⟩ := fillAll?_storedKkt h hP hA hdiagonal fills
    (fun W hW => hfits W (List.mem_append_left _ hW)) hv
  have hlast := fill?_storedKkt h hP hA hdiagonal (hfits V (by simp)) hw
  rw [KktMap.fillAll?] at hbefore ⊢
  rw [List.foldlM_append, hbefore]
  simp only [bind, Option.bind_some, List.foldlM_cons, List.foldlM_nil, hlast]
  rfl

variable (P A)

theorem isSome_assembleStored?_iff (hupper : P.csc.isUpper = true) :
    (assembleStored? P.csc A.csc).isSome = true ↔ n + m < arrayLimit := by
  constructor
  · intro hsome
    by_contra hfull
    rw [assembleStored?, A.cols_eq, A.rows_eq, if_neg hfull] at hsome
    cases hsome
  · intro hroom
    obtain ⟨M, hassemble, -⟩ := assembleStored?_records (P := P) (A := A) hupper hroom
    rw [hassemble]
    rfl

/-- The pattern has the whole diagonal, as the matrix of any values has it. -/
theorem isSome_get?_assembleKkt (hupper : P.csc.isUpper = true) {k : Nat} (hk : k < n + m) :
    (((assembleKkt n m P.csc A.csc).mapValues fun _ => (0 : α)).get? k k).isSome = true := by
  have hkkt := fillKkt_isKkt (A := A) P 0 (.fill m 0) hupper
  rw [Csc.isSome_get?_iff ((valid_assembleKkt P A hupper).mapValues _)]
  refine (Csc.isSome_get?_iff hkkt.valid k k).mp ?_
  by_cases hkn : k < n
  · rw [hkkt.shifted ⟨k, hkn⟩]
    rfl
  · obtain ⟨i, rfl⟩ : ∃ i, k = n + i := ⟨k - n, by omega⟩
    have hi : i < m := by omega
    rw [hkkt.dual ⟨i, hi⟩ ⟨i, hi⟩ (Nat.le_refl _), if_pos rfl]
    rfl

/-- Assembling succeeds iff there is room for the columns, and gives a well formed upper
triangle with its whole diagonal stored. After any fills, with any values for the same
pattern, it is the upper triangle of the matrix of optimality conditions for the values
of the last fill. -/
theorem assembleStored?_fillAll? (hupper : P.csc.isUpper = true) :
    ((assembleStored? P.csc A.csc).isSome = true ↔ n + m < arrayLimit) ∧
    ∀ K M, assembleStored? P.csc A.csc = some (K, M) →
      K.validate = .ok () ∧ K.isUpper = true ∧ (∀ k < n + m, (K.get? k k).isSome = true) ∧
      ∀ (fills : List (KktValues α n m)) (V : KktValues α n m),
        (∀ W ∈ fills ++ [V], W.Fits P A) →
        ∃ F, M.fillAll? K (fills ++ [V]) = some F ∧
          F = fillKkt (assembleKkt n m P.csc A.csc) V.P.csc V.A.csc V.shift V.dual ∧
          F.IsKkt V.P V.A V.shift V.dual := by
  have hsucceeds := isSome_assembleStored?_iff P A hupper
  refine ⟨hsucceeds, fun K M hassemble => ?_⟩
  have hroom : n + m < arrayLimit := hsucceeds.mp (by rw [hassemble]; rfl)
  obtain ⟨M', hassemble', hrecords, hP, hA, hdiagonal⟩ :=
    assembleStored?_records (P := P) (A := A) hupper hroom
  rw [hassemble, Option.some.injEq, Prod.mk.injEq] at hassemble'
  obtain ⟨rfl, rfl⟩ := hassemble'
  refine ⟨?_, isUpper_assembleKkt P A hupper, fun k hk => isSome_get?_assembleKkt P A hupper hk,
    fun fills V hfits => ?_⟩
  · apply Csc.validate_of_valid ((valid_assembleKkt P A hupper).mapValues _)
    have hcols : (assembleKkt n m P.csc A.csc).n = n + m := length_kktColumns P.csc A.csc
    have hlimit : arrayLimit + 1 < wordSize := by decide
    show (assembleKkt n m P.csc A.csc).n + 1 < wordSize
    omega
  · have hV : V.Fits P A := hfits V (by simp)
    have hsize : ((assembleKkt n m P.csc A.csc).nzval.map fun _ => (0 : α)).size
        = (kktEntries n m P.csc A.csc).length := by
      rw [Array.size_map, ← Array.length_toList, toList_nzval_assembleKkt]
    refine ⟨_, fillAll?_last hrecords hP hA hdiagonal fills hfits hsize, rfl, ?_⟩
    rw [← hV.pattern_eq]
    exact fillKkt_isKkt _ _ _ (hV.upper hupper)

end Fills

/-- A matrix that leaves out a place of its diagonal. -/
def gapHessian : SparseMatrix ℚ 2 2 where
  csc := ⟨2, 2, #[0, 1, 2], #[0, 0], #[4, 1]⟩
  rows_eq := rfl
  cols_eq := rfl
  valid := Csc.valid_of_validate (by decide +kernel)

/-- Constraints of which the second has no entries. -/
def gapConstraints : SparseMatrix ℚ 3 2 where
  csc := ⟨3, 2, #[0, 1, 3], #[0, 0, 2], #[1, 2, 3]⟩
  rows_eq := rfl
  cols_eq := rfl
  valid := Csc.valid_of_validate (by decide +kernel)

/-- Values with the given shift for the two. -/
def gapValues (shift : ℚ) : KktValues ℚ 2 3 := ⟨gapHessian, gapConstraints, shift, #v[1, 2, 3]⟩

/-- Two fills leave the values of the second. -/
theorem assembleStored?_fillAll?_gap :
    gapHessian.csc.isUpper = true ∧ 2 + 3 < arrayLimit ∧
      (∀ W ∈ [gapValues 7, gapValues 0.5], W.Fits gapHessian gapConstraints) ∧
      ∃ K M, assembleStored? gapHessian.csc gapConstraints.csc = some (K, M) ∧
        ∃ F, M.fillAll? K [gapValues 7, gapValues 0.5] = some F ∧
          F.IsKkt gapHessian gapConstraints 0.5 #v[1, 2, 3] := by
  have hupper : gapHessian.csc.isUpper = true := by decide +kernel
  have hroom : 2 + 3 < arrayLimit := by decide
  have hfits : ∀ W ∈ [gapValues 7, gapValues 0.5], W.Fits gapHessian gapConstraints := by
    intro W hW
    have hsame : W.P = gapHessian ∧ W.A = gapConstraints := by
      simp only [List.mem_cons, List.not_mem_nil, or_false] at hW
      rcases hW with rfl | rfl <;> exact ⟨rfl, rfl⟩
    rw [KktValues.Fits, hsame.1, hsame.2]
    decide +kernel
  obtain ⟨hsucceeds, hassembled⟩ := assembleStored?_fillAll? gapHessian gapConstraints hupper
  obtain ⟨⟨K, M⟩, hassemble⟩ := Option.isSome_iff_exists.mp (hsucceeds.mpr hroom)
  obtain ⟨-, -, -, hfills⟩ := hassembled K M hassemble
  obtain ⟨F, hF, -, hkkt⟩ := hfills [gapValues 7] (gapValues 0.5) hfits
  exact ⟨hupper, hroom, hfits, K, M, hassemble, F, hF, hkkt⟩

end QuadOpt
