/-
# What polishing makes of the active constraints

Polishing fixes the constraints that are active at the iterate at their bounds, drops the
others, and solves what is left with a regularised matrix, in as many rounds of correction
as the settings ask for. The multipliers it finds belong to equations: one that was
negative, since its constraint was at the lower bound, may come out positive. That is not
looked at, as only the residuals decide whether the result is taken over.

Key definitions: `Corrected`, `Session.activeKkt`, `Session.PolishedFrom`,
`Session.OptimalUpTo`.
Key theorems: `Corrected.left_over`, `Session.get?_selected`,
`Session.solveEquations?_corrected`, `Session.Complementary.mem_activeRows_iff`,
`Session.PolishedFrom.optimalUpTo`, `Session.solve_polished`.
-/
import QuadOpt.Proofs.Admm.Descent
import QuadOpt.Proofs.Admm.Accuracy
import QuadOpt.Proofs.Sparse.Assembly

namespace QuadOpt

open Matrix

/-! ### Corrections -/

section Corrections

variable {K ι : Type} [Field K] [Fintype ι]

/-- `s` comes out of `k` corrections, from zero on: each solves the equations of `R` for
what those of `M` leave over. -/
inductive Corrected (M R : Matrix ι ι K) (b : ι → K) : Nat → (ι → K) → Prop
  | zero : Corrected M R b 0 0
  | succ {k : Nat} {s r : ι → K} :
      Corrected M R b k s → R *ᵥ r = b - M *ᵥ s → Corrected M R b (k + 1) (s + r)

theorem Corrected.first {M R : Matrix ι ι K} {b s : ι → K} (h : R *ᵥ s = b) :
    Corrected M R b 1 s := by
  have hleft : R *ᵥ s = b - M *ᵥ 0 := by rw [mulVec_zero, sub_zero, h]
  have hsucc := Corrected.zero.succ hleft
  rwa [zero_add, zero_add] at hsucc

/-- What is left over after a correction is due to the difference of the matrices. -/
theorem Corrected.left_over {M R : Matrix ι ι K} {b s : ι → K} {k : Nat}
    (h : Corrected M R b (k + 1) s) :
    ∃ t r, Corrected M R b k t ∧ s = t + r ∧ b - M *ᵥ s = (R - M) *ᵥ r := by
  cases h with
  | @succ _ t r ht hr =>
    refine ⟨t, r, ht, rfl, ?_⟩
    rw [mulVec_add, sub_mulVec, hr]
    abel

end Corrections

variable {K : Type} [Field K] [LinearOrder K] [ExactScalar K]

omit [LinearOrder K] [ExactScalar K] in
theorem kktMatrix_sub_mulVec {n m : Nat} (P : Matrix (Fin n) (Fin n) K)
    (A : Matrix (Fin m) (Fin n) K) (t : K) (r : Fin n ⊕ Fin m → K) :
    ((kktMatrix P A t fun _ => t) - kktMatrix P A 0 fun _ => 0) *ᵥ r
      = Sum.elim (fun j => t * r (.inl j)) fun i => -(t * r (.inr i)) := by
  obtain ⟨x, y, rfl⟩ : ∃ x y, r = Sum.elim x y :=
    ⟨r ∘ .inl, r ∘ .inr, (Sum.elim_comp_inl_inr r).symm⟩
  rw [sub_mulVec]
  funext i
  cases i with
  | inl j =>
    rw [Pi.sub_apply, kktMatrix_mulVec_inl, kktMatrix_mulVec_inl, Sum.elim_inl, Sum.elim_inl]
    ring
  | inr i =>
    rw [Pi.sub_apply, kktMatrix_mulVec_inr, kktMatrix_mulVec_inr, Sum.elim_inr, Sum.elim_inr]
    ring

omit [LinearOrder K] [ExactScalar K] in
/-- Rows without a multiplier can be left out. -/
theorem transpose_mulVec_submatrix {n m k : Nat} (A : Matrix (Fin m) (Fin n) K)
    {row : Fin k → Fin m} (hinj : Function.Injective row) {y : Fin m → K}
    (hy : ∀ i, (∀ k, row k ≠ i) → y i = 0) :
    (A.submatrix row id)ᵀ *ᵥ (fun k => y (row k)) = Aᵀ *ᵥ y := by
  funext j
  show ∑ k, A (row k) j * y (row k) = ∑ i, A i j * y i
  refine Finset.sum_of_injOn row hinj.injOn (fun _ _ => Finset.mem_univ _) (fun i _ hi => ?_)
    fun k _ => rfl
  have hzero : y i = 0 := hy i fun k hk => hi ⟨k, Finset.mem_univ k, hk⟩
  rw [hzero, mul_zero]

/-- A matrix of optimality conditions that was analysed and factored is solved for. -/
theorem Csc.IsKkt.exists_solve?_fresh {n k : Nat} {M : Csc K} {P : SparseMatrix K n n}
    {A : SparseMatrix K k n} {δ₁ : K} {δ₂ : Vec K k} (h : M.IsKkt P A δ₁ δ₂)
    {order : Option (Array Nat)} {F G : Ldl K (n + k)} {count : Nat}
    (hF : Ldl.analyse M (n + k) order = .ok F) (hG : F.factor = (G, .ok count))
    (b : Vec K (n + k)) : ∃ s, G.solve? b = some s ∧
      kktMatrix (P.csc.mirror n) (A.csc.toMatrix k n) δ₁ δ₂.get *ᵥ (s.get ∘ finSumFinEquiv)
        = b.get ∘ finSumFinEquiv := by
  have hholds := Ldl.holds_of_analyse hF
  obtain ⟨hfactors, hfactored, -⟩ :=
    hholds.analysed.factorises_of_factor (congrArg Prod.snd hG)
  rw [hholds.values] at hfactors
  rw [show G = F.factor.1 from (congrArg Prod.fst hG).symm]
  exact h.exists_solve? hfactors hfactored b

/-! ### Selected rows -/

namespace Session

section Selection

variable {α : Type} [Scalar α] {n m : Nat}

/-- The equation for row `i`, if it is active. -/
def activeRow? (S : Session α n m) (i : Fin m) : Option (ActiveRow α m) :=
  if S.vars.z.get i - S.data.work.l.get i < -S.vars.y.get i then some ⟨i, S.data.work.l.get i⟩
  else if S.data.work.u.get i - S.vars.z.get i < S.vars.y.get i then
    some ⟨i, S.data.work.u.get i⟩
  else none

theorem activeRows_eq (S : Session α n m) :
    S.activeRows = (List.finRange m).filterMap S.activeRow? := rfl

theorem activeRow?_eq_some_iff {S : Session α n m} {i i' : Fin m} {b : α} :
    S.activeRow? i = some ⟨i', b⟩ ↔ i = i' ∧
      ((S.vars.z.get i - S.data.work.l.get i < -S.vars.y.get i ∧ b = S.data.work.l.get i) ∨
      (¬S.vars.z.get i - S.data.work.l.get i < -S.vars.y.get i ∧
        S.data.work.u.get i - S.vars.z.get i < S.vars.y.get i ∧ b = S.data.work.u.get i)) := by
  unfold activeRow?
  split
  · simp [*, eq_comm]
  · split
    · simp [*, eq_comm]
    · simp [*]

/-- No row is active at two bounds. -/
theorem nodup_activeRows (S : Session α n m) : (S.activeRows.map ActiveRow.row).Nodup := by
  rw [activeRows_eq, List.map_filterMap]
  refine (List.nodup_finRange m).filterMap fun i i' b hi hi' => ?_
  obtain ⟨r, hr, rfl⟩ := Option.map_eq_some_iff.mp hi
  obtain ⟨r', hr', hrow⟩ := Option.map_eq_some_iff.mp hi'
  rw [(activeRow?_eq_some_iff.mp hr).1, (activeRow?_eq_some_iff.mp hr').1, hrow]

variable {active : List (ActiveRow α m)}

omit [Scalar α] in
theorem row_injective (h : (active.map ActiveRow.row).Nodup) :
    Function.Injective fun k : Fin active.length => (active.get k).row := by
  intro k k' hk
  have hget := List.nodup_iff_injective_get.mp h
  have := @hget (k.cast (by simp)) (k'.cast (by simp)) (by simpa using hk)
  simpa [Fin.ext_iff] using this

omit [Scalar α] in
/-- A row is found at its place among the active ones. -/
theorem findIdx_row_eq_iff (h : (active.map ActiveRow.row).Nodup) (k : Fin active.length)
    (i : Nat) : (active.findIdx fun r => r.row.val == i) = k.val ↔ (active.get k).row.val = i := by
  rw [List.findIdx_eq k.isLt]
  constructor
  · rintro ⟨hk, -⟩
    exact eq_of_beq hk
  · intro hk
    refine ⟨beq_iff_eq.mpr hk, fun k' hk' => beq_eq_false_iff_ne.mpr fun hsame => ?_⟩
    have hrow : (active.get ⟨k', hk'.trans k.isLt⟩).row = (active.get k).row :=
      Fin.ext (hsame.trans hk.symm)
    exact absurd (congrArg Fin.val (row_injective h hrow)) (Nat.ne_of_lt hk')

/-- An entry of an active row, at the place of the row among these. -/
def moved (active : List (ActiveRow α m)) (e : Nat × Nat × α) : Option (Triplet α) :=
  let k := active.findIdx fun r => r.row.val == e.1
  if k < active.length then some ⟨k, e.2.1, e.2.2⟩ else none

omit [Scalar α] in
theorem moved_eq_some_iff (h : (active.map ActiveRow.row).Nodup) {e : Nat × Nat × α}
    {t : Triplet α} : moved active e = some t ↔
      ∃ k : Fin active.length, t.row = k ∧ e = ((active.get k).row.val, t.col, t.val) := by
  unfold moved
  simp only
  constructor
  · intro ht
    split at ht
    · rename_i hk
      cases ht
      refine ⟨⟨_, hk⟩, rfl, Prod.ext ?_ rfl⟩
      exact ((findIdx_row_eq_iff h ⟨_, hk⟩ e.1).mp rfl).symm
    · cases ht
  · rintro ⟨k, hk, rfl⟩
    rw [(findIdx_row_eq_iff h k _).mpr rfl, if_pos k.isLt, ← hk]

omit [Scalar α] in
theorem mem_moved_iff (h : (active.map ActiveRow.row).Nodup) {l : List (Nat × Nat × α)}
    {t : Triplet α} : t ∈ l.filterMap (moved active) ↔
      ∃ k : Fin active.length, t.row = k ∧ ((active.get k).row.val, t.col, t.val) ∈ l := by
  rw [List.mem_filterMap]
  constructor
  · rintro ⟨e, he, hmoved⟩
    obtain ⟨k, hk, rfl⟩ := (moved_eq_some_iff h).mp hmoved
    exact ⟨k, hk, he⟩
  · rintro ⟨k, hk, hmem⟩
    exact ⟨_, hmem, (moved_eq_some_iff h).mpr ⟨k, hk, rfl⟩⟩

omit [Scalar α] in
theorem nodup_moved (h : (active.map ActiveRow.row).Nodup) {A : Csc α} (hA : A.Valid) :
    ((A.entries.filterMap (moved active)).map Triplet.place).Nodup := by
  rw [List.Nodup, List.pairwise_map, List.pairwise_filterMap]
  refine (List.pairwise_map.mp (A.nodup_places hA)).imp fun hne t ht t' ht' hplace => hne ?_
  obtain ⟨k, hk, rfl⟩ := (moved_eq_some_iff h).mp ht
  obtain ⟨k', hk', rfl⟩ := (moved_eq_some_iff h).mp ht'
  obtain ⟨hrow, hcol⟩ := Prod.mk.inj hplace
  have hsame : k = k' := Fin.ext (hk ▸ hk' ▸ hrow)
  exact Prod.ext (congrArg (fun k => (active.get k).row.val) hsame) hcol

variable (hirrefl : ∀ a : α, ¬a < a) (A : SparseMatrix α m n)
  (h : (active.map ActiveRow.row).Nodup)

omit [Scalar α] in
theorem moved_lt {t : Triplet α} (ht : t ∈ A.csc.entries.filterMap (moved active))
    (h : (active.map ActiveRow.row).Nodup) : t.row < active.length ∧ t.col < n := by
  obtain ⟨k, hk, hmem⟩ := (mem_moved_iff h).mp ht
  exact ⟨hk ▸ k.isLt, A.cols_eq ▸ (Csc.entries_lt A.valid hmem).2⟩

/-- The active rows of `A`, with the properties of their matrix. -/
def selected : SparseMatrix α active.length n where
  csc := activeMatrix A.csc n active
  rows_eq := rfl
  cols_eq := rfl
  valid := Csc.valid_ofTriplets hirrefl (nodup_moved h A.valid)
    (fun _ ht => (moved_lt A ht h).1) fun _ ht => (moved_lt A ht h).2

/-- What the active rows store is what these rows of `A` store. -/
theorem get?_selected (k : Fin active.length) (j : Nat) :
    (selected hirrefl A h).csc.get? k j = A.csc.get? (active.get k).row j := by
  have hperm : (selected hirrefl A h).csc.entries.Perm
      ((A.csc.entries.filterMap (moved active)).map Triplet.entry) :=
    Csc.entries_ofTriplets_perm hirrefl (nodup_moved h A.valid) fun _ ht => (moved_lt A ht h).2
  apply Option.ext
  intro v
  rw [Csc.get?_eq_some_iff (selected hirrefl A h).valid, Csc.get?_eq_some_iff A.valid,
    hperm.mem_iff, List.mem_map]
  constructor
  · rintro ⟨t, ht, hentry⟩
    obtain ⟨k', hk', hmem⟩ := (mem_moved_iff h).mp ht
    obtain ⟨hrow, hrest⟩ := Prod.mk.inj hentry
    obtain ⟨rfl, rfl⟩ := Prod.mk.inj hrest
    rwa [Fin.ext (hk'.symm.trans hrow)] at hmem
  · intro hmem
    exact ⟨⟨k, j, v⟩, (mem_moved_iff h).mpr ⟨k, rfl, hmem⟩, rfl⟩

end Selection

/-! ### The equations of the active rows -/

variable {n m : Nat}

theorem toMatrix_selected {active : List (ActiveRow K m)} (A : SparseMatrix K m n)
    (h : (active.map ActiveRow.row).Nodup) :
    (selected (fun a => lt_irrefl a) A h).csc.toMatrix active.length n
      = (A.csc.toMatrix m n).submatrix (fun k => (active.get k).row) id := by
  ext k j
  show (selected _ A h).csc.entry k j = A.csc.entry (active.get k).row j
  rw [Csc.entry_eq_getD (selected _ A h).valid, Csc.entry_eq_getD A.valid, get?_selected]

theorem equationResidual_eq {k : Nat} (P : SparseMatrix K n n) (hupper : P.csc.isUpper = true)
    (A : SparseMatrix K k n) (b s : Vec K (n + k)) :
    (equationResidual P.csc A.csc b s).get ∘ finSumFinEquiv = b.get ∘ finSumFinEquiv
      - kktMatrix (P.csc.mirror n) (A.csc.toMatrix k n) 0 (fun _ => 0)
        *ᵥ (s.get ∘ finSumFinEquiv) := by
  unfold equationResidual
  rw [Vec.append_get_comp, Vec.get_comp_finSumFinEquiv b, Vec.get_comp_finSumFinEquiv s]
  funext i
  cases i with
  | inl j =>
    rw [Pi.sub_apply, kktMatrix_mulVec_inl, Sum.elim_inl, Sum.elim_inl,
      Csc.get_transposeMulVecAdd _ A.cols_eq,
      Csc.get_symMulVecAdd _ fun e he => Csc.le_of_isUpper hupper he]
    ring
  | inr i =>
    rw [Pi.sub_apply, kktMatrix_mulVec_inr, Sum.elim_inr, Sum.elim_inr, Csc.get_mulVecAdd]
    ring

/-- Rounds of refinement are corrections. -/
theorem refine?_corrected {k : Nat} {P : SparseMatrix K n n} (hupper : P.csc.isUpper = true)
    {A : SparseMatrix K k n} {R : Matrix (Fin n ⊕ Fin k) (Fin n ⊕ Fin k) K} {ldl : Ldl K (n + k)}
    (hsolve : ∀ b, ∃ s, ldl.solve? b = some s ∧
      R *ᵥ (s.get ∘ finSumFinEquiv) = b.get ∘ finSumFinEquiv)
    {b t : Vec K (n + k)} {rounds : Nat} : ∀ {s : Vec K (n + k)} {before : Nat},
    Corrected (kktMatrix (P.csc.mirror n) (A.csc.toMatrix k n) 0 fun _ => 0) R
      (b.get ∘ finSumFinEquiv) before (s.get ∘ finSumFinEquiv) →
    refine? P.csc A.csc ldl b rounds s = some t →
    Corrected (kktMatrix (P.csc.mirror n) (A.csc.toMatrix k n) 0 fun _ => 0) R
      (b.get ∘ finSumFinEquiv) (before + rounds) (t.get ∘ finSumFinEquiv) := by
  induction rounds with
  | zero =>
    intro s before hs ht
    cases ht
    exact hs
  | succ rounds ih =>
    intro s before hs ht
    obtain ⟨r, hr, hR⟩ := hsolve (equationResidual P.csc A.csc b s)
    rw [refine?, hr] at ht
    rw [equationResidual_eq P hupper] at hR
    have hsum : (Vec.combine 1 r 1 s).get ∘ finSumFinEquiv
        = s.get ∘ finSumFinEquiv + r.get ∘ finSumFinEquiv := by
      funext i
      simp only [Function.comp_apply, Pi.add_apply, Vec.get_combine]
      ring
    have hstep := hs.succ hR
    rw [← hsum] at hstep
    have hnext := ih hstep ht
    rwa [Nat.add_right_comm, Nat.add_assoc] at hnext

theorem solveEquations?_corrected {ordering : Ordering? K} {D : Instance K n m}
    {active : List (ActiveRow K m)} (h : (active.map ActiveRow.row).Nodup) {delta : K}
    {rounds : Nat} {s : Vec K (n + active.length)}
    (hs : solveEquations? ordering D active delta rounds = some s) :
    Corrected (kktMatrix (D.P.csc.mirror n)
        ((D.A.csc.toMatrix m n).submatrix (fun k => (active.get k).row) id) 0 fun _ => 0)
      (kktMatrix (D.P.csc.mirror n)
        ((D.A.csc.toMatrix m n).submatrix (fun k => (active.get k).row) id) delta fun _ => delta)
      (Sum.elim (fun j => -D.q.get j) fun k => (active.get k).bound) (rounds + 1)
      (Sum.elim (Vec.top s).get (Vec.bottom s).get) := by
  let A := selected (fun a : K => lt_irrefl a) D.A h
  let b : Vec K (n + active.length) :=
    D.q.negate ++ (Vector.ofFn fun k : Fin active.length => (active.get k).bound)
  have hb : b.get ∘ finSumFinEquiv
      = Sum.elim (fun j => -D.q.get j) fun k => (active.get k).bound := by
    rw [Vec.append_get_comp]
    congr 1
    · exact funext (Vec.get_negate D.q)
    · exact funext (Vec.get_ofFn _)
  rw [← toMatrix_selected D.A h, ← hb, ← Vec.get_comp_finSumFinEquiv]
  unfold solveEquations? at hs
  simp only at hs
  split at hs
  · cases hs
  · rename_i F hF
    split at hs
    · cases hs
    · rename_i G count hG
      have hkkt := fillKkt_isKkt (A := A) D.P delta (.fill active.length delta) D.upper
      have hsolve := hkkt.exists_solve?_fresh hF hG
      rw [show (Vec.fill active.length delta).get = fun _ => delta from
        funext (Vec.get_fill delta)] at hsolve
      split at hs
      · cases hs
      · rename_i s₀ hs₀
        obtain ⟨s₁, hs₁, hR⟩ := hsolve b
        cases hs₀.symm.trans hs₁
        have hrefined := refine?_corrected (A := A) D.upper hsolve (.first hR) hs
        rwa [Nat.add_comm 1 rounds] at hrefined

/-! ### Polished points -/

variable {S T : Session K n m}

/-- A row is active where the multiplier is further from zero than the row is from the
bound on that side. -/
theorem mem_activeRows_iff {i : Fin m} {b : K} : ⟨i, b⟩ ∈ S.activeRows ↔
    (S.vars.z.get i - S.data.work.l.get i < -S.vars.y.get i ∧ b = S.data.work.l.get i) ∨
    (¬S.vars.z.get i - S.data.work.l.get i < -S.vars.y.get i ∧
      S.data.work.u.get i - S.vars.z.get i < S.vars.y.get i ∧ b = S.data.work.u.get i) := by
  rw [activeRows_eq, List.mem_filterMap]
  constructor
  · rintro ⟨i', -, hi'⟩
    obtain ⟨rfl, hactive⟩ := activeRow?_eq_some_iff.mp hi'
    exact hactive
  · intro hactive
    exact ⟨i, List.mem_finRange i, activeRow?_eq_some_iff.mpr ⟨rfl, hactive⟩⟩

/-- At an iterate whose multipliers have the right signs, the active rows are those that
have one, and it tells the bound. -/
theorem Complementary.mem_activeRows_iff [IsStrictOrderedRing K] (h : S.Complementary)
    {i : Fin m} {b : K} : ⟨i, b⟩ ∈ S.activeRows ↔
      (S.vars.y.get i < 0 ∧ b = S.data.work.l.get i) ∨
      (0 < S.vars.y.get i ∧ b = S.data.work.u.get i) := by
  have hl := h.lower i
  have hu := h.upper i
  have hlower : S.vars.z.get i - S.data.work.l.get i < -S.vars.y.get i ↔ S.vars.y.get i < 0 := by
    constructor
    · intro hlt
      linarith
    · intro hneg
      rw [h.at_lower i hneg]
      linarith
  have hupper : S.data.work.u.get i - S.vars.z.get i < S.vars.y.get i ↔ 0 < S.vars.y.get i := by
    constructor
    · intro hlt
      linarith
    · intro hpos
      rw [h.at_upper i hpos]
      linarith
  rw [Session.mem_activeRows_iff, hlower, hupper]
  constructor
  · rintro (hleft | ⟨-, hright⟩)
    · exact .inl hleft
    · exact .inr hright
  · rintro (hleft | hright)
    · exact .inl hleft
    · exact .inr ⟨hright.1.asymm, hright⟩

/-- The matrix of the optimality conditions with the active rows as equations,
regularised by `t`. -/
def activeKkt (S : Session K n m) (t : K) :
    Matrix (Fin n ⊕ Fin S.activeRows.length) (Fin n ⊕ Fin S.activeRows.length) K :=
  kktMatrix (S.data.work.P.csc.mirror n)
    ((S.data.work.A.csc.toMatrix m n).submatrix (fun k => (S.activeRows.get k).row) id) t fun _ => t

/-- The right hand side of these conditions. -/
def activeTarget (S : Session K n m) : Fin n ⊕ Fin S.activeRows.length → K :=
  Sum.elim (fun j => -S.data.work.q.get j) fun k => (S.activeRows.get k).bound

/-- The session has the point that polishing makes of the iterate of `S`: multipliers of
the active rows only, which with the point solve the equations of these rows, up to the
corrections that were not made, and residuals that are not larger. -/
structure PolishedFrom (T S : Session K n m) : Prop where
  inactive : ∀ i, (∀ r ∈ S.activeRows, r.row ≠ i) → T.vars.y.get i = 0
  corrected : Corrected (S.activeKkt 0) (S.activeKkt S.settings.delta) S.activeTarget
    (S.settings.polishRefineIter.toNat + 1)
    (Sum.elim T.vars.x.get fun k => T.vars.y.get (S.activeRows.get k).row)
  clipped : ∀ i, T.vars.z.get i = min (max ((S.data.work.A.csc.toMatrix m n *ᵥ T.vars.x.get) i)
    (S.data.work.l.get i)) (S.data.work.u.get i)
  prim_le : T.res.prim ≤ max S.res.prim Limits.tiny
  dual_le : T.res.dual ≤ max S.res.dual Limits.tiny

section Scatter

variable {α : Type} {m k : Nat} {row : Fin k → Fin m} {value : Fin k → α}

theorem get_foldl_put_of_ne {i : Fin m} (hi : ∀ k, row k ≠ i) (l : List (Fin k)) (y : Vector α m) :
    (l.foldl (fun y k => Vec.put y (row k) (value k)) y).get i = y.get i := by
  induction l generalizing y with
  | nil => rfl
  | cons k l ih => rw [List.foldl_cons, ih, Vec.get_put_eq, if_neg (hi k).symm]

theorem get_foldl_put_of_mem (hinj : Function.Injective row) {k' : Fin k} {l : List (Fin k)}
    (hmem : k' ∈ l) (y : Vector α m) :
    (l.foldl (fun y k => Vec.put y (row k) (value k)) y).get (row k') = value k' := by
  induction l using List.reverseRecOn with
  | nil => cases hmem
  | append_singleton l k ih =>
    rw [List.foldl_append, List.foldl_cons, List.foldl_nil, Vec.get_put_eq]
    by_cases hk : row k' = row k
    · rw [if_pos hk, hinj hk]
    · rw [if_neg hk]
      refine ih ?_
      simpa [show k' ≠ k from fun he => hk (congrArg row he)] using hmem

end Scatter

variable {env : Environment K}

/-- What the point is made of that replaces the iterate if the residuals allow it. -/
theorem refinedIterate?_spec {x : Vec K n} {y z : Vec K m}
    (h : S.refinedIterate? env = some (x, z, y)) :
    (∀ i, (∀ r ∈ S.activeRows, r.row ≠ i) → y.get i = 0) ∧
    Corrected (S.activeKkt 0) (S.activeKkt S.settings.delta) S.activeTarget
      (S.settings.polishRefineIter.toNat + 1)
      (Sum.elim x.get fun k => y.get (S.activeRows.get k).row) ∧
    ∀ i, z.get i = min (max ((S.data.work.A.csc.toMatrix m n *ᵥ x.get) i)
      (S.data.work.l.get i)) (S.data.work.u.get i) := by
  unfold refinedIterate? at h
  simp only at h
  split at h
  · cases h
  · rename_i s hs
    cases h
    refine ⟨fun i hi => ?_, ?_, fun i => ?_⟩
    · rw [get_foldl_put_of_ne fun k => hi _ (List.get_mem _ _), Vec.get_fill]
    · have hmultipliers : (fun k => ((List.finRange S.activeRows.length).foldl
          (fun y (k : Fin S.activeRows.length) =>
            y.put (S.activeRows.get k).row ((Vec.bottom s).get k)) (Vec.fill m 0)).get
          (S.activeRows.get k).row) = (Vec.bottom s).get := by
        funext k
        exact get_foldl_put_of_mem (row_injective S.nodup_activeRows) (List.mem_finRange k) _
      rw [hmultipliers]
      exact solveEquations?_corrected S.nodup_activeRows hs
    · rw [Vec.clip, Vec.get_ofFn, Csc.get_mulVec]
      rfl

/-- Where polishing succeeds, its point has replaced the iterate. -/
theorem polish_polishedFrom (h : (S.polish env).info.polish = .succeeded) :
    (S.polish env).PolishedFrom S := by
  unfold polish at h ⊢
  split at h
  · cases h
  · rename_i x z y hpoint
    simp only at h ⊢
    split at h
    · rename_i hresiduals
      rw [if_pos hresiduals]
      obtain ⟨hinactive, hcorrected, hclipped⟩ := refinedIterate?_spec hpoint
      exact ⟨hinactive, hcorrected, hclipped, hresiduals.1, hresiduals.2⟩
    · cases h

theorem PolishedFrom.congr {U : Session K n m} (h : T.PolishedFrom S) (hvars : U.vars = T.vars)
    (hres : U.res = T.res) : U.PolishedFrom S := by
  constructor
  · rw [hvars]
    exact h.inactive
  · rw [hvars]
    exact h.corrected
  · rw [hvars]
    exact h.clipped
  · rw [hres]
    exact h.prim_le
  · rw [hres]
    exact h.dual_le

/-- `x` and `y` satisfy the optimality conditions of the problem with the active rows as
equations, up to the errors `e`. -/
structure OptimalUpTo (S : Session K n m) (x : Vec K n) (y : Vec K m)
    (e : Fin n ⊕ Fin S.activeRows.length → K) : Prop where
  stationary : ∀ j, (S.data.work.P.csc.mirror n *ᵥ x.get) j + S.data.work.q.get j
    + ((S.data.work.A.csc.toMatrix m n)ᵀ *ᵥ y.get) j = -e (.inl j)
  fixed : ∀ k, (S.data.work.A.csc.toMatrix m n *ᵥ x.get) (S.activeRows.get k).row
    - (S.activeRows.get k).bound = e (.inr k)

/-- The point satisfies the conditions up to what is due to the regularisation of the last
correction. -/
theorem PolishedFrom.optimalUpTo (h : T.PolishedFrom S) :
    ∃ t r, Corrected (S.activeKkt 0) (S.activeKkt S.settings.delta) S.activeTarget
        S.settings.polishRefineIter.toNat t ∧
      (Sum.elim T.vars.x.get fun k => T.vars.y.get (S.activeRows.get k).row) = t + r ∧
      S.OptimalUpTo T.vars.x T.vars.y (S.settings.delta • r) := by
  obtain ⟨t, r, ht, hsum, hleft⟩ := h.corrected.left_over
  have htranspose := transpose_mulVec_submatrix (S.data.work.A.csc.toMatrix m n)
    (row_injective S.nodup_activeRows) (y := T.vars.y.get) fun i hi =>
      h.inactive i fun a ha => by
        obtain ⟨k, rfl⟩ := List.mem_iff_get.mp ha
        exact hi k
  rw [activeKkt, activeKkt, kktMatrix_sub_mulVec] at hleft
  refine ⟨t, r, ht, hsum, fun j => ?_, fun k => ?_⟩
  · have hrow := congrFun hleft (.inl j)
    rw [Pi.sub_apply, kktMatrix_mulVec_inl, htranspose, activeTarget, Sum.elim_inl,
      Sum.elim_inl] at hrow
    show _ = -(S.settings.delta * r (.inl j))
    linear_combination -hrow
  · have hrow := congrFun hleft (.inr k)
    rw [Pi.sub_apply, kktMatrix_mulVec_inr, activeTarget, Sum.elim_inr, Sum.elim_inr] at hrow
    have hselected : ((S.data.work.A.csc.toMatrix m n).submatrix
        (fun k => (S.activeRows.get k).row) id *ᵥ T.vars.x.get) k
        = (S.data.work.A.csc.toMatrix m n *ᵥ T.vars.x.get) (S.activeRows.get k).row := rfl
    rw [hselected] at hrow
    show _ = S.settings.delta * r (.inr k)
    linear_combination -hrow

variable [IsStrictOrderedRing K]

/-- A solve that took over a polished point has made it of an iterate whose multipliers
had the right signs: the active rows were those that had one, fixed at the lower bound
where it was negative and at the upper bound where it was positive. Rows that were not
active are left without a multiplier, and the others have those of the problem with the
active rows as equations, up to the last correction. Neither residual has grown. -/
theorem solve_polished (hreachable : S.Reachable) (hpolishing : S.settings.polishing = true)
    (hsolve : S.call env .solve = (.ok (), T)) (hsolved : T.info.status = .solved)
    (haccepted : T.info.polish = .succeeded) :
    ∃ r V, iterate env S.settings S.settings.maxIter.toNat 1 false S.begin = (.ok r, V) ∧
      let U := V.conclude env S.settings r
      (U.data = S.data ∧ U.settings = S.settings) ∧ T.PolishedFrom U ∧
      (∃ t r, Corrected (U.activeKkt 0) (U.activeKkt U.settings.delta) U.activeTarget
          U.settings.polishRefineIter.toNat t ∧
        (Sum.elim T.vars.x.get fun k => T.vars.y.get (U.activeRows.get k).row) = t + r ∧
        U.OptimalUpTo T.vars.x T.vars.y (U.settings.delta • r)) ∧
      ((∀ i, S.data.user.l.get i ≤ S.data.user.u.get i) → U.Complementary ∧
        ∀ i b, ⟨i, b⟩ ∈ U.activeRows ↔
          (U.vars.y.get i < 0 ∧ b = U.data.work.l.get i) ∨
          (0 < U.vars.y.get i ∧ b = U.data.work.u.get i)) := by
  have hsound := hreachable.sound
  have hiterate := (begin_continues hsound).trans (iterate_continues env S.settings
    S.settings.maxIter.toNat 1 false (begin_continues hsound).sound)
  obtain ⟨r, V, hV, hstatus, hT⟩ := solve_eq_ok (show S.solve env = (.ok (), T) from hsolve)
  rw [hV] at hiterate
  refine ⟨r, V, hV, ?_⟩
  intro U
  have hsame := conclude_sameCore env S.settings r V
  have hpolished : T.PolishedFrom U := by
    rw [hpolishing, ← hstatus, hsolved] at hT
    replace hT : T = (U.polish env).publish := hT
    rw [hT, (publish_record _).2] at haccepted
    obtain ⟨hvars, hres, -, -⟩ := publish_keeps (U.polish env)
    exact (polish_polishedFrom haccepted).congr (hT ▸ hvars) (hT ▸ hres)
  refine ⟨⟨hsame.data.trans hiterate.data, hsame.settings.trans hiterate.settings⟩, hpolished,
    hpolished.optimalUpTo, fun hbounds => ?_⟩
  have hended := begin_ended hsound (work_bounds_le hsound.scaled hbounds) hV
  have hcomplementary : U.Complementary := hended.conclude hiterate.sound env
  exact ⟨hcomplementary, fun i b => hcomplementary.mem_activeRows_iff⟩

end Session

/-- A number that is at most a tenth, and within wide bounds, with a slope of the
objective. -/
def cappedProblem (slope : ℚ) : QpData ℚ where
  P := ⟨1, 1, #[0, 1], #[0], #[1]⟩
  q := #[slope]
  A := ⟨2, 1, #[0, 2], #[0, 1], #[1, 1]⟩
  l := #[-1, -5]
  u := #[0.1, 5]

namespace Session

/-- The cap is active, and the wide bounds are not. -/
theorem solve_polished_cappedProblem : ∃ (S : AdmmSession ℚ) (T : Session ℚ S.n S.m),
    AdmmSession.setup (.still ℚ) (cappedProblem (-1)) { plainSettings with polishing := true }
      = .ok S ∧
    S.session.call (.still ℚ) .solve = (.ok (), T) ∧ T.info.status = .solved ∧
    T.info.polish = .succeeded ∧ ∃ U : Session ℚ S.n S.m, T.PolishedFrom U ∧ U.Complementary := by
  have hrun : (match AdmmSession.setup (.still ℚ) (cappedProblem (-1))
      { plainSettings with polishing := true } with
    | .error _ => false
    | .ok S => S.session.settings.polishing &&
      decide (∀ i, S.session.data.user.l.get i ≤ S.session.data.user.u.get i) &&
      match S.session.call (.still ℚ) .solve with
      | (.error _, _) => false
      | (.ok (), T) => decide (T.info.status = .solved ∧ T.info.polish = .succeeded)) = true := by
    decide +kernel
  split at hrun
  · cases hrun
  · rename_i S hsetup
    simp only [Bool.and_eq_true] at hrun
    obtain ⟨⟨hpolishing, hbounds⟩, hrun⟩ := hrun
    split at hrun
    · cases hrun
    · rename_i T hsolve
      obtain ⟨hsolved, haccepted⟩ := of_decide_eq_true hrun
      obtain ⟨r, V, -, -, hpolished, -, hsigns⟩ :=
        solve_polished (.setup hsetup) hpolishing hsolve hsolved haccepted
      exact ⟨S, T, hsetup, hsolve, hsolved, haccepted, _, hpolished,
        (hsigns (of_decide_eq_true hbounds)).1⟩

/-- An iterate within loose tolerances presses against the cap, though the objective has
its minimum below it: polishing stays at the cap, with a negative multiplier. -/
theorem exists_polished_negative : ∃ (S : AdmmSession ℚ) (W T V : Session ℚ S.n S.m) (r : LoopEnd)
    (i : Fin S.m),
    AdmmSession.setup (.still ℚ) (cappedProblem 0)
      { plainSettings with polishing := true, epsAbs := 1, epsRel := 1 } = .ok S ∧
    S.session.call (.still ℚ) (.warmStart (some #[0.2]) (some #[0.1, 0])) = (.ok (), W) ∧
    iterate (.still ℚ) W.settings W.settings.maxIter.toNat 1 false W.begin = (.ok r, V) ∧
    W.call (.still ℚ) .solve = (.ok (), T) ∧ T.info.status = .solved ∧
    T.info.polish = .succeeded ∧ T.data.work.l.get i < T.data.work.u.get i ∧
    ⟨i, T.data.work.u.get i⟩ ∈ (V.conclude (.still ℚ) W.settings r).activeRows ∧
    T.vars.y.get i < 0 := by
  have hrun : (match AdmmSession.setup (.still ℚ) (cappedProblem 0)
      { plainSettings with polishing := true, epsAbs := 1, epsRel := 1 } with
    | .error _ => false
    | .ok S => match S.session.call (.still ℚ) (.warmStart (some #[0.2]) (some #[0.1, 0])) with
      | (.error _, _) => false
      | (.ok (), W) =>
        match iterate (.still ℚ) W.settings W.settings.maxIter.toNat 1 false W.begin with
        | (.error _, _) => false
        | (.ok r, V) => match W.call (.still ℚ) .solve with
          | (.error _, _) => false
          | (.ok (), T) => decide (T.info.status = .solved ∧ T.info.polish = .succeeded ∧
            ∃ i, T.data.work.l.get i < T.data.work.u.get i ∧
              ((V.conclude (.still ℚ) W.settings r).activeRows.any fun a =>
                decide (a.row = i) && decide (a.bound = T.data.work.u.get i)) = true ∧
              T.vars.y.get i < 0)) = true := by
    decide +kernel
  split at hrun
  · cases hrun
  · rename_i S hsetup
    split at hrun
    · cases hrun
    · rename_i W hstart
      split at hrun
      · cases hrun
      · rename_i r V hiterate
        split at hrun
        · cases hrun
        · rename_i T hsolve
          obtain ⟨hsolved, haccepted, i, hlu, hactive, hnegative⟩ := of_decide_eq_true hrun
          obtain ⟨a, ha, hboth⟩ := List.any_eq_true.mp hactive
          simp only [Bool.and_eq_true, decide_eq_true_eq] at hboth
          obtain ⟨rfl, hbound⟩ := hboth
          exact ⟨S, W, T, V, r, a.row, hsetup, hstart, hiterate, hsolve, hsolved, haccepted, hlu,
            hbound ▸ ha, hnegative⟩

end Session
end QuadOpt
