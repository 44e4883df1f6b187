/-
# Elimination gives the factors

In exact arithmetic the rows that have been eliminated make up the factors of the
leading part of the matrix. The columns of the pattern are eliminated in an order
in which nothing is added to a column after its turn, so that nothing of the row
is left at the end.

Key definitions: `Factors.Fits`, `Factors.unitLower`, `Factors.Expands`,
`Factors.Pivoted`, `Factors.Reducing`.
Key theorems: `Factors.Reducing.eliminate`, `Factors.reduce_expands`,
`Factors.compute_expands`.
-/
import QuadOpt.Proofs.Ldl.Shape
import QuadOpt.Proofs.Ldl.Triangular

namespace QuadOpt.Factors

open Matrix

variable {n : Nat}

section Entries

variable {α : Type} {forest : Forest n} {upper : Vector (List (Fin n × α)) n} {f : Factors α n}

/-- No column of the triangle repeats a row or has one below the diagonal, and
each row reaches its column in the forest. -/
structure Fits (forest : Forest n) (upper : Vector (List (Fin n × α)) n) : Prop where
  nodup : ∀ k, ((upper.get k).map Prod.fst).Nodup
  le : ∀ k, ∀ e ∈ upper.get k, e.1 ≤ k
  reaches : ∀ k, ∀ e ∈ upper.get k, forest.Reaches e.1 k

/-- A column of the pattern of a row reaches the row. -/
theorem Fits.reaches_of_mem_pattern (h : Fits forest upper) {i c : Fin n}
    (hc : c ∈ pattern forest upper i) : forest.Reaches c i := by
  obtain ⟨hlt, r, hr, hrc⟩ := Forest.mem_rowPattern.mp hc
  obtain ⟨e, he, rfl⟩ := List.mem_map.mp hr
  exact hrc.of_le (h.reaches i e he) (Nat.le_of_lt hlt)

theorem Shaped.strictlyLower {k : Nat} (h : f.Shaped forest upper k) : StrictlyLower f.lower :=
  fun _ _ he => h.lt he

/-- The number that is held for row `r` of column `k`: the pivot so far on the
diagonal, and what is left of the row elsewhere. -/
def held (f : Factors α n) (k r : Fin n) : α := if r = k then f.D.get k else f.rest.get r

theorem load_eq (f : Factors α n) (k : Fin n) (e : Fin n × α) :
    (∀ r, (load k f e).held k r = if r = e.1 then e.2 else f.held k r) ∧
      (∀ c, c ≠ k → (load k f e).D.get c = f.D.get c) ∧
      (load k f e).rest.get k = f.rest.get k := by
  by_cases he : e.1 = k
  · subst he
    rw [load, if_pos rfl]
    refine ⟨fun r => ?_, fun c hc => Vec.get_put_ne _ (Ne.symm hc) _, rfl⟩
    by_cases hr : r = e.1 <;> simp [held, hr]
  · rw [load, if_neg he]
    refine ⟨fun r => ?_, fun _ _ => rfl, Vec.get_put_ne _ he _⟩
    by_cases hr : r = e.1
    · subst hr
      simp [held, he]
    · simp [held, hr, Vec.get_put_ne _ (Ne.symm hr)]

theorem foldl_load_recip (k : Fin n) (entries : List (Fin n × α)) (f : Factors α n) :
    (entries.foldl (load k) f).Dinv = f.Dinv ∧
      (entries.foldl (load k) f).positive = f.positive := by
  induction entries generalizing f with
  | nil => exact ⟨rfl, rfl⟩
  | cons e entries ih =>
    rw [List.foldl_cons, (ih _).1, (ih _).2]
    by_cases he : e.1 = k
    · rw [load, if_pos he]
      exact ⟨rfl, rfl⟩
    · rw [load, if_neg he]
      exact ⟨rfl, rfl⟩

end Entries

/-! ### Taking in a column of the triangle -/

section Load

variable {K : Type} [Field K] {forest : Forest n} {upper : Vector (List (Fin n × K)) n}
  {f : Factors K n}

/-- The factor `I + L`, as far as it has been computed. -/
def unitLower (f : Factors K n) : Matrix (Fin n) (Fin n) K := 1 + columnMatrix f.lower

theorem unitLower_apply (f : Factors K n) (i c : Fin n) :
    f.unitLower i c = (if i = c then 1 else 0) + columnMatrix f.lower i c := by
  rw [unitLower, Matrix.add_apply, Matrix.one_apply]

/-- Columns and rows that have not been eliminated are empty. -/
theorem Shaped.columnMatrix_eq_zero {k : Nat} (h : f.Shaped forest upper k) {i c : Fin n}
    (hle : k ≤ c.val ∨ k ≤ i.val) : columnMatrix f.lower i c = 0 := by
  refine coefficient_eq_zero fun e he hei => ?_
  have hk := (h.mem he).1
  have hlt : c < e.1 := h.lt he
  subst hei
  omega

theorem foldl_load_eq (k : Fin n) : ∀ (entries : List (Fin n × K)) (f : Factors K n),
    (entries.map Prod.fst).Nodup → (∀ e ∈ entries, f.held k e.1 = 0) →
    (∀ r, (entries.foldl (load k) f).held k r = f.held k r + coefficient entries r) ∧
      (∀ c, c ≠ k → (entries.foldl (load k) f).D.get c = f.D.get c) ∧
      (entries.foldl (load k) f).rest.get k = f.rest.get k
  | [], f, _, _ => ⟨fun r => (add_zero _).symm, fun _ _ => rfl, rfl⟩
  | e :: entries, f, hnodup, hzero => by
    obtain ⟨hhead, htail⟩ := List.nodup_cons.mp hnodup
    obtain ⟨hheld, hD, hrest⟩ := load_eq f k e
    have hnew : ∀ s ∈ entries, (load k f e).held k s.1 = 0 := by
      intro s hs
      have hne : s.1 ≠ e.1 := fun h => hhead (h ▸ List.mem_map_of_mem hs)
      rw [hheld, if_neg hne]
      exact hzero s (List.mem_cons_of_mem _ hs)
    obtain ⟨hheld', hD', hrest'⟩ := foldl_load_eq k entries (load k f e) htail hnew
    rw [List.foldl_cons]
    refine ⟨fun r => ?_, fun c hc => (hD' c hc).trans (hD c hc), hrest'.trans hrest⟩
    rw [hheld', hheld, coefficient_cons]
    by_cases hr : r = e.1
    · subst hr
      rw [if_pos rfl, if_pos rfl, hzero e (by simp), zero_add]
    · rw [if_neg hr, if_neg (Ne.symm hr), zero_add]

end Load

/-! ### One row -/

variable {K : Type} [Field K] [LinearOrder K] [ExactScalar K] {forest : Forest n}
  {upper : Vector (List (Fin n × K)) n}

/-- The first `k` rows of the matrix are those of the product of the factors, and
nothing is left of the others. -/
structure Expands (upper : Vector (List (Fin n × K)) n) (k : Nat) (f : Factors K n) : Prop where
  rest : ∀ r, f.rest.get r = 0
  pending : ∀ c : Fin n, k ≤ c.val → f.D.get c = 0
  product : ∀ i j : Fin n, i.val < k → j ≤ i → coefficient (upper.get i) j
    = ∑ c, f.unitLower i c * f.D.get c * f.unitLower j c

/-- The first `k` pivots have been taken in. -/
structure Pivoted (k : Nat) (f : Factors K n) : Prop where
  ne_zero : ∀ c : Fin n, c.val < k → f.D.get c ≠ 0
  recip : ∀ c : Fin n, c.val < k → f.Dinv.get c = (f.D.get c)⁻¹
  positive : f.positive = ((List.finRange n).take k).countP fun c => decide (0 < f.D.get c)

/-- Row `k` is being reduced: `l` holds the entries of the new row of the factor,
which are known but for the columns of `todo`, and `f` is what there was before
the row. -/
structure Reducing (column : List (Fin n × K)) (k : Fin n) (f : Factors K n) (l : Fin n → K)
    (todo : List (Fin n)) (g : Factors K n) : Prop where
  lower : ∀ i c, columnMatrix g.lower i c = columnMatrix f.lower i c + if i = k then l c else 0
  pivots : ∀ c, c ≠ k → g.D.get c = f.D.get c
  recips : g.Dinv = f.Dinv
  positive : g.positive = f.positive
  lt : ∀ c, k ≤ c → l c = 0
  unknown : ∀ c ∈ todo, l c = 0
  row : ∀ r, r < k → coefficient column r
    = g.rest.get r + ∑ c, l c * f.D.get c * f.unitLower r c
  pivot : coefficient column k = g.D.get k + ∑ c, l c * l c * f.D.get c
  rest : ∀ r, r ∉ todo → g.rest.get r = 0

theorem eliminate_eq (g : Factors K n) (k c : Fin n) :
    (∀ i d, columnMatrix (eliminate k g c).lower i d = columnMatrix g.lower i d
      + if i = k ∧ d = c then g.rest.get c * g.Dinv.get c else 0) ∧
    (∀ r, (eliminate k g c).rest.get r = if r = c then 0
      else g.rest.get r - columnMatrix g.lower r c * g.rest.get c) ∧
    (∀ d, (eliminate k g c).D.get d = if d = k then
      g.D.get k - g.rest.get c * (g.rest.get c * g.Dinv.get c) else g.D.get d) := by
  refine ⟨fun i d => ?_, fun r => ?_, fun d => Vec.get_put_eq _ k d _⟩
  · show coefficient ((eliminate k g c).lower.get d) i = coefficient (g.lower.get d) i + _
    rw [eliminate_lower]
    by_cases hd : d = c
    · subst hd
      rw [if_pos rfl, coefficient_append]
      by_cases hi : i = k
      · simp [coefficient, hi]
      · simp [coefficient, hi, Ne.symm hi]
    · simp [hd]
  · show ((Vec.put ((g.lower.get c).foldl
      (fun y e => y.put e.1 (y.get e.1 - e.2 * g.rest.get c)) g.rest) c 0).get r) = _
    rw [Vec.get_put_eq, get_foldl_sub]
    rfl

/-- Eliminating a column adds its entry to the new row. Nothing is added to the
columns whose turn is over, as all rows of a column come after it. -/
theorem Reducing.eliminate {column : List (Fin n × K)} {k c : Fin n} {f g : Factors K n}
    {l : Fin n → K} {todo : List (Fin n)} (hfits : Fits forest upper)
    (hshaped : f.Shaped forest upper k.val) (hpivoted : f.Pivoted k.val)
    (htodo : forest.Ascending k (c :: todo)) (h : Reducing column k f l (c :: todo) g) :
    Reducing column k f (fun d => l d + if d = c then g.rest.get c * g.Dinv.get c else 0) todo
      (eliminate k g c) := by
  obtain ⟨hlower, hrest, hD⟩ := eliminate_eq g k c
  have hck : c < k := htodo.lt c (by simp)
  have hlc : l c = 0 := h.unknown c (by simp)
  have hpivot : g.rest.get c * g.Dinv.get c * f.D.get c = g.rest.get c := by
    rw [h.recips, hpivoted.recip c hck, inv_mul_cancel_right₀ (hpivoted.ne_zero c hck)]
  -- The column holds what it held before the row.
  have hcolumn : ∀ r, columnMatrix g.lower r c = columnMatrix f.lower r c := by
    intro r
    rw [h.lower, hlc, ite_self, add_zero]
  refine ⟨fun i d => ?_, fun d hd => ?_, h.recips, h.positive, fun d hd => ?_, fun d hd => ?_,
    fun r hr => ?_, ?_, fun r hr => ?_⟩
  · rw [hlower, h.lower]
    by_cases hi : i = k <;> simp [hi, add_assoc]
  · rw [hD, if_neg hd, h.pivots d hd]
  · have hne : d ≠ c := by
      rintro rfl
      omega
    simp only [if_neg hne, add_zero]
    exact h.lt d hd
  · have hne : d ≠ c := by
      rintro rfl
      exact htodo.notMem hd
    simp only [if_neg hne, add_zero]
    exact h.unknown d (List.mem_cons_of_mem _ hd)
  · -- What is taken off the row is what the new entry contributes.
    have hsum : ∑ d, (l d + if d = c then g.rest.get c * g.Dinv.get c else 0) * f.D.get d
          * f.unitLower r d
        = ∑ d, l d * f.D.get d * f.unitLower r d + g.rest.get c * f.unitLower r c := by
      simp [add_mul, Finset.sum_add_distrib, hpivot]
    rw [hsum, h.row r hr, hrest, unitLower_apply f r c, hcolumn]
    by_cases hrc : r = c
    · subst hrc
      rw [if_pos rfl, if_pos rfl, hshaped.strictlyLower.columnMatrix_eq_zero (Fin.le_refl r)]
      ring
    · rw [if_neg hrc, if_neg hrc]
      ring
  · have hsum : ∑ d, (l d + if d = c then g.rest.get c * g.Dinv.get c else 0)
          * (l d + if d = c then g.rest.get c * g.Dinv.get c else 0) * f.D.get d
        = ∑ d, l d * l d * f.D.get d
          + g.rest.get c * g.Dinv.get c * (g.rest.get c * g.Dinv.get c * f.D.get c) := by
      have hterm : ∀ d, (l d + if d = c then g.rest.get c * g.Dinv.get c else 0)
            * (l d + if d = c then g.rest.get c * g.Dinv.get c else 0) * f.D.get d
          = l d * l d * f.D.get d + if d = c then
              g.rest.get c * g.Dinv.get c * (g.rest.get c * g.Dinv.get c * f.D.get c) else 0 := by
        intro d
        by_cases hd : d = c
        · subst hd
          rw [if_pos rfl, if_pos rfl, hlc]
          ring
        · rw [if_neg hd, if_neg hd]
          ring
      simp only [hterm, Finset.sum_add_distrib]
      simp
    rw [hsum, hpivot, h.pivot, hD, if_pos rfl]
    ring
  · rw [hrest]
    by_cases hrc : r = c
    · rw [if_pos hrc]
    · have hrest : g.rest.get r = 0 := h.rest r (by simp [hrc, hr])
      have hcoeff : columnMatrix f.lower r c = 0 := by
        refine coefficient_eq_zero fun e he her => ?_
        obtain ⟨hlt, hmem⟩ := hshaped.mem he
        subst her
        exact hr (htodo.mem_of_reaches (hfits.reaches_of_mem_pattern hmem) hrc hlt)
      rw [if_neg hrc, hcolumn, hrest, hcoeff, zero_mul, sub_zero]

theorem Reducing.foldl_eliminate {column : List (Fin n × K)} {k : Fin n} {f : Factors K n}
    (hfits : Fits forest upper) (hshaped : f.Shaped forest upper k.val)
    (hpivoted : f.Pivoted k.val) : ∀ (todo : List (Fin n)) (l : Fin n → K) (g : Factors K n),
      forest.Ascending k todo → Reducing column k f l todo g →
        ∃ l', Reducing column k f l' [] (todo.foldl (Factors.eliminate k) g)
  | [], l, _, _, h => ⟨l, h⟩
  | _ :: todo, _, _, htodo, h =>
    foldl_eliminate hfits hshaped hpivoted todo _ _ htodo.tail
      (h.eliminate hfits hshaped hpivoted htodo)

omit [LinearOrder K] [ExactScalar K] in
theorem reducing_load {k : Fin n} {f : Factors K n} (hfits : Fits forest upper)
    (h : f.Expands upper k.val) : Reducing (upper.get k) k f (fun _ => 0) (pattern forest upper k)
      ((upper.get k).foldl (load k) f) := by
  have hzero : ∀ r, f.held k r = 0 := by
    intro r
    by_cases hr : r = k
    · rw [held, if_pos hr, h.pending k (Nat.le_refl _)]
    · rw [held, if_neg hr, h.rest]
  obtain ⟨hheld, hD, hrest⟩ := foldl_load_eq k (upper.get k) f (hfits.nodup k) fun e _ => hzero e.1
  obtain ⟨hrecip, hpositive⟩ := foldl_load_recip k (upper.get k) f
  have hrow : ∀ r, r ≠ k →
      ((upper.get k).foldl (load k) f).rest.get r = coefficient (upper.get k) r := by
    intro r hr
    have := hheld r
    rwa [hzero, zero_add, held, if_neg hr] at this
  refine ⟨fun i c => ?_, hD, hrecip, hpositive, fun _ _ => rfl, fun _ _ => rfl, fun r hr => ?_, ?_,
    fun r hr => ?_⟩
  · rw [foldl_load_lower, ite_self, add_zero]
  · rw [hrow r (Fin.ne_of_lt hr)]
    simp
  · have := hheld k
    rw [hzero, zero_add, held, if_pos rfl] at this
    simp [this]
  · by_cases hrk : r = k
    · subst hrk
      rw [hrest, h.rest]
    · rw [hrow r hrk]
      refine coefficient_eq_zero fun e he her => hr ?_
      subst her
      have hlt : e.1 < k := lt_of_le_of_ne (hfits.le k e he) hrk
      exact Forest.mem_rowPattern.mpr ⟨hlt, e.1, List.mem_map_of_mem he, Forest.Reaches.refl _ _⟩

omit [LinearOrder K] [ExactScalar K] in
theorem Reducing.expands {k : Fin n} {f g : Factors K n} {l : Fin n → K}
    (hshaped : f.Shaped forest upper k.val) (hf : f.Expands upper k.val)
    (h : Reducing (upper.get k) k f l [] g) : g.Expands upper (k.val + 1) := by
  have hlower : ∀ i c, g.unitLower i c = f.unitLower i c + if i = k then l c else 0 := by
    intro i c
    rw [unitLower_apply, unitLower_apply, h.lower, add_assoc]
  have hold : ∀ i c, i ≠ k → g.unitLower i c = f.unitLower i c := by
    intro i c hi
    rw [hlower, if_neg hi, add_zero]
  have hnew : ∀ c, g.unitLower k c = (if k = c then 1 else 0) + l c := by
    intro c
    rw [hlower, if_pos rfl, unitLower_apply, hshaped.columnMatrix_eq_zero (.inr (Nat.le_refl _)),
      add_zero]
  -- Rows before `k` have no entry in column `k`.
  have hzero : ∀ i, i ≠ k → f.unitLower i k = 0 := by
    intro i hi
    rw [unitLower_apply, if_neg hi, hshaped.columnMatrix_eq_zero (.inl (Nat.le_refl _)), add_zero]
  refine ⟨fun r => h.rest r (by simp), fun c hc => ?_, fun i j hi hji => ?_⟩
  · have hne : c ≠ k := by
      rintro rfl
      omega
    rw [h.pivots c hne]
    exact hf.pending c (by omega)
  · by_cases hik : i = k
    · subst hik
      by_cases hjk : j = i
      · subst hjk
        have hterm : ∀ c, g.unitLower j c * g.D.get c * g.unitLower j c
            = (if c = j then g.D.get j else 0) + l c * l c * f.D.get c := by
          intro c
          by_cases hc : c = j
          · subst hc
            rw [hnew, if_pos rfl, if_pos rfl, h.lt c (Fin.le_refl c)]
            ring
          · rw [hnew, if_neg (Ne.symm hc), if_neg hc, h.pivots c hc]
            ring
        simp only [hterm, Finset.sum_add_distrib]
        simpa using h.pivot
      · have hterm : ∀ c, g.unitLower i c * g.D.get c * g.unitLower j c
            = l c * f.D.get c * f.unitLower j c := by
          intro c
          rw [hold j c hjk]
          by_cases hc : c = i
          · subst hc
            rw [hzero j hjk, mul_zero, mul_zero]
          · rw [hnew, if_neg (Ne.symm hc), zero_add, h.pivots c hc]
        have hrow := h.row j (lt_of_le_of_ne hji hjk)
        rw [h.rest j (by simp), zero_add] at hrow
        simp only [hterm]
        exact hrow
    · have hlt : i.val < k.val := by omega
      have hjk : j ≠ k := by
        rintro rfl
        omega
      rw [hf.product i j hlt hji]
      apply Finset.sum_congr rfl
      intro c _
      rw [hold i c hik, hold j c hjk]
      by_cases hc : c = k
      · subst hc
        rw [hzero i hik, zero_mul, zero_mul, zero_mul, zero_mul]
      · rw [h.pivots c hc]

theorem mem_take_finRange {c : Fin n} {k : Nat} : c ∈ (List.finRange n).take k ↔ c.val < k := by
  rw [List.mem_take_iff_getElem]
  constructor
  · rintro ⟨i, hi, rfl⟩
    simp at hi ⊢
    omega
  · intro hc
    exact ⟨c.val, by simp [hc], by simp⟩

omit [ExactScalar K] in
theorem Reducing.pivoted {column : List (Fin n × K)} {k : Fin n} {f g : Factors K n}
    {l : Fin n → K} (hf : f.Pivoted k.val) (h : Reducing column k f l [] g) : g.Pivoted k.val := by
  have hD : ∀ c : Fin n, c.val < k.val → g.D.get c = f.D.get c := fun c hc =>
    h.pivots c (Fin.ne_of_lt hc)
  refine ⟨fun c hc => ?_, fun c hc => ?_, ?_⟩
  · rw [hD c hc]
    exact hf.ne_zero c hc
  · rw [hD c hc, h.recips]
    exact hf.recip c hc
  · rw [h.positive, hf.positive]
    apply List.countP_congr
    intro c hc
    rw [hD c (mem_take_finRange.mp hc)]

/-- Reducing a row gives its row of the product. -/
theorem reduce_expands {k : Fin n} {f : Factors K n} (hfits : Fits forest upper)
    (hshaped : f.Shaped forest upper k.val) (hexpands : f.Expands upper k.val)
    (hpivoted : f.Pivoted k.val) : (reduce forest upper f k).Expands upper (k.val + 1) ∧
      (reduce forest upper f k).Pivoted k.val := by
  have hascending := (Forest.isPattern_rowPattern forest k ((upper.get k).map Prod.fst)).ascending
  obtain ⟨l, hl⟩ := Reducing.foldl_eliminate hfits hshaped hpivoted (pattern forest upper k) _ _
    hascending (reducing_load hfits hexpands)
  exact ⟨hl.expands hshaped hexpands, hl.pivoted hpivoted⟩

/-! ### All rows -/

theorem Pivoted.accept {k : Fin n} {g : Factors K n} (h : g.Pivoted k.val)
    (hpivot : g.D.get k ≠ 0) : Pivoted (k.val + 1) { g with
      Dinv := g.Dinv.put k (Scalar.recip (g.D.get k))
      positive := if 0 < g.D.get k then g.positive + 1 else g.positive } := by
  refine ⟨fun c hc => ?_, fun c hc => ?_, ?_⟩
  · by_cases hck : c = k
    · subst hck
      exact hpivot
    · exact h.ne_zero c (by omega)
  · show (Vec.put g.Dinv k (1 / g.D.get k)).get c = _
    rw [Vec.get_put_eq]
    by_cases hck : c = k
    · subst hck
      rw [if_pos rfl, one_div]
    · rw [if_neg hck]
      exact h.recip c (by omega)
  · rw [take_finRange_succ, List.countP_append, ← h.positive]
    by_cases hpos : 0 < g.D.get k <;> simp [hpos]

/-- What elimination has computed when it is through, and when it stops at a row
without a pivot. -/
theorem compute_expands (hfits : Fits forest upper) :
    (∀ f, compute forest upper = .ok f → f.Expands upper n ∧ f.Pivoted n) ∧
      ∀ e, compute forest upper = .error e →
        e.2.Expands upper (e.1.val + 1) ∧ e.2.Pivoted e.1.val ∧ e.2.D.get e.1 = 0 := by
  suffices hpass : (∀ f, compute forest upper = .ok f →
      f.Shaped forest upper n ∧ f.Expands upper n ∧ f.Pivoted n) ∧
      ∀ e, compute forest upper = .error e →
        e.2.Expands upper (e.1.val + 1) ∧ e.2.Pivoted e.1.val ∧ e.2.D.get e.1 = 0 from
    ⟨fun f hf => (hpass.1 f hf).2, hpass.2⟩
  refine failing_pass_induction
    (fun k (f : Factors K n) => f.Shaped forest upper k ∧ f.Expands upper k ∧ f.Pivoted k)
    (fun e : Fin n × Factors K n =>
      e.2.Expands upper (e.1.val + 1) ∧ e.2.Pivoted e.1.val ∧ e.2.D.get e.1 = 0)
    ?_ fun k f ⟨hshaped, hexpands, hpivoted⟩ => ?_
  · refine ⟨fun c => by simp [start], ⟨fun r => ?_, fun c _ => ?_, fun i _ hi => ?_⟩,
      ⟨fun c hc => ?_, fun c hc => ?_, by simp [start]⟩⟩
    · exact Vec.get_fill 0 r
    · exact Vec.get_fill 0 c
    · exact absurd hi (Nat.not_lt_zero _)
    · exact absurd hc (Nat.not_lt_zero _)
    · exact absurd hc (Nat.not_lt_zero _)
  · obtain ⟨hnext, hbefore⟩ := reduce_expands hfits hshaped hexpands hpivoted
    rw [row_eq, accept_eq]
    by_cases hpivot : (reduce forest upper f k).D.get k = 0
    · rw [if_pos (by simp [hpivot])]
      refine ⟨fun g hg => (by cases hg), fun e he => ?_⟩
      cases he
      exact ⟨hnext, hbefore, hpivot⟩
    · have hfinite : Scalar.isFinite ((reduce forest upper f k).D.get k) = true := rfl
      rw [if_neg (by simp [hpivot, hfinite])]
      refine ⟨fun g hg => ?_, fun e he => (by cases he)⟩
      cases hg
      exact ⟨hshaped.reduce.of_lower_eq rfl, ⟨hnext.rest, hnext.pending, hnext.product⟩,
        hbefore.accept hpivot⟩

end QuadOpt.Factors
