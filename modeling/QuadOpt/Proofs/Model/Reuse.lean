/-
# What a session can take over

A session that holds the matrices of one standard form takes over another one if the two store
the same places. The objective stores a place for each of its products and each constraint one
for each of its variables, whatever the coefficients are, so the second is taken over exactly if
it has the same variables, as many constraints, the same products and, constraint by
constraint, the same variables. Coefficients, linear terms, constants and bounds play no part.

Key definitions: `StandardForm.SameKeys`.
Key theorems: `StandardForm.assembled_of_ok`, `StandardForm.requireSameShape_assembled_iff`.
-/
import QuadOpt.Model.Path
import QuadOpt.Proofs.Model.StandardForm
import QuadOpt.Proofs.Sparse.Merging
import QuadOpt.Proofs.Sparse.Shape

namespace QuadOpt

variable {α : Type}

namespace StandardForm

/-- The same keys, be their coefficients what they may. -/
def SameKeys {κ : Type} (t s : TermMap κ α) : Prop := ∀ k, k ∈ t.keys ↔ k ∈ s.keys

variable [Scalar α] {n : Nat} {objective : QuadExpr α} {cs : List (Constraint α)}

/-- What is assembled refers to no variable that is not there. -/
theorem assembled_of_ok {F : StandardForm α} (h : assemble n objective cs = .ok F) :
    ¬Refers n objective cs ∧ F = assembled n objective cs := by
  rcases assemble_cases n objective cs with ⟨-, i, herror⟩ | ⟨hrefers, hcases⟩
  · rw [herror] at h
    cases h
  · rw [hcases] at h
    split at h
    · cases h
    · cases h
      exact ⟨hrefers, rfl⟩

/-! ### The places of the objective -/

section Objective

variable (hrefers : ¬Refers n objective cs)

include hrefers

theorem hessianTriplets_lt_of_not_refers {t : Triplet α}
    (ht : t ∈ objective.quadratic.toList.map hessianTriplet) : t.row < n ∧ t.col < n := by
  obtain ⟨e, he, rfl⟩ := List.mem_map.mp ht
  have hkey : e.1 ∈ objective.quadratic.keys := List.mem_map_of_mem he
  by_contra hle
  refine hrefers (.inl ⟨e.1, hkey, ?_⟩)
  simp only [hessianTriplet] at hle
  omega

theorem valid_assembled_P : (assembled n objective cs).P.Valid :=
  Csc.valid_ofTriplets_of_lt (fun _ ht => (hessianTriplets_lt_of_not_refers hrefers ht).1)
    fun _ ht => (hessianTriplets_lt_of_not_refers hrefers ht).2

/-- The places stored are those of the products. -/
theorem isSome_get?_assembled_P (i j : Nat) :
    ((assembled n objective cs).P.get? i j).isSome = true ↔
      ∃ p ∈ objective.quadratic.keys, p.first.index = i ∧ p.second.index = j := by
  refine (Csc.isSome_get?_ofTriplets
    (fun _ ht => (hessianTriplets_lt_of_not_refers hrefers ht).1)
    (fun _ ht => (hessianTriplets_lt_of_not_refers hrefers ht).2) i j).trans ?_
  simp only [TermMap.keys, List.mem_map, exists_exists_and_eq_and, Triplet.place, hessianTriplet,
    Prod.mk.injEq]

end Objective

/-- Products with the same places are the same. -/
theorem exists_key_iff (p : VarPair) (ps : List VarPair) :
    (∃ q ∈ ps, q.first.index = p.first.index ∧ q.second.index = p.second.index) ↔ p ∈ ps := by
  constructor
  · rintro ⟨q, hq, hfirst, hsecond⟩
    obtain ⟨⟨i⟩, ⟨j⟩, hij⟩ := p
    obtain ⟨⟨i'⟩, ⟨j'⟩, hij'⟩ := q
    obtain rfl : i' = i := hfirst
    obtain rfl : j' = j := hsecond
    exact hq
  · exact fun hp => ⟨p, hp, rfl, rfl⟩

/-! ### The places of the constraints -/

omit [Scalar α] in
theorem mem_rowTriplets_iff {t : Triplet α} : t ∈ cs.zipIdx.flatMap rowTriplets ↔
    ∃ c, cs[t.row]? = some c ∧ ∃ v, (v, t.val) ∈ c.terms.toList ∧ t.col = v.index := by
  obtain ⟨i, j, a⟩ := t
  simp only [List.mem_flatMap, rowTriplets, List.mem_map, Prod.exists, Triplet.mk.injEq,
    List.mem_zipIdx_iff_getElem?]
  constructor
  · rintro ⟨c, k, hc, v, b, hv, rfl, rfl, rfl⟩
    exact ⟨c, hc, v, hv, rfl⟩
  · rintro ⟨c, hc, v, hv, rfl⟩
    exact ⟨c, i, hc, v, a, hv, rfl, rfl, rfl⟩

section Constraints

variable (hrefers : ¬Refers n objective cs)

include hrefers

omit [Scalar α] in
theorem rowTriplets_lt_of_not_refers {t : Triplet α} (ht : t ∈ cs.zipIdx.flatMap rowTriplets) :
    t.row < cs.length ∧ t.col < n := by
  obtain ⟨c, hc, v, hv, hcol⟩ := mem_rowTriplets_iff.mp ht
  refine ⟨(List.getElem?_eq_some_iff.mp hc).1, ?_⟩
  by_contra hle
  exact hrefers (.inr (.inr ⟨c, List.mem_of_getElem? hc, v, List.mem_map_of_mem hv,
    hcol ▸ Nat.le_of_not_lt hle⟩))

theorem valid_assembled_A : (assembled n objective cs).A.Valid :=
  Csc.valid_ofTriplets_of_lt (fun _ ht => (rowTriplets_lt_of_not_refers hrefers ht).1)
    fun _ ht => (rowTriplets_lt_of_not_refers hrefers ht).2

/-- The places stored in a row are those of the variables of the constraint. -/
theorem isSome_get?_assembled_A (i j : Nat) :
    ((assembled n objective cs).A.get? i j).isSome = true ↔
      ∃ c, cs[i]? = some c ∧ ⟨j⟩ ∈ c.terms.keys := by
  refine (Csc.isSome_get?_ofTriplets
    (fun _ ht => (rowTriplets_lt_of_not_refers hrefers ht).1)
    (fun _ ht => (rowTriplets_lt_of_not_refers hrefers ht).2) i j).trans ?_
  constructor
  · rintro ⟨t, ht, hplace⟩
    obtain ⟨c, hc, v, hv, hcol⟩ := mem_rowTriplets_iff.mp ht
    obtain ⟨rfl, rfl⟩ := Prod.mk.inj hplace
    exact ⟨c, hc, List.mem_map.mpr ⟨_, hv, congrArg Variable.mk hcol.symm⟩⟩
  · rintro ⟨c, hc, hv⟩
    obtain ⟨⟨v, a⟩, hv, hvar⟩ := List.mem_map.mp hv
    exact ⟨⟨i, j, a⟩, mem_rowTriplets_iff.mpr ⟨c, hc, v, hv, (congrArg Variable.index hvar).symm⟩,
      rfl⟩

end Constraints

omit [Scalar α] in
/-- Lists of constraints store the same places iff they do so constraint by constraint. -/
theorem forall₂_sameKeys_iff {cs ds : List (Constraint α)} (hlength : cs.length = ds.length) :
    List.Forall₂ (fun c d => SameKeys c.terms d.terms) cs ds ↔
      ∀ i j : Nat, (∃ c, cs[i]? = some c ∧ (⟨j⟩ : Variable) ∈ c.terms.keys) ↔
        ∃ d, ds[i]? = some d ∧ (⟨j⟩ : Variable) ∈ d.terms.keys := by
  rw [List.forall₂_iff_get]
  constructor
  · rintro ⟨-, hkeys⟩ i j
    by_cases hi : i < cs.length
    · have hi' : i < ds.length := hlength ▸ hi
      simpa [List.getElem?_eq_getElem hi, List.getElem?_eq_getElem hi'] using hkeys i hi hi' ⟨j⟩
    · simp [List.getElem?_eq_none (Nat.le_of_not_lt hi),
        List.getElem?_eq_none (hlength ▸ Nat.le_of_not_lt hi)]
  · refine fun hplaces => ⟨hlength, fun i hi hi' ⟨j⟩ => ?_⟩
    simpa [List.getElem?_eq_getElem hi, List.getElem?_eq_getElem hi'] using hplaces i j

/-! ### Reuse -/

/-- The matrices of two standard forms have one pattern iff the forms have the same variables,
as many constraints, the same products in their objectives and, constraint by constraint, the
same variables. -/
theorem requireSameShape_assembled_iff {n' : Nat} {objective' : QuadExpr α}
    {cs' : List (Constraint α)} {F F' : StandardForm α} (h : assemble n objective cs = .ok F)
    (h' : assemble n' objective' cs' = .ok F') :
    requireSameShape F.P F.A F' = .ok () ↔
      n = n' ∧ cs.length = cs'.length ∧ SameKeys objective.quadratic objective'.quadratic ∧
        List.Forall₂ (fun c d => SameKeys c.terms d.terms) cs cs' := by
  obtain ⟨hrefers, rfl⟩ := assembled_of_ok h
  obtain ⟨hrefers', rfl⟩ := assembled_of_ok h'
  have hbind : requireSameShape (assembled n objective cs).P (assembled n objective cs).A
      (assembled n' objective' cs') = .ok () ↔
        (assembled n objective cs).P.requireSamePattern (assembled n' objective' cs').P = .ok () ∧
        (assembled n objective cs).A.requireSamePattern (assembled n' objective' cs').A
          = .ok () := by
    unfold requireSameShape
    cases (assembled n objective cs).P.requireSamePattern (assembled n' objective' cs').P with
    | error e => simp [bind, Except.bind]
    | ok => simp [bind, Except.bind]
  rw [hbind, Csc.requireSamePattern_eq_ok_iff (valid_assembled_P hrefers)
      (valid_assembled_P hrefers'),
    Csc.requireSamePattern_eq_ok_iff (valid_assembled_A hrefers) (valid_assembled_A hrefers')]
  simp only [isSome_get?_assembled_P hrefers, isSome_get?_assembled_P hrefers',
    isSome_get?_assembled_A hrefers, isSome_get?_assembled_A hrefers']
  constructor
  · rintro ⟨⟨hn, -, hquadratic⟩, hm, -, hlinear⟩
    refine ⟨hn, hm, fun p => ?_, (forall₂_sameKeys_iff hm).mpr hlinear⟩
    rw [← exists_key_iff p, ← exists_key_iff p]
    exact hquadratic _ _
  · rintro ⟨rfl, hm, hquadratic, hlinear⟩
    refine ⟨⟨rfl, rfl, fun i j => ?_⟩, hm, rfl, (forall₂_sameKeys_iff hm).mp hlinear⟩
    exact exists_congr fun p => and_congr_left' (hquadratic p)

/-- A multiple of the product of two variables, and a linear part. -/
def crossTerm (c : Float) (linear : LinExpr Float) : QuadExpr Float :=
  ⟨⟨[(⟨⟨0⟩, ⟨1⟩, by decide⟩, c)], List.nodup_singleton _⟩, linear⟩

/-- A bounded multiple of two variables, the second one met first. -/
def reversedRow (a b lower upper : Float) : Constraint Float :=
  ⟨⟨[(⟨1⟩, b), (⟨0⟩, a)], by simp⟩, lower, upper⟩

theorem requireSameShape_other_coefficients :
    ∃ F F' : StandardForm Float,
      assemble 2 (crossTerm 3 ⟨.empty, 2⟩)
        [⟨⟨[(⟨0⟩, 1), (⟨1⟩, 4)], by decide⟩, 0, 1⟩, ⟨.empty, -1, 1⟩] = .ok F ∧
      assemble 2 (crossTerm 0 ⟨⟨[(⟨0⟩, 1)], by decide⟩, 0.5⟩)
        [reversedRow (-7) 0 (-3) 8, ⟨.empty, 0, 0⟩] = .ok F' ∧
      requireSameShape F.P F.A F' = .ok () := by
  have h : assemble 2 (crossTerm 3 ⟨.empty, 2⟩)
      [⟨⟨[(⟨0⟩, 1), (⟨1⟩, 4)], by decide⟩, 0, 1⟩, ⟨.empty, -1, 1⟩] = .ok _ := rfl
  have h' : assemble 2 (crossTerm 0 ⟨⟨[(⟨0⟩, 1)], by decide⟩, 0.5⟩)
      [reversedRow (-7) 0 (-3) 8, ⟨.empty, 0, 0⟩] = .ok _ := rfl
  refine ⟨_, _, h, h', (requireSameShape_assembled_iff h h').mpr ⟨rfl, rfl, fun _ => .rfl, ?_⟩⟩
  refine .cons (fun v => ?_) (.cons (fun _ => .rfl) .nil)
  simp [reversedRow, TermMap.keys, or_comm]

end StandardForm
end QuadOpt
