/-
# Valid data

The checks of a setup accept exactly the data of the instances whose numbers are
acceptable. So a setup from the data that a session holds is a setup for the instance that
it holds.

Key definitions: `Instance.toQpData`, `QpData.Numeric`, `Instance.Acceptable`.
Key theorems: `QpData.validate_eq_ok_iff`, `AdmmSession.setup_toQpData`.
-/
import QuadOpt.Admm.Engine

namespace QuadOpt

open Scalar

variable {α : Type} [Scalar α] {n m : Nat}

omit [Scalar α] in
/-- The data of an instance, as an engine is given them. -/
def Instance.toQpData (D : Instance α n m) : QpData α :=
  ⟨D.P.csc, D.q.toArray, D.A.csc, D.l.toArray, D.u.toArray⟩

/-- The matrices are well formed and everything is finite, the bounds apart, which are
numbers all the same. -/
structure QpData.Numeric (D : QpData α) : Prop where
  formatP : D.P.validate = .ok ()
  formatA : D.A.validate = .ok ()
  finiteP : D.P.nzval.all isFinite = true
  finiteA : D.A.nzval.all isFinite = true
  finiteq : D.q.all isFinite = true
  lower : D.l.any isNaN = false
  upper : D.u.any isNaN = false

/-- What the checks of a setup ask of a problem in which everything has the right
dimensions. -/
structure Instance.Acceptable (D : Instance α n m) : Prop extends D.toQpData.Numeric where
  uncrossed : ∀ i, ¬D.u.get i < D.l.get i

theorem QpData.validate_eq_ok_iff {D : QpData α} {I : Instance α D.A.n D.A.m} :
    D.validate = .ok I ↔ I.toQpData = D ∧ I.Acceptable := by
  constructor
  · intro h
    unfold validate at h
    split at h
    · split at h
      · split at h
        · rename_i hb
          split at h
          · cases h
          · rename_i hformatP
            split at h
            · cases h
            · rename_i hformatA
              split at h
              · simp only at h
                split at h
                · cases h
                · rename_i hfinite
                  split at h
                  · cases h
                  · rename_i hnan
                    split at h
                    · cases h
                    · rename_i hcrossed
                      cases h
                      simp only [Bool.not_eq_true', Bool.not_eq_false, Bool.and_eq_true,
                        Bool.not_eq_true, Bool.or_eq_false_iff] at hfinite hnan
                      rw [List.find?_eq_none] at hcrossed
                      exact ⟨rfl, ⟨hformatP, hformatA, hfinite.1.1, hfinite.1.2, hfinite.2,
                        hnan.1, hnan.2⟩,
                        fun i hi => hcrossed i (List.mem_finRange i) (decide_eq_true hi)⟩
              · cases h
        · cases h
      · cases h
    · cases h
  · rintro ⟨h, hI⟩
    obtain ⟨P, q, A, l, u⟩ := D
    obtain ⟨⟨P, hrows, hcols, hvalidP⟩, ⟨q, hq⟩, ⟨A, hA, hA', hvalidA⟩, ⟨l, hl⟩, ⟨u, hu⟩,
      hupper⟩ := I
    simp only [Instance.toQpData, QpData.mk.injEq] at h
    obtain ⟨rfl, rfl, rfl, rfl, rfl⟩ := h
    obtain ⟨hnumeric, huncrossed⟩ := hI
    simp only [Instance.toQpData] at hnumeric huncrossed hupper
    obtain ⟨hformatP, hformatA, hfiniteP, hfiniteA, hfiniteq, hlower, hupper'⟩ := hnumeric
    simp only at hformatP hformatA hfiniteP hfiniteA hfiniteq hlower hupper'
    unfold validate
    rw [dif_pos ⟨hrows, hcols⟩, dif_pos hq, dif_pos ⟨hl, hu⟩]
    split
    · rename_i e he
      rw [hformatP] at he
      cases he
    · split
      · rename_i e he
        rw [hformatA] at he
        cases he
      · rw [dif_pos hupper, hfiniteP, hfiniteA, hfiniteq, hlower, hupper']
        simp only [Bool.and_self, Bool.not_true, Bool.or_self, Bool.false_eq_true, if_false]
        split
        · rename_i i hi
          have hi := List.find?_some hi
          exact absurd (of_decide_eq_true hi) (huncrossed i)
        · rfl

/-- A setup from the data of an acceptable instance is a setup for the instance. -/
theorem AdmmSession.setup_toQpData (env : Environment α) {I : Instance α n m} (h : I.Acceptable)
    {settings : Settings α} (hlegal : settings.validate = .ok ()) :
    AdmmSession.setup env I.toQpData settings
      = (Session.setup env I settings).map fun S => ⟨n, m, S⟩ := by
  obtain ⟨P, q, ⟨A, rfl, rfl, hA⟩, l, u, hupper⟩ := I
  let I : Instance α A.n A.m := ⟨P, q, ⟨A, rfl, rfl, hA⟩, l, u, hupper⟩
  have hvalid : I.toQpData.validate = .ok I := QpData.validate_eq_ok_iff.mpr ⟨rfl, h⟩
  show AdmmSession.setup env I.toQpData settings = _
  unfold AdmmSession.setup
  rw [hlegal, hvalid]
  simp only
  split
  · rename_i e he
    exact (congrArg (Except.map fun S => AdmmSession.mk A.n A.m S) he).symm
  · rename_i S hS
    exact (congrArg (Except.map fun S => AdmmSession.mk A.n A.m S) hS).symm

/-- A setup makes a session for an acceptable instance with the given data. -/
theorem AdmmSession.setup_eq_ok {env : Environment α} {D : QpData α} {settings : Settings α}
    {S : AdmmSession α} (h : AdmmSession.setup env D settings = .ok S) :
    settings.validate = .ok () ∧ ∃ I : Instance α S.n S.m, I.toQpData = D ∧ I.Acceptable ∧
      Session.setup env I settings = .ok S.session := by
  unfold AdmmSession.setup at h
  split at h
  · cases h
  · rename_i hlegal
    split at h
    · cases h
    · rename_i I hI
      split at h
      · cases h
      · rename_i T hT
        cases h
        obtain ⟨hdata, hacceptable⟩ := QpData.validate_eq_ok_iff.mp hI
        exact ⟨hlegal, I, hdata, hacceptable, hT⟩

/-- A setup ends with a factorisation. -/
theorem Session.setup_eq_ok_iff {env : Environment α} {I : Instance α n m} {settings : Settings α}
    {S : Session α n m} : Session.setup env I settings = .ok S ↔
      ∃ U, unfactored env I settings = .ok U ∧ U.factorSystem = (.ok (), S) := by
  unfold Session.setup
  split
  · rename_i e he
    rw [he]
    constructor
    · intro h
      cases h
    · rintro ⟨U, hU, -⟩
      cases hU
  · rename_i U hU
    rw [hU]
    split
    · rename_i T hT
      constructor
      · intro h
        cases h
        exact ⟨U, rfl, hT⟩
      · rintro ⟨V, hV, hfactor⟩
        cases hV
        rw [hT] at hfactor
        cases hfactor
        rfl
    · rename_i e T hT
      constructor
      · intro h
        cases h
      · rintro ⟨V, hV, hfactor⟩
        cases hV
        rw [hT] at hfactor
        cases hfactor

end QuadOpt
