/-
# The linear system is that of the current data

Whatever calls a session has seen, its linear system was filled with the working
matrices, the regularisation and the step sizes that the session has now. A call
other than a solve is refused, or leaves all of these as they are, or ends with a
factorisation of the system for its new data; a solve factors its system anew when
it adopts a step size. If there are valid factors, they are those of the system.

Key definitions: `LinearSystem.Prepared`, `Session.Prepared`, `Session.Filled`,
`Session.Keeps`, `Session.Outcome`.
Key theorems: `LinearSystem.Prepared.factor_eq`, `Session.setup_factored`,
`Session.call_outcome`, `Session.solve_filled`, `Session.Reachable.filled`.
-/
import QuadOpt.Proofs.Admm.Course
import QuadOpt.Proofs.Admm.Kkt
import QuadOpt.Proofs.Admm.Solves
import QuadOpt.Proofs.Ldl.Fresh

namespace QuadOpt

variable {α : Type} [Scalar α] {n m : Nat}

/-! ### Patterns -/

/-- The working matrices store entries where those of the user do. -/
def Problem.SamePattern (D : Problem α n m) : Prop :=
  assembleKkt n m D.work.P.csc D.work.A.csc = assembleKkt n m D.user.P.csc D.user.A.csc

theorem Equilibration.repeat_pattern (k : Nat) (S : Equilibration α n m) :
    assembleKkt n m (Nat.repeat round k S).P.csc (Nat.repeat round k S).A.csc
      = assembleKkt n m S.P.csc S.A.csc := by
  induction k with
  | zero => rfl
  | succ k ih =>
    -- A round replaces values only.
    have hround : ∀ S : Equilibration α n m,
        assembleKkt n m S.round.P.csc S.round.A.csc = assembleKkt n m S.P.csc S.A.csc :=
      fun _ => rfl
    exact (hround _).trans ih

theorem Problem.equilibrate_samePattern (D : Problem α n m) (rounds : Nat) :
    (D.equilibrate rounds).SamePattern := Equilibration.repeat_pattern rounds _

/-! ### Linear systems -/

namespace LinearSystem

/-- The pattern is that of `P` and `A`, and the values that were filled into it last
are those of the factorisation. -/
structure Prepared (L : LinearSystem α n m) (P : SparseMatrix α n n) (A : SparseMatrix α m n) :
    Prop where
  pattern : L.pattern = assembleKkt n m P.csc A.csc
  shape : ∃ f, L.K = L.pattern.mapValues f
  holds : L.ldl.Holds L.K

variable {L : LinearSystem α n m} {P : SparseMatrix α n n} {A : SparseMatrix α m n}

/-- The pattern is all that is analysed. -/
theorem exists_new_of_analyse {ordering : Ordering? α} {M : Csc α} {F : Ldl α (n + m)}
    (hM : M = (assembleKkt n m P.csc A.csc).mapValues fun _ => 0)
    (h : Ldl.analyse M (n + m) (ordering M) = .ok F) : ∃ L, new ordering P A = .ok L := by
  have hnew : new ordering P A = (Ldl.analyse M (n + m) (ordering M)).bind fun F =>
      .ok ⟨assembleKkt n m P.csc A.csc, M, F, .fill m 0, .fill m 0, .replicate m .inequality⟩ := by
    rw [hM]
    rfl
  rw [hnew, h]
  exact ⟨_, rfl⟩

theorem new_prepared {ordering : Ordering? α} (h : new ordering P A = .ok L) : L.Prepared P A := by
  simp only [new, bind, Except.bind] at h
  split at h
  · cases h
  · rename_i ldl hldl
    cases h
    exact ⟨rfl, ⟨fun _ => 0, rfl⟩, Ldl.holds_of_analyse hldl⟩

theorem Prepared.classify (h : L.Prepared P A) (l u : Vec α m) : (L.classify l u).Prepared P A :=
  ⟨h.pattern, h.shape, h.holds⟩

theorem Prepared.withRho (h : L.Prepared P A) (t : α) : (L.withRho t).Prepared P A :=
  ⟨h.pattern, h.shape, h.holds⟩

/-- What a factorisation leaves: the matrix filled for the given values, with the
outcome of its elimination. -/
theorem Prepared.factor_eq (h : L.Prepared P A) (sigma : α) :
    let K := fillKkt L.pattern P.csc A.csc sigma L.rhoInv
    let F : Ldl α (n + m) := { L.ldl with values := K.nzval, isFactored := false }
    F.Holds K ∧ L.factor P A sigma = ({ L with K := K, ldl := F.factor.1 }, F.factor.2) := by
  intro K F
  obtain ⟨f, hf⟩ := h.shape
  have hK : K = { L.K with nzval := K.nzval } := by
    rw [hf]
    rfl
  have hsize : K.nzval.size = L.K.nzval.size := by
    rw [hf]
    simp [K, fillKkt, Csc.mapValues]
  obtain ⟨hwith, hholds⟩ := h.holds.replace hsize
  rw [← hK] at hholds
  refine ⟨hholds, ?_⟩
  unfold LinearSystem.factor
  simp only
  rw [hwith]
  rfl

theorem Prepared.factor (h : L.Prepared P A) (sigma : α) :
    (L.factor P A sigma).1.Prepared P A ∧ (L.factor P A sigma).1.K
      = fillKkt L.pattern P.csc A.csc sigma L.rhoInv := by
  obtain ⟨hholds, hfactor⟩ := h.factor_eq sigma
  rw [hfactor]
  exact ⟨⟨h.pattern, ⟨KktEntry.value P.csc A.csc sigma L.rhoInv, rfl⟩, hholds.factor⟩, rfl⟩

end LinearSystem

/-! ### Sessions -/

/-- The error says that input was refused. -/
def EngineError.isRefusal : EngineError → Bool
  | .dataValidation _ | .settings _ | .dataUpdate _ => true
  | _ => false

namespace Session

/-- The linear system of the session has the pattern of its data, and the step sizes
that belong to its bounds. -/
structure Prepared (S : Session α n m) : Prop where
  legal : S.settings.validate = .ok ()
  samePattern : S.data.SamePattern
  system : S.system.Prepared S.data.work.P S.data.work.A
  tuned : S.system.Tuned S.data.work.l S.data.work.u S.rho

/-- The linear system of the session was filled with its data. -/
structure Filled (S : Session α n m) : Prop extends S.Prepared where
  filled : S.system.K = fillKkt S.system.pattern S.data.work.P.csc S.data.work.A.csc
    S.settings.sigma S.system.rhoInv

/-- `T` has the matrices and the linear system of `S`, apart from the kinds of its
constraints. -/
structure Keeps (S T : Session α n m) : Prop where
  legal : T.settings.validate = .ok ()
  sigma : T.settings.sigma = S.settings.sigma
  userP : T.data.user.P = S.data.user.P
  userA : T.data.user.A = S.data.user.A
  workP : T.data.work.P = S.data.work.P
  workA : T.data.work.A = S.data.work.A
  system : T.system = { S.system with kinds := T.system.kinds }
  tuned : T.system.Tuned T.data.work.l T.data.work.u T.rho

variable {S T U : Session α n m}

theorem Prepared.congr (h : S.Prepared) (hsame : S.SameCore T) : T.Prepared where
  legal := by rw [hsame.settings]; exact h.legal
  samePattern := by rw [hsame.data]; exact h.samePattern
  system := by rw [hsame.system, hsame.data]; exact h.system
  tuned := by rw [hsame.system, hsame.data, hsame.rho]; exact h.tuned

theorem Filled.congr (h : S.Filled) (hsame : S.SameCore T) : T.Filled where
  toPrepared := h.toPrepared.congr hsame
  filled := by rw [hsame.system, hsame.data, hsame.settings]; exact h.filled

theorem Filled.keeps (h : S.Filled) (hkeeps : S.Keeps T) : T.Filled where
  legal := hkeeps.legal
  samePattern := by
    unfold Problem.SamePattern
    rw [hkeeps.workP, hkeeps.workA, hkeeps.userP, hkeeps.userA]
    exact h.samePattern
  system := by
    rw [hkeeps.system, hkeeps.workP, hkeeps.workA]
    exact ⟨h.system.pattern, h.system.shape, h.system.holds⟩
  tuned := hkeeps.tuned
  filled := by
    rw [hkeeps.system, hkeeps.workP, hkeeps.workA, hkeeps.sigma]
    exact h.filled

theorem Prepared.adopt (h : S.Prepared) (t : α) : (S.adopt t).Prepared :=
  ⟨h.legal, h.samePattern, h.system.withRho t, h.tuned.withRho t⟩

/-- A factorisation fills the system with the data of the session. -/
theorem Prepared.factorSystem (h : S.Prepared) : S.factorSystem.2.Filled := by
  obtain ⟨hprepared, hfilled⟩ := h.system.factor S.settings.sigma
  have hfactored : Filled ({ S with
      system := (S.system.factor S.data.work.P S.data.work.A S.settings.sigma).1 } :
        Session α n m) :=
    ⟨⟨h.legal, h.samePattern, hprepared, ⟨h.tuned.kinds, h.tuned.rho, h.tuned.rhoInv⟩⟩, hfilled⟩
  exact hfactored.congr S.factorSystem_sameCore

theorem factorUnsolved_eq (S : Session α n m) :
    S.factorUnsolved.1 = S.factorSystem.1 ∧ S.factorSystem.2.SameCore S.factorUnsolved.2 := by
  unfold factorUnsolved
  cases hfactor : S.factorSystem with
  | mk r T => cases r <;> exact ⟨rfl, rfl, rfl, rfl, rfl⟩

/-! ### Calls -/

/-- The ways in which a call other than a solve can end. -/
inductive Outcome (S : Session α n m) : Except EngineError Unit × Session α n m → Prop where
  | refused {e : EngineError} : e.isRefusal = true → Outcome S (.error e, S)
  | kept {T : Session α n m} : S.Keeps T → Outcome S (.ok (), T)
  | factored {U T : Session α n m} : U.Prepared → U.factorSystem.2.SameCore T →
      Outcome S (U.factorSystem.1, T)

theorem Prepared.outcome (h : U.Prepared) : Outcome S U.factorSystem :=
  .factored h (.refl _)

theorem Prepared.outcome_unsolved (h : U.Prepared) : Outcome S U.factorUnsolved := by
  obtain ⟨hresult, hsame⟩ := U.factorUnsolved_eq
  have := Outcome.factored (S := S) h hsame
  rwa [← hresult] at this

theorem updateVectors_outcome (h : S.Filled) (q l u : Option (Array α)) :
    Outcome S (S.updateVectors q l u) := by
  unfold updateVectors
  split
  · exact .refused rfl
  · rename_i new _
    simp only
    split
    · rename_i hkinds
      exact .kept ⟨h.legal, rfl, rfl, rfl, rfl, rfl, rfl, h.tuned.reclassify hkinds⟩
    · exact Prepared.outcome_unsolved ⟨h.legal, h.samePattern,
        (h.system.classify _ _).withRho _, .classify _ _ _ _⟩

/-- An update of the matrices gives nothing, is refused, or ends with a factorisation of
the problem after its equilibration. -/
theorem updateMatrices_cases (h : S.Filled) (Px : Option (Array α)) (PxIdx : Option (Array Nat))
    (Ax : Option (Array α)) (AxIdx : Option (Array Nat)) :
    ((Px.isNone && PxIdx.isNone && Ax.isNone && AxIdx.isNone) = true ∧
      S.updateMatrices Px PxIdx Ax AxIdx = (.ok (), S)) ∨
    (∃ e, S.updateMatrices Px PxIdx Ax AxIdx = (.error (.dataUpdate e), S)) ∨
    ∃ U : Session α n m, U.Prepared ∧
      U.data.equilibrate U.settings.scaling.toNat = U.data ∧
      S.updateMatrices Px PxIdx Ax AxIdx = U.factorUnsolved := by
  unfold updateMatrices
  split
  · rename_i hnothing
    exact .inl ⟨hnothing, rfl⟩
  · split
    · rename_i e _
      exact .inr (.inl ⟨e, rfl⟩)
    · rename_i P A _
      simp only
      have hequilibrated := Problem.equilibrate_samePattern ({ S.data with user := { S.data.user with
        P := S.data.user.P.withValues P
        A := S.data.user.A.withValues A
        upper := S.data.user.upper } } : Problem α n m) S.settings.scaling.toNat
      -- The new values are in the places of the old ones.
      have hpattern : S.system.pattern = assembleKkt n m
          (S.data.user.P.withValues P).csc (S.data.user.A.withValues A).csc :=
        h.system.pattern.trans h.samePattern
      have hsystem : S.system.Prepared _ _ :=
        ⟨hpattern.trans hequilibrated.symm, h.system.shape, h.system.holds⟩
      refine .inr (.inr ⟨_, ?_, ?_, rfl⟩)
      · exact ⟨h.legal, hequilibrated, (hsystem.classify _ _).withRho _, .classify _ _ _ _⟩
      · rfl

theorem updateMatrices_outcome (h : S.Filled) (Px : Option (Array α)) (PxIdx : Option (Array Nat))
    (Ax : Option (Array α)) (AxIdx : Option (Array Nat)) :
    Outcome S (S.updateMatrices Px PxIdx Ax AxIdx) := by
  rcases updateMatrices_cases h Px PxIdx Ax AxIdx with
    ⟨-, hresult⟩ | ⟨e, hresult⟩ | ⟨U, hprepared, -, hresult⟩
  · rw [hresult]
    exact .kept ⟨h.legal, rfl, rfl, rfl, rfl, rfl, rfl, h.tuned⟩
  · rw [hresult]
    exact .refused rfl
  · rw [hresult]
    exact Prepared.outcome_unsolved hprepared

theorem warmStart_outcome (h : S.Filled) (x y : Option (Array α)) :
    Outcome S (S.warmStart x y) := by
  unfold warmStart
  split
  · exact .refused rfl
  · rename_i x y _
    cases x <;> cases y <;> exact .kept ⟨h.legal, rfl, rfl, rfl, rfl, rfl, rfl, h.tuned⟩

section Settings

/- Positive numbers that are equal are the same. -/
variable (hbeq : ∀ {a b : α}, 0 < a → (a == b) = true → a = b)

include hbeq

theorem sigma_eq_of_validateUpdate {s old : Settings α} (h : s.validateUpdate old = .ok ()) :
    s.sigma = old.sigma := by
  obtain ⟨hlegal, hsigma, -⟩ := (Settings.validateUpdate_eq_ok_iff s old).mp h
  exact hbeq ((Settings.validate_eq_ok_iff s).mp hlegal).2.1 hsigma

theorem updateSettings_outcome (h : S.Filled) (settings : Settings α) :
    Outcome S (S.updateSettings settings) := by
  unfold updateSettings
  split
  · exact .refused rfl
  · rename_i hvalid
    have hlegal := Settings.validate_of_validateUpdate hvalid
    have hsigma := sigma_eq_of_validateUpdate hbeq hvalid
    split
    · exact Prepared.outcome
        ⟨hlegal, h.samePattern, h.system.withRho _, h.tuned.withRho _⟩
    · exact .kept ⟨hlegal, hsigma, rfl, rfl, rfl, rfl, rfl, h.tuned⟩

theorem call_outcome (env : Environment α) (h : S.Filled) {c : SessionCall α} (hc : c ≠ .solve) :
    Outcome S (S.call env c) := by
  cases c with
  | solve => exact absurd rfl hc
  | updateVectors q l u => exact updateVectors_outcome h q l u
  | updateMatrices Px PxIdx Ax AxIdx => exact updateMatrices_outcome h Px PxIdx Ax AxIdx
  | warmStart x y => exact warmStart_outcome h x y
  | updateSettings settings => exact updateSettings_outcome hbeq h settings

end Settings

theorem Outcome.filled (h : S.Filled) {r : Except EngineError Unit × Session α n m}
    (hr : Outcome S r) : r.2.Filled := by
  cases hr with
  | refused _ => exact h
  | kept hkeeps => exact h.keeps hkeeps
  | factored hprepared hsame => exact hprepared.factorSystem.congr hsame

theorem solve_filled (env : Environment α) (h : S.Filled) : (S.solve env).2.Filled :=
  solve_preserves (fun hsame hS => hS.congr hsame) (fun hS => (hS.adopt _).factorSystem) env h

theorem unfactored_system {env : Environment α} {D : Instance α n m} {settings : Settings α}
    (h : unfactored env D settings = .ok S) :
    S.system.Prepared S.data.work.P S.data.work.A ∧
      S.system.Tuned S.data.work.l S.data.work.u S.rho := by
  obtain ⟨-, -, hrho, L, hL, hsystem⟩ := unfactored_eq_ok h
  rw [hsystem, hrho]
  exact ⟨((LinearSystem.new_prepared hL).classify _ _).withRho _, .classify _ _ _ _⟩

theorem unfactored_prepared {env : Environment α} {D : Instance α n m} {settings : Settings α}
    (hlegal : settings.validate = .ok ()) (h : unfactored env D settings = .ok S) :
    S.Prepared where
  legal := (unfactored_eq_ok h).2.1 ▸ hlegal
  samePattern := (unfactored_eq_ok h).1 ▸ Problem.equilibrate_samePattern _ _
  system := (unfactored_system h).1
  tuned := (unfactored_system h).2

/-- A setup ends with a factorisation. -/
theorem setup_factored {env : Environment α} {D : QpData α} {settings : Settings α}
    {S : AdmmSession α} (h : AdmmSession.setup env D settings = .ok S) :
    ∃ U : Session α S.n S.m, U.Prepared ∧ U.factorSystem = (.ok (), S.session) := by
  obtain ⟨hlegal, I, -, -, hI⟩ := AdmmSession.setup_eq_ok h
  obtain ⟨U, hU, hfactor⟩ := setup_eq_ok_iff.mp hI
  exact ⟨U, unfactored_prepared hlegal hU, hfactor⟩

theorem setup_filled {env : Environment α} {D : QpData α} {settings : Settings α}
    {S : AdmmSession α} (h : AdmmSession.setup env D settings = .ok S) : S.session.Filled := by
  obtain ⟨U, hprepared, hfactor⟩ := setup_factored h
  have hfilled := hprepared.factorSystem
  rwa [hfactor] at hfilled

/-- Whatever calls a session has seen, accepted or not, its linear system is that of
its data. -/
theorem Reachable.filled (hbeq : ∀ {a b : α}, 0 < a → (a == b) = true → a = b)
    (h : S.Reachable) : S.Filled := by
  induction h with
  | setup hsetup => exact setup_filled hsetup
  | call env c _ ih =>
    by_cases hc : c = .solve
    · subst hc
      exact solve_filled env ih
    · exact (call_outcome hbeq env ih hc).filled ih

end Session
end QuadOpt
