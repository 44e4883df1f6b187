/-
# What a setup takes for convex

The quadratic form of the matrix of the linear system,

    [ P + σ I     Aᵀ  ]
    [    A      -R⁻¹  ]

is, once the square in the multipliers is completed, that of `P + σ I + Aᵀ R A` less a sum
of squares. So its factors have no more positive pivots than there are variables, and as
many iff `P + σ I + Aᵀ R A` is positive definite. This is what a session is tested for,
and not `P`: an objective that is not convex is accepted if the regularisation and the
rows, which are weighted by their step sizes, make up for it.

Key definitions: `augmentedForm`, `Problem.Definite`.
Key theorems: `dotProduct_kktMatrix`, `Session.Filled.ready_iff_definite`,
`Problem.Scaled.definite_iff`, `Session.steps_definite`.
-/
import Mathlib.Data.Matrix.ColumnRowPartitioned
import QuadOpt.Proofs.Admm.Convex
import QuadOpt.Proofs.Ldl.Inertia

namespace QuadOpt

open Matrix

variable {K : Type} [Field K] {n m : Nat}

/-! ### Completing the square -/

/-- The quadratic form of `P + δ I + Aᵀ diag(ρ) A`. -/
def augmentedForm (P : Matrix (Fin n) (Fin n) K) (A : Matrix (Fin m) (Fin n) K) (δ : K)
    (ρ : Fin m → K) (x : Fin n → K) : K :=
  x ⬝ᵥ P *ᵥ x + ∑ j, δ * x j ^ 2 + ∑ i, ρ i * (A *ᵥ x) i ^ 2

variable {P : Matrix (Fin n) (Fin n) K} {A : Matrix (Fin m) (Fin n) K} {δ₁ : K}
  {δ₂ ρ : Fin m → K}

/-- For a given `x` the form is largest in `y` at `diag(ρ) A x`. -/
theorem dotProduct_kktMatrix (hρ : ∀ i, ρ i * δ₂ i = 1) (x : Fin n → K) (y : Fin m → K) :
    Sum.elim x y ⬝ᵥ kktMatrix P A δ₁ δ₂ *ᵥ Sum.elim x y
      = augmentedForm P A δ₁ ρ x - ∑ i, δ₂ i * (y i - ρ i * (A *ᵥ x) i) ^ 2 := by
  have hcross : ∑ j, x j * (Aᵀ *ᵥ y) j = ∑ i, y i * (A *ᵥ x) i :=
    dotProduct_transpose_mulVec A x y
  have hshift : ∑ j, x j * (δ₁ * x j) = ∑ j, δ₁ * x j ^ 2 :=
    Finset.sum_congr rfl fun j _ => by ring
  have hsquare : ∀ i, δ₂ i * (y i - ρ i * (A *ᵥ x) i) ^ 2
      = y i * (δ₂ i * y i) - 2 * (y i * (A *ᵥ x) i) + ρ i * (A *ᵥ x) i ^ 2 := fun i => by
    linear_combination (ρ i * (A *ᵥ x) i ^ 2 - 2 * y i * (A *ᵥ x) i) * hρ i
  simp only [dotProduct, augmentedForm, Fintype.sum_sum_type, Sum.elim_inl, Sum.elim_inr,
    kktMatrix_mulVec_inl, kktMatrix_mulVec_inr, mul_add, mul_sub, Finset.sum_add_distrib,
    Finset.sum_sub_distrib, hcross, hshift, hsquare, ← Finset.mul_sum]
  ring

theorem augmentedForm_smul (t : K) (x : Fin n → K) :
    augmentedForm P A δ₁ ρ (t • x) = t ^ 2 * augmentedForm P A δ₁ ρ x := by
  simp only [augmentedForm, mulVec_smul, smul_dotProduct, dotProduct_smul, Pi.smul_apply,
    smul_eq_mul, mul_add, Finset.mul_sum]
  congr 1
  · congr 1
    · ring
    · exact Finset.sum_congr rfl fun j _ => by ring
  · exact Finset.sum_congr rfl fun i _ => by ring

/-! ### Counting pivots -/

/-- The form of a matrix along directions that are numbered otherwise than its rows. -/
theorem dotProduct_submatrix_mulVec {ι κ ν : Type} [Fintype ι] [Fintype κ] [Fintype ν] (e : κ ≃ ι)
    (M : Matrix ι ι K) (B : Matrix κ ν K) (w : ν → K) :
    (B.submatrix e.symm id *ᵥ w) ⬝ᵥ M *ᵥ (B.submatrix e.symm id *ᵥ w)
      = (B *ᵥ w) ⬝ᵥ M.submatrix e e *ᵥ (B *ᵥ w) := by
  have hB : B.submatrix e.symm id *ᵥ w = (B *ᵥ w) ∘ e.symm := rfl
  rw [hB, submatrix_mulVec_equiv, ← comp_equiv_symm_dotProduct]

namespace Ldl.Factorises

variable [LinearOrder K] [ExactScalar K] [IsStrictOrderedRing K] {F : Ldl K (n + m)}
  {M : Matrix (Fin (n + m)) (Fin (n + m)) K} (h : F.Factorises M)
  (hM : M.submatrix finSumFinEquiv finSumFinEquiv = kktMatrix P A δ₁ δ₂)
  (hρ : ∀ i, ρ i * δ₂ i = 1)

include h hM hρ

omit [ExactScalar K] in
/-- There is a positive pivot for each variable if `P + δ₁ I + Aᵀ diag(ρ) A` is positive
definite. -/
theorem le_positive (hdefinite : ∀ x ≠ 0, 0 < augmentedForm P A δ₁ ρ x) : n ≤ F.positive := by
  have hcount := h.card_le_positive
    ((fromRows 1 (diagonal ρ * A)).submatrix finSumFinEquiv.symm id) fun w hw => by
      rw [dotProduct_submatrix_mulVec, hM, fromRows_mulVec, dotProduct_kktMatrix hρ, one_mulVec]
      simpa [← mulVec_mulVec, mulVec_diagonal] using hdefinite w hw
  rwa [Fintype.card_fin] at hcount

/-- There are that many pivots fewer than variables as there are directions in which
`P + δ₁ I + Aᵀ diag(ρ) A` is not positive. -/
theorem card_add_positive_le_of_augmented (hfactored : F.isFactored = true) (hδ₂ : ∀ i, 0 ≤ δ₂ i)
    {ι : Type} [Fintype ι] (X : Matrix (Fin n) ι K) (hX : ∀ w, X *ᵥ w = 0 → w = 0)
    (hnonpos : ∀ w, augmentedForm P A δ₁ ρ (X *ᵥ w) ≤ 0) : Fintype.card ι + F.positive ≤ n := by
  classical
  -- Each of these directions is put where the form is largest, and any multipliers added.
  let B : Matrix (Fin n ⊕ Fin m) (ι ⊕ Fin m) K := fromBlocks X 0 (diagonal ρ * A * X) 1
  have hB : ∀ w, B *ᵥ w = Sum.elim (X *ᵥ w ∘ Sum.inl)
      fun i => ρ i * (A *ᵥ (X *ᵥ w ∘ Sum.inl)) i + w (.inr i) := by
    intro w
    funext k
    cases k <;> simp [B, fromBlocks_mulVec, ← mulVec_mulVec, mulVec_diagonal]
  have hcount := h.card_add_positive_le hfactored (B.submatrix finSumFinEquiv.symm id)
    (fun w hw => ?_) fun w => ?_
  · rw [Fintype.card_sum, Fintype.card_fin] at hcount
    omega
  · have hrows : ∀ k, (B *ᵥ w) k = 0 := fun k => by
      have hk : (B *ᵥ w) (finSumFinEquiv.symm (finSumFinEquiv k)) = 0 :=
        congrFun hw (finSumFinEquiv k)
      rwa [Equiv.symm_apply_apply] at hk
    simp only [hB] at hrows
    have hx : w ∘ Sum.inl = 0 := hX _ (funext fun j => hrows (.inl j))
    funext k
    cases k with
    | inl k => exact congrFun hx k
    | inr i => simpa [hx] using hrows (.inr i)
  · rw [dotProduct_submatrix_mulVec, hM, hB, dotProduct_kktMatrix hρ]
    have hsquares : 0 ≤ ∑ i, δ₂ i * w (.inr i) ^ 2 :=
      Finset.sum_nonneg fun i _ => mul_nonneg (hδ₂ i) (sq_nonneg _)
    simpa using (hnonpos (w ∘ Sum.inl)).trans hsquares

/-- The pivots tell whether `P + δ₁ I + Aᵀ diag(ρ) A` is positive definite. -/
theorem positive_eq_iff (hfactored : F.isFactored = true) (hδ₂ : ∀ i, 0 ≤ δ₂ i) :
    F.positive = n ↔ ∀ x ≠ 0, 0 < augmentedForm P A δ₁ ρ x := by
  have hle : F.positive ≤ n := by
    have := h.card_add_positive_le_of_augmented hM hρ hfactored hδ₂
      (0 : Matrix (Fin n) (Fin 0) K) (fun w _ => Subsingleton.elim w 0)
      fun w => by simp [augmentedForm]
    simpa using this
  constructor
  · intro hpositive x hx
    by_contra hform
    have hline : ∀ w : Unit → K, (of fun j (_ : Unit) => x j) *ᵥ w = w () • x := by
      intro w
      funext j
      simp [mulVec, dotProduct, mul_comm]
    have hcount := h.card_add_positive_le_of_augmented hM hρ hfactored hδ₂
      (of fun j (_ : Unit) => x j) (fun w hw => ?_) fun w => ?_
    · rw [Fintype.card_unit, hpositive] at hcount
      omega
    · rw [hline, smul_eq_zero_iff_left hx] at hw
      exact funext fun _ => hw
    · rw [hline, augmentedForm_smul]
      exact mul_nonpos_of_nonneg_of_nonpos (sq_nonneg _) (not_lt.mp hform)
  · exact fun hdefinite => le_antisymm hle (h.le_positive hM hρ hdefinite)

end Ldl.Factorises

/-! ### Problems -/

variable [LinearOrder K] [ExactScalar K] [IsStrictOrderedRing K]

namespace Problem

/-- The step size of a constraint if the common one is `t`. -/
def weight (D : Problem K n m) (t : K) (i : Fin m) : K :=
  (ConstraintKind.classify (D.work.l.get i) (D.work.u.get i)).rho t

/-- The quadratic form of `P + σ I + Aᵀ R A` for the working data. -/
def augmented (D : Problem K n m) (sigma t : K) (x : Fin n → K) : K :=
  augmentedForm (D.work.P.csc.mirror n) (D.work.A.csc.toMatrix m n) sigma (D.weight t) x

/-- `P + σ I + Aᵀ R A` is positive definite for the working data. -/
def Definite (D : Problem K n m) (sigma t : K) : Prop :=
  ∀ x ≠ 0, 0 < D.augmented sigma t x

/-- What is tested, in the coordinates of the user. -/
theorem Scaled.definite_iff {D : Problem K n m} (h : D.Scaled) {sigma t : K} :
    D.Definite sigma t ↔ ∀ x : Fin n → K, x ≠ 0 →
      0 < D.scaling.c * (x ⬝ᵥ D.user.P.csc.mirror n *ᵥ x)
        + ∑ j, sigma * (x j / D.scaling.d.get j) ^ 2
        + ∑ i, D.weight t i * (D.scaling.e.get i * (D.user.A.csc.toMatrix m n *ᵥ x) i) ^ 2 := by
  have hd : ∀ j, D.scaling.d.get j ≠ 0 := fun j => (h.d_pos j).ne'
  have hform : ∀ x : Fin n → K,
      D.augmented sigma t x
        = D.scaling.c * ((fun j => x j * D.scaling.d.get j) ⬝ᵥ
            D.user.P.csc.mirror n *ᵥ fun j => x j * D.scaling.d.get j)
          + ∑ j, sigma * (x j * D.scaling.d.get j / D.scaling.d.get j) ^ 2
          + ∑ i, D.weight t i * (D.scaling.e.get i
            * (D.user.A.csc.toMatrix m n *ᵥ fun j => x j * D.scaling.d.get j) i) ^ 2 := by
    intro x
    simp only [augmented, augmentedForm, h.A_mulVec, mul_div_cancel_right₀ _ (hd _)]
    congr 2
    simp only [dotProduct, h.P_mulVec, Finset.mul_sum]
    exact Finset.sum_congr rfl fun j _ => by ring
  constructor
  · intro hdefinite x hx
    have hback : (fun j => x j / D.scaling.d.get j * D.scaling.d.get j) = x :=
      funext fun j => div_mul_cancel₀ _ (hd j)
    have hne : (fun j => x j / D.scaling.d.get j) ≠ 0 := by
      intro hzero
      apply hx
      rw [← hback]
      funext j
      rw [congrFun hzero j, Pi.zero_apply, zero_mul]
    have hpos := hdefinite _ hne
    rw [hform, hback] at hpos
    simpa only [div_mul_cancel₀ _ (hd _)] using hpos
  · intro hall x hx
    rw [hform]
    refine hall _ fun hzero => hx (funext fun j => ?_)
    exact (mul_eq_zero.mp (congrFun hzero j)).resolve_right (hd j)

end Problem

/-- `P + σ I + Aᵀ R A` is positive definite for the data as a setup scales them. -/
def Instance.Definite (D : Instance K n m) (settings : Settings K) : Prop :=
  ((Problem.ofInstance D).equilibrate settings.scaling.toNat).Definite settings.sigma settings.rho

/-! ### Sessions -/

namespace Session

variable {S : Session K n m} {env : Environment K}

omit [IsStrictOrderedRing K] in
theorem Sound.rho_get (h : S.Sound) (i : Fin m) : S.system.rho.get i = S.data.weight S.rho i := by
  rw [h.tuned.rho, Vec.get_map, h.tuned.kinds]
  exact congrArg _ (Vec.get_ofFn _ i)

/-- Whether a session that has valid factors is ready depends on its data, its
regularisation and its step size only. -/
theorem Filled.ready_iff_definite (hfilled : S.Filled) (hsound : S.Sound)
    (hfactored : S.system.ldl.isFactored = true) :
    S.Ready ↔ S.data.Definite S.settings.sigma S.rho := by
  have hkkt := fillKkt_isKkt (A := S.data.work.A) S.data.work.P S.settings.sigma S.system.rhoInv
    S.data.work.upper
  rw [← hfilled.system.pattern, ← hfilled.filled] at hkkt
  have hweights := hsound.weighted
  have hiff := (hfilled.factorises hfactored).positive_eq_iff hkkt.mirror_eq
    (ρ := S.system.rho.get) hweights.rho_mul_rhoInv hfactored
    fun i => (hweights.rhoInv_pos i).le
  rw [funext hsound.rho_get] at hiff
  exact ⟨fun hready => hiff.mp hready.2, fun hdefinite => ⟨hfactored, hiff.mpr hdefinite⟩⟩

theorem Ready.definite (hready : S.Ready) (hfilled : S.Filled) (hsound : S.Sound) :
    S.data.Definite S.settings.sigma S.rho :=
  (hfilled.ready_iff_definite hsound hready.1).mp hready

/-- What the outcome of a factorisation says. -/
theorem Prepared.factorSystem_definite (h : S.Prepared) (hsound : S.Sound) :
    (S.factorSystem.1 = .ok () → S.data.Definite S.settings.sigma S.rho) ∧
      (S.factorSystem.1 = .error .nonConvex → ¬S.data.Definite S.settings.sigma S.rho) := by
  have hfilled := h.factorSystem
  have hafter := (factorSystem_continues hsound).sound
  have hready := h.ready_iff
  obtain ⟨hdata, hsettings, -, hrho⟩ := S.factorSystem_sameCore
  simp only at hdata hsettings hrho
  rw [← hdata, ← hsettings, ← hrho]
  refine ⟨fun hok => (hready.mpr hok).definite hfilled hafter, fun herror hdefinite => ?_⟩
  have hfactored : S.factorSystem.2.system.ldl.isFactored = true := by
    rcases S.factorSystem_cases with ⟨-, hresult⟩ | ⟨k, hk, -, hresult⟩ | ⟨e, -, hresult⟩
    · rw [hresult] at herror
      cases herror
    · rw [hresult]
      rw [(h.system.factor_eq _).2] at hk ⊢
      exact (Ldl.factor_of_eq_ok hk).1
    · rw [hresult] at herror
      cases herror
  have hok := hready.mp ((hfilled.ready_iff_definite hafter hfactored).mpr hdefinite)
  rw [hok] at herror
  cases herror

/-- A setup fails to analyse the system, or factors it. -/
theorem setup_cases {α : Type} [Scalar α] (env : Environment α) (D : Instance α n m)
    (settings : Settings α) :
    (∃ e, setup env D settings = .error (.linearSystem e)) ∨
      ∃ U, unfactored env D settings = .ok U ∧
        setup env D settings = U.factorSystem.1.map fun _ => U.factorSystem.2 := by
  unfold setup
  cases unfactored env D settings with
  | error e => exact .inl ⟨e, rfl⟩
  | ok U =>
    refine .inr ⟨U, rfl, ?_⟩
    simp only
    cases U.factorSystem with
    | mk r T => cases r <;> rfl

/-- What the outcome of a setup says. -/
theorem setup_definite (env : Environment K) (D : Instance K n m) {settings : Settings K}
    (hlegal : settings.validate = .ok ()) :
    (∃ T, setup env D settings = .ok T ∧ D.Definite settings) ∨
      (setup env D settings = .error .nonConvex ∧ ¬D.Definite settings) ∨
      ∃ e, setup env D settings = .error (.linearSystem e) := by
  rcases setup_cases env D settings with hanalysed | ⟨U, hU, hsetup⟩
  · exact .inr (.inr hanalysed)
  · obtain ⟨hdata, hsettings, hrho, -⟩ := unfactored_eq_ok hU
    obtain ⟨hok, herror⟩ :=
      (unfactored_prepared hlegal hU).factorSystem_definite (unfactored_sound hlegal hU)
    rw [hdata, hsettings, hrho] at hok herror
    rcases U.factorSystem_cases with ⟨-, hresult⟩ | ⟨_, -, -, hresult⟩ | ⟨e, -, hresult⟩
    · exact .inl ⟨_, by rw [hsetup, hresult]; rfl, hok (by rw [hresult])⟩
    · exact .inr (.inl ⟨by rw [hsetup, hresult]; rfl, herror (by rw [hresult])⟩)
    · exact .inr (.inr ⟨e, by rw [hsetup, hresult]; rfl⟩)

/-- A solve takes its steps from sound sessions. -/
theorem Sound.of_mem_steppedFrom (h : S.Sound) (env : Environment K) :
    ∀ U ∈ S.steppedFrom env, U.Sound := by
  refine mem_iterateTraced (p := Sound) (q := fun _ _ => True)
    (fun hsame hS => hS.congr hsame.data hsame.settings hsame.system hsame.rho)
    (fun {S} hS => ⟨fun {T} hT => ?_, fun _ => trivial⟩) env S.settings _ _ _
    (h.congr (begin_sameCore S).data (begin_sameCore S).settings (begin_sameCore S).system
      (begin_sameCore S).rho)
  have hsound := (factorSystem_continues hS.adopt).sound
  rwa [hT] at hsound

theorem Intact.definite (h : S.Intact) : S.data.Definite S.settings.sigma S.rho := by
  have hfilled : S.Filled := h.reachable.filled fun _ heq => eq_of_beq heq
  have hready : S.Ready := h.ready fun _ heq => eq_of_beq heq
  exact hready.definite hfilled h.reachable.sound

/-- A setup does not succeed for valid data and legal settings if `P + σ I + Aᵀ R A` is not
positive definite for the data once they are scaled, and says that the problem is not
convex for no other. As long as no call of a session has failed but by refusing its input,
every step that a solve takes is for data and a step size for which this matrix is
positive definite. -/
theorem steps_definite :
    (∀ (env : Environment K) (D : QpData K) (settings : Settings K) {I : Instance K D.A.n D.A.m},
      D.validate = .ok I → settings.validate = .ok () →
      (¬I.Definite settings → AdmmSession.setup env D settings = .error .nonConvex ∨
        ∃ e, AdmmSession.setup env D settings = .error (.linearSystem e)) ∧
      (AdmmSession.setup env D settings = .error .nonConvex → ¬I.Definite settings)) ∧
    ∀ {n m : Nat} {S : Session K n m} (env : Environment K), S.Intact →
      S.data.Definite S.settings.sigma S.rho ∧ ∀ U ∈ S.steppedFrom env,
        U.data = S.data ∧ U.settings = S.settings ∧ U.data.Definite U.settings.sigma U.rho := by
  refine ⟨fun env D settings {I} hvalid hlegal => ?_,
    fun {n m S} env h => ⟨h.definite, fun U hU => ?_⟩⟩
  · obtain ⟨hdata, hacceptable⟩ := QpData.validate_eq_ok_iff.mp hvalid
    have hsetup : AdmmSession.setup env D settings
        = (setup env I settings).map fun S => ⟨_, _, S⟩ := by
      have hI := AdmmSession.setup_toQpData env hacceptable hlegal
      rwa [hdata] at hI
    rcases setup_definite env I hlegal with ⟨T, hT, hdefinite⟩ | ⟨hT, hnot⟩ | ⟨e, hT⟩
    · rw [hsetup, hT]
      exact ⟨fun hnot => absurd hdefinite hnot, nofun⟩
    · rw [hsetup, hT]
      exact ⟨fun _ => .inl rfl, fun _ => hnot⟩
    · rw [hsetup, hT]
      exact ⟨fun _ => .inr ⟨e, rfl⟩, nofun⟩
  · have hlike := (h.steps_ready (fun _ heq => eq_of_beq heq) env).1 U hU
    exact ⟨hlike.data, hlike.settings,
      hlike.ready.definite hlike.filled (h.reachable.sound.of_mem_steppedFrom env U hU)⟩

end Session

/-- Minimise `½ a x²` for an `x` between two numbers. -/
def curvedProblem (a l u : ℚ) : QpData ℚ where
  P := ⟨1, 1, #[0, 1], #[0], #[a]⟩
  q := #[0]
  A := ⟨1, 1, #[0, 1], #[0], #[1]⟩
  l := #[l]
  u := #[u]

namespace Session

/-- A row of weight `1` does not make up for a curvature of `-2`, but for one of `-1`. -/
theorem steps_definite_curvedProblem :
    (∃ I, (curvedProblem (-2) (-1) 1).validate = .ok I ∧ ¬I.Definite plainSettings ∧
      (AdmmSession.setup (.still ℚ) (curvedProblem (-2) (-1) 1) plainSettings
          = .error .nonConvex ∨
        ∃ e, AdmmSession.setup (.still ℚ) (curvedProblem (-2) (-1) 1) plainSettings
          = .error (.linearSystem e))) ∧
    ∃ S, AdmmSession.setup (.still ℚ) (curvedProblem (-1) (-1) 1) plainSettings = .ok S ∧
      S.session.steppedFrom (.still ℚ) ≠ [] ∧
      ∀ U ∈ S.session.steppedFrom (.still ℚ), U.data.Definite U.settings.sigma U.rho := by
  obtain ⟨hsetup, hsteps⟩ := steps_definite (K := ℚ)
  have hvalid : (match (curvedProblem (-2) (-1) 1).validate with
      | .error _ => false
      | .ok I => decide (((Problem.ofInstance I).equilibrate plainSettings.scaling.toNat).augmented
          plainSettings.sigma plainSettings.rho (fun _ => 1) < 0)) = true := by
    decide +kernel
  have haccepted : (match AdmmSession.setup (.still ℚ) (curvedProblem (-1) (-1) 1)
        plainSettings with
      | .error _ => false
      | .ok S => !(S.session.steppedFrom (.still ℚ)).isEmpty) = true := by
    decide +kernel
  split at hvalid
  · cases hvalid
  · rename_i I hI
    split at haccepted
    · cases haccepted
    · rename_i S hS
      have hnot : ¬I.Definite plainSettings := by
        intro hdefinite
        have hpos := hdefinite (fun _ => 1) fun h => one_ne_zero (congrFun h ⟨0, Nat.one_pos⟩)
        exact absurd hpos (not_lt.mpr (of_decide_eq_true hvalid).le)
      have hrefused := (hsetup (.still ℚ) _ plainSettings hI (by decide +kernel)).1 hnot
      refine ⟨⟨I, hI, hnot, hrefused⟩, S, hS, ?_, fun U hU => ?_⟩
      · simpa using haccepted
      · exact ((hsteps (.still ℚ) (.setup hS)).2 U hU).2.2

/-- A row whose bounds are equal makes up for any curvature that is smaller than its weight:
a problem that is not convex is set up and solved. -/
theorem exists_solved_nonconvex : ∃ (I : Instance ℚ 1 1) (S : AdmmSession ℚ),
    (curvedProblem (-1) 0 0).validate = .ok I ∧ ¬I.Convex ∧
    plainSettings.validate = .ok () ∧
    AdmmSession.setup (.still ℚ) (curvedProblem (-1) 0 0) plainSettings = .ok S ∧
    (S.session.call (.still ℚ) .solve).1 = .ok () ∧
    (S.session.call (.still ℚ) .solve).2.info.status = .solved := by
  have hvalid : (match (curvedProblem (-1) 0 0).validate with
      | .error _ => false
      | .ok I =>
        let x : Fin 1 → ℚ := fun _ => 1
        decide (x ⬝ᵥ I.P.csc.mirror 1 *ᵥ x < 0)) = true := by
    decide +kernel
  have hrun : (match AdmmSession.setup (.still ℚ) (curvedProblem (-1) 0 0) plainSettings with
      | .error _ => false
      | .ok S =>
        let r := S.session.call (.still ℚ) .solve
        decide (r.1 = .ok ()) && decide (r.2.info.status = .solved)) = true := by
    decide +kernel
  split at hvalid
  · cases hvalid
  · rename_i I hI
    split at hrun
    · cases hrun
    · rename_i S hS
      simp only [Bool.and_eq_true, decide_eq_true_eq] at hrun
      exact ⟨I, S, hI, fun hconvex => absurd (hconvex fun _ => 1)
        (not_le.mpr (of_decide_eq_true hvalid)), by decide +kernel, hS, hrun.1, hrun.2⟩

end Session
end QuadOpt
