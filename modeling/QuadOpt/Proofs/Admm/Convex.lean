/-
# Convex problems are always factored

If the objective matrix is positive semidefinite, scaling keeps it so, and the matrix
of the linear system

    [ P + σ I     Aᵀ  ]
    [    A      -R⁻¹  ]

has a quadratic form that is positive once the rows of the constraints are negated. So
in exact arithmetic it is factored in any elimination order, with a positive pivot for
each variable: setup succeeds for valid data, a session of a convex problem is always
ready to solve, and its calls fail only if they refuse their input.

Key definitions: `Instance.Convex`, `Environment.Permutes`.
Key theorems: `kktMatrix_signDefinite`, `LinearSystem.Prepared.factor_of_convex`,
`Session.Reachable.ready_of_convex`, `Session.succeeds_of_convex`.
-/
import QuadOpt.Proofs.Admm.Current
import QuadOpt.Proofs.Admm.Ready

namespace QuadOpt

open Matrix

variable {K : Type} [Field K] [LinearOrder K] [IsStrictOrderedRing K] {n m : Nat}

/-! ### The quadratic form -/

/-- The objective is convex: its matrix is positive semidefinite. -/
def Instance.Convex (D : Instance K n m) : Prop :=
  ∀ x : Fin n → K, 0 ≤ x ⬝ᵥ D.P.csc.mirror n *ᵥ x

/-- Scaling keeps the objective convex. -/
theorem Problem.Scaled.work_convex {D : Problem K n m} (h : D.Scaled) (hconvex : D.user.Convex) :
    D.work.Convex := by
  intro x
  have hform : x ⬝ᵥ D.work.P.csc.mirror n *ᵥ x = D.scaling.c *
      ((fun j => D.scaling.d.get j * x j) ⬝ᵥ
        D.user.P.csc.mirror n *ᵥ fun j => D.scaling.d.get j * x j) := by
    simp only [dotProduct, mulVec, h.work_mirror, Finset.mul_sum]
    exact Finset.sum_congr rfl fun i _ => Finset.sum_congr rfl fun j _ => by ring
  rw [hform]
  exact mul_nonneg h.c_pos.le (hconvex _)

/-- The rows of the variables are positive, and those of the constraints negative. -/
def rowSign : Fin n ⊕ Fin m → K := Sum.elim (fun _ => 1) fun _ => -1

omit [LinearOrder K] [IsStrictOrderedRing K] in
/-- The cross terms of the two blocks cancel. -/
theorem sum_rowSign (P : Matrix (Fin n) (Fin n) K) (A : Matrix (Fin m) (Fin n) K) (δ₁ : K)
    (δ₂ : Fin m → K) (x : Fin n → K) (y : Fin m → K) :
    ∑ i, rowSign i * (Sum.elim x y i * (kktMatrix P A δ₁ δ₂ *ᵥ Sum.elim x y) i)
      = x ⬝ᵥ P *ᵥ x + ∑ j, δ₁ * x j ^ 2 + ∑ i, δ₂ i * y i ^ 2 := by
  have hcross : ∑ j, x j * (Aᵀ *ᵥ y) j = ∑ i, y i * (A *ᵥ x) i :=
    dotProduct_transpose_mulVec A x y
  rw [Fintype.sum_sum_type]
  simp only [rowSign, Sum.elim_inl, Sum.elim_inr, kktMatrix_mulVec_inl, kktMatrix_mulVec_inr,
    one_mul, mul_add, mul_sub, neg_mul, Finset.sum_add_distrib, Finset.sum_sub_distrib,
    Finset.sum_neg_distrib, hcross, dotProduct]
  have hfirst : ∑ j, x j * (δ₁ * x j) = ∑ j, δ₁ * x j ^ 2 :=
    Finset.sum_congr rfl fun j _ => by ring
  have hsecond : ∑ i, y i * (δ₂ i * y i) = ∑ i, δ₂ i * y i ^ 2 :=
    Finset.sum_congr rfl fun i _ => by ring
  rw [hfirst, hsecond]
  ring

/-- A semidefinite objective and positive weights make the form positive. -/
theorem kktMatrix_signDefinite {P : Matrix (Fin n) (Fin n) K} {A : Matrix (Fin m) (Fin n) K}
    {δ₁ : K} {δ₂ : Fin m → K} (hP : ∀ x, 0 ≤ x ⬝ᵥ P *ᵥ x) (hδ₁ : 0 < δ₁) (hδ₂ : ∀ i, 0 < δ₂ i) :
    SignDefinite rowSign (kktMatrix P A δ₁ δ₂) := by
  intro v hv
  obtain ⟨x, y, rfl⟩ : ∃ x y, v = Sum.elim x y :=
    ⟨v ∘ .inl, v ∘ .inr, (Sum.elim_comp_inl_inr v).symm⟩
  have hx : ∀ j, 0 ≤ δ₁ * x j ^ 2 := fun j => mul_nonneg hδ₁.le (sq_nonneg _)
  have hy : ∀ i, 0 ≤ δ₂ i * y i ^ 2 := fun i => mul_nonneg (hδ₂ i).le (sq_nonneg _)
  have hform := hP x
  rw [sum_rowSign]
  obtain ⟨k, hk⟩ := Function.ne_iff.mp hv
  cases k with
  | inl j =>
    have hj : 0 < ∑ j, δ₁ * x j ^ 2 :=
      Finset.sum_pos' (fun j _ => hx j) ⟨j, Finset.mem_univ j, mul_pos hδ₁ (sq_pos_of_ne_zero hk)⟩
    have hrest : 0 ≤ ∑ i, δ₂ i * y i ^ 2 := Finset.sum_nonneg fun i _ => hy i
    linarith
  | inr i =>
    have hi : 0 < ∑ i, δ₂ i * y i ^ 2 :=
      Finset.sum_pos' (fun i _ => hy i) ⟨i, Finset.mem_univ i, mul_pos (hδ₂ i) (sq_pos_of_ne_zero hk)⟩
    have hrest : 0 ≤ ∑ j, δ₁ * x j ^ 2 := Finset.sum_nonneg fun j _ => hx j
    linarith

/-- There is a positive row for each variable. -/
theorem card_rowSign_pos :
    (Finset.univ.filter fun k => 0 < (rowSign ∘ finSumFinEquiv.symm : Fin (n + m) → K) k).card
      = n := by
  rw [Finset.card_filter, ← Equiv.sum_comp finSumFinEquiv, Fintype.sum_sum_type]
  simp [rowSign, not_lt.mpr (zero_le_one' K)]

/-! ### Factorisations -/

variable [ExactScalar K]

/-- Whatever the elimination order, there is a positive pivot for each variable. -/
theorem LinearSystem.Prepared.factor_of_convex {L : LinearSystem K n m} {D : Instance K n m}
    (h : L.Prepared D.P D.A) (hconvex : D.Convex) {sigma : K} (hsigma : 0 < sigma)
    (hrhoInv : ∀ i, 0 < L.rhoInv.get i) : (L.factor D.P D.A sigma).2 = .ok n := by
  obtain ⟨hholds, hfactor⟩ := h.factor_eq sigma
  have hkkt := fillKkt_isKkt (A := D.A) D.P sigma L.rhoInv D.upper
  rw [← h.pattern] at hkkt
  have hsign : SignDefinite (rowSign ∘ finSumFinEquiv.symm)
      ((fillKkt L.pattern D.P.csc D.A.csc sigma L.rhoInv).mirror (n + m)) := by
    refine SignDefinite.of_submatrix finSumFinEquiv ?_
    rw [hkkt.mirror_eq, Function.comp_assoc, Equiv.symm_comp_self]
    exact kktMatrix_signDefinite hconvex hsigma hrhoInv
  rw [hfactor]
  have hcount := hholds.analysed.factor_of_signDefinite hsign
  rwa [card_rowSign_pos] at hcount

/-- Elimination orders are permutations. -/
def Environment.Permutes {α : Type} (env : Environment α) : Prop :=
  ∀ (M : Csc α) (p : Array Nat), env.ordering M = some p → p.toList.Perm (List.range M.n)

omit [Field K] [LinearOrder K] [IsStrictOrderedRing K] [ExactScalar K] in
/-- The pattern of valid matrices is analysed, as every column stores its diagonal. -/
theorem LinearSystem.exists_new {α : Type} [Scalar α] {env : Environment α}
    (hpermutes : env.Permutes) (D : Instance α n m) (hword : n + m + 1 < wordSize) :
    ∃ L, LinearSystem.new env.ordering D.P D.A = .ok L := by
  let M : Csc α := (assembleKkt n m D.P.csc D.A.csc).mapValues fun _ => 0
  have hcols : M.n = n + m := length_kktColumns _ _
  have horder : ∀ p, env.ordering M = some p → p.toList.Perm (List.range (n + m)) := by
    intro p hp
    have := hpermutes M p hp
    rwa [hcols] at this
  obtain ⟨F, hF⟩ : ∃ F : Ldl α (n + m), Ldl.analyse M (n + m) (env.ordering M) = .ok F :=
    Ldl.exists_analyse ((valid_assembleKkt D.P D.A D.upper).mapValues _) rfl hcols
      (isUpper_assembleKkt D.P D.A D.upper) (fun _ hk => start_lt_assembleKkt D.P D.A hk)
      hword horder
  exact exists_new_of_analyse rfl hF

/-! ### Setup -/

namespace Session

variable {S T U : Session K n m} {env : Environment K}

omit [IsStrictOrderedRing K] in
theorem exists_unfactored (hpermutes : env.Permutes) (hn : n ≤ arrayLimit) (hm : m ≤ arrayLimit)
    (D : Instance K n m) (settings : Settings K) : ∃ S, unfactored env D settings = .ok S := by
  have hword : n + m + 1 < wordSize := by
    simp only [arrayLimit, wordSize] at hn hm ⊢
    omega
  obtain ⟨L, hL⟩ := LinearSystem.exists_new hpermutes
    ((Problem.ofInstance D).equilibrate settings.scaling.toNat).work hword
  unfold unfactored
  simp only [hL, bind, Except.bind, pure, Except.pure]
  exact ⟨_, rfl⟩

/-- The first factorisation of a convex problem. -/
theorem factor_unfactored {D : Instance K n m} {settings : Settings K}
    (h : unfactored env D settings = .ok S) (hconvex : D.Convex) (hsigma : 0 < settings.sigma)
    (hrho : 0 < settings.rho) :
    (S.system.factor S.data.work.P S.data.work.A settings.sigma).2 = .ok n := by
  obtain ⟨hdata, -, hcommon, -⟩ := unfactored_eq_ok h
  obtain ⟨hprepared, htuned⟩ := unfactored_system h
  have hscaled : S.data.Scaled := hdata ▸ Problem.equilibrate_scaled _ _
  have huser : S.data.user.Convex := hdata ▸ hconvex
  exact hprepared.factor_of_convex (hscaled.work_convex huser) hsigma
    (htuned.weighted (hcommon ▸ hrho)).rhoInv_pos

/-! ### Sessions -/

/-- A factorisation of the system of a convex problem succeeds. -/
theorem Prepared.factorSystem_of_convex (h : S.Prepared) (hscaled : S.data.Scaled)
    (hrho : 0 < S.rho) (hconvex : S.data.user.Convex) : S.factorSystem.1 = .ok () := by
  have hsigma := ((Settings.validate_eq_ok_iff _).mp h.legal).2.1
  have hfactor := h.system.factor_of_convex (hscaled.work_convex hconvex) hsigma
    (h.tuned.weighted hrho).rhoInv_pos
  rcases S.factorSystem_cases with ⟨-, hresult⟩ | ⟨k, hk, hne, -⟩ | ⟨e, he, -⟩
  · rw [hresult]
  · rw [hfactor] at hk
    cases hk
    exact absurd rfl hne
  · rw [hfactor] at he
    cases he

/-- A solve that starts ready on a convex problem ends ready, and without an error. -/
theorem solve_of_convex (env : Environment K) (hfilled : S.Filled) (hsound : S.Sound)
    (hready : S.Ready) (hconvex : S.data.user.Convex) :
    (S.solve env).1 = .ok () ∧ (S.solve env).2.Ready := by
  obtain ⟨hok, herror⟩ := solve_induction (p := fun U => S.ReadyLike U ∧ U.Sound)
    (q := fun _ _ => False)
    (fun hsame hU => ⟨hU.1.congr hsame,
      hU.2.congr hsame.data hsame.settings hsame.system hsame.rho⟩)
    (fun hU hldl _ => by
      have hfactored := hU.1.ready.1
      rw [hldl] at hfactored
      cases hfactored)
    (fun {U} hU => by
      have hadopted := hU.2.adopt
      have hresult : (U.adopt U.estimateRho).factorSystem.1 = .ok () :=
        (hU.1.filled.adopt _).factorSystem_of_convex hadopted.scaled hadopted.rho_pos
          (show U.data.user.Convex by rwa [hU.1.data])
      refine ⟨fun {T} hT => ⟨hU.1.adopt.1 hT, ?_⟩, fun {e T} hT => ?_⟩
      · have hsound := (factorSystem_continues hadopted).sound
        rwa [hT] at hsound
      · rw [hT] at hresult
        cases hresult)
    env (S := S) ⟨⟨hready, hfilled, rfl, rfl⟩, hsound⟩
  cases hsolve : S.solve env with
  | mk r T =>
    cases r with
    | ok _ => exact ⟨rfl, (hok T hsolve).1.ready⟩
    | error e => exact (herror e T hsolve).elim

/-- Another call that leaves a convex problem has failed only if it refused its input. -/
theorem Outcome.of_convex {r : Except EngineError Unit × Session K n m} (hr : Outcome S r)
    (hsound : r.2.Sound) (hconvex : r.2.data.user.Convex)
    (hready : S.data.user.Convex → S.Ready) :
    (∀ e, r.1 = .error e → e.isRefusal = true) ∧ r.2.Ready := by
  cases hr with
  | refused he =>
    refine ⟨fun e' he' => ?_, hready hconvex⟩
    cases he'
    exact he
  | @kept T hkeeps =>
    have hbefore : S.data.user.Convex := by
      unfold Instance.Convex at hconvex ⊢
      rwa [← hkeeps.userP]
    refine ⟨fun e he => (by cases he), ?_⟩
    unfold Ready
    rw [hkeeps.system]
    exact hready hbefore
  | @factored U T hprepared hsame =>
    have hdata : T.data = U.data := hsame.data.trans U.factorSystem_sameCore.data
    have hrho : T.rho = U.rho := hsame.rho.trans U.factorSystem_sameCore.rho
    have hresult : U.factorSystem.1 = .ok () :=
      hprepared.factorSystem_of_convex (hdata ▸ hsound.scaled) (hrho ▸ hsound.rho_pos)
        (hdata ▸ hconvex)
    refine ⟨fun e he => ?_, (hprepared.ready_iff.mpr hresult).congr hsame⟩
    simp only [hresult] at he
    cases he

/-- What a call does that leaves a session with a convex problem. -/
theorem call_of_convex (env : Environment K) (hreachable : S.Reachable)
    (hready : S.data.user.Convex → S.Ready) (c : SessionCall K)
    (hconvex : (S.call env c).2.data.user.Convex) :
    (∀ e, (S.call env c).1 = .error e → e.isRefusal = true) ∧ (S.call env c).2.Ready := by
  have hfilled := hreachable.filled fun _ heq => eq_of_beq heq
  by_cases hc : c = .solve
  · subst hc
    have hbefore : S.data.user.Convex := by
      rwa [← (solve_continues env hreachable.sound).data]
    obtain ⟨hok, hkept⟩ :=
      solve_of_convex env hfilled hreachable.sound (hready hbefore) hbefore
    refine ⟨fun e he => ?_, hkept⟩
    rw [show (S.call env .solve).1 = _ from hok] at he
    cases he
  · exact (call_outcome (fun _ heq => eq_of_beq heq) env hfilled hc).of_convex
      (hreachable.call env c).sound hconvex hready

/-- A session whose problem is convex is always ready to solve. -/
theorem Reachable.ready_of_convex (h : S.Reachable) (hconvex : S.data.user.Convex) : S.Ready := by
  induction h with
  | setup hsetup => exact setup_ready hsetup
  | call env c hS ih => exact (call_of_convex env hS ih c hconvex).2

end Session

/-! ### Calls -/

/-- The call asks for no other matrices. -/
def SessionCall.keepsMatrices {α : Type} : SessionCall α → Bool
  | .updateMatrices _ _ _ _ => false
  | _ => true

theorem QpData.validate_keeps {α : Type} [Scalar α] {D : QpData α} {I : Instance α D.A.n D.A.m}
    (h : D.validate = .ok I) : D.q.size = D.A.n ∧ D.l.size = D.A.m ∧ I.P.csc = D.P := by
  have hdata := (validate_eq_ok_iff.mp h).1
  refine ⟨?_, ?_, congrArg QpData.P hdata⟩
  · exact (congrArg (·.q.size) hdata).symm.trans I.q.size_toArray
  · exact (congrArg (·.l.size) hdata).symm.trans I.l.size_toArray

namespace Session

variable {S : Session K n m} {env : Environment K}

/-- Other calls leave the objective matrix of the user as it is. -/
theorem call_userP (env : Environment K) (hsound : S.Sound) {c : SessionCall K}
    (hc : c.keepsMatrices = true) : (S.call env c).2.data.user.P = S.data.user.P := by
  cases c with
  | solve => exact congrArg (·.user.P) (solve_continues env hsound).data
  | updateVectors q l u =>
    show (S.updateVectors q l u).2.data.user.P = S.data.user.P
    unfold updateVectors
    split
    · rfl
    · simp only
      split
      · rfl
      · rw [(factorUnsolved_eq _).2.data, (factorSystem_sameCore _).data]
        rfl
  | updateMatrices Px PxIdx Ax AxIdx => cases hc
  | warmStart x y =>
    show (S.warmStart x y).2.data.user.P = S.data.user.P
    unfold warmStart
    split
    · rfl
    · rename_i x y _
      cases x <;> cases y <;> rfl
  | updateSettings settings =>
    show (S.updateSettings settings).2.data.user.P = S.data.user.P
    unfold updateSettings
    split
    · rfl
    · split
      · rw [(factorSystem_sameCore _).data]
      · rfl

theorem exists_setup (hpermutes : env.Permutes) {D : QpData K} {settings : Settings K}
    {I : Instance K D.A.n D.A.m} (hq : D.q.size ≤ arrayLimit) (hl : D.l.size ≤ arrayLimit)
    (hlegal : settings.validate = .ok ()) (hvalid : D.validate = .ok I) (hconvex : I.Convex) :
    ∃ S, AdmmSession.setup env D settings = .ok S := by
  obtain ⟨hdata, hacceptable⟩ := QpData.validate_eq_ok_iff.mp hvalid
  obtain ⟨hsize, hrows, -⟩ := QpData.validate_keeps hvalid
  obtain ⟨S, hS⟩ := exists_unfactored hpermutes (hsize ▸ hq) (hrows ▸ hl) I settings
  have hsound := unfactored_sound hlegal hS
  have hprepared := unfactored_prepared hlegal hS
  have huser : S.data.user.Convex := (unfactored_eq_ok hS).1 ▸ hconvex
  have hfactor := hprepared.factorSystem_of_convex hsound.scaled hsound.rho_pos huser
  have hsetup := setup_eq_ok_iff.mpr ⟨S, hS, Prod.ext hfactor rfl⟩
  have hI := AdmmSession.setup_toQpData env hacceptable hlegal
  rw [hdata, hsetup] at hI
  exact ⟨_, hI⟩

/-- A convex problem is factored with a positive pivot for each variable, whatever the
scaling, the step size and the elimination order. So its setup succeeds for valid data,
and no call that leaves a session with a convex problem fails, unless it refuses its
input. -/
theorem succeeds_of_convex (hpermutes : env.Permutes) :
    (∀ {n m : Nat} (D : Instance K n m) (settings : Settings K), n ≤ arrayLimit →
      m ≤ arrayLimit → D.Convex → 0 < settings.sigma → 0 < settings.rho →
      ∃ S, unfactored env D settings = .ok S ∧
        (S.system.factor S.data.work.P S.data.work.A settings.sigma).2 = .ok n) ∧
    (∀ (D : QpData K) (settings : Settings K) {I : Instance K D.A.n D.A.m},
      D.q.size ≤ arrayLimit → D.l.size ≤ arrayLimit → settings.validate = .ok () →
      D.validate = .ok I → I.Convex → ∃ S, AdmmSession.setup env D settings = .ok S) ∧
    ∀ {n m : Nat} {S : Session K n m} (env : Environment K), S.Reachable →
      (S.data.user.Convex → (S.call env .solve).1 = .ok () ∧
        ∀ c : SessionCall K, c.keepsMatrices = true →
          ∀ e, (S.call env c).1 = .error e → e.isRefusal = true) ∧
      ∀ Px PxIdx Ax AxIdx,
        (S.call env (.updateMatrices Px PxIdx Ax AxIdx)).2.data.user.Convex →
        ∀ e, (S.call env (.updateMatrices Px PxIdx Ax AxIdx)).1 = .error e →
          e.isRefusal = true := by
  refine ⟨fun D settings hn hm hconvex hsigma hrho => ?_,
    fun D settings I hq hl hlegal hvalid hconvex =>
      exists_setup hpermutes hq hl hlegal hvalid hconvex,
    fun {n m S} env hreachable => ⟨fun hconvex => ⟨?_, fun c hc => ?_⟩,
      fun Px PxIdx Ax AxIdx hconvex => ?_⟩⟩
  · obtain ⟨S, hS⟩ := exists_unfactored hpermutes hn hm D settings
    exact ⟨S, hS, factor_unfactored hS hconvex hsigma hrho⟩
  · exact (solve_of_convex env (hreachable.filled fun _ heq => eq_of_beq heq) hreachable.sound
      (hreachable.ready_of_convex hconvex) hconvex).1
  · have hafter : (S.call env c).2.data.user.Convex := by
      unfold Instance.Convex
      rw [call_userP env hreachable.sound hc]
      exact hconvex
    exact (call_of_convex env hreachable hreachable.ready_of_convex c hafter).1
  · exact (call_of_convex env hreachable hreachable.ready_of_convex _ hconvex).1

end Session

/-- The last row is eliminated first, and no time passes. -/
def Environment.reversed (α : Type) : Environment α where
  ordering M := some (Array.range M.n).reverse
  elapsed _ := 0

theorem Environment.reversed_permutes (α : Type) : (reversed α).Permutes := by
  intro M p hp
  cases hp
  simp [List.reverse_perm]

omit [ExactScalar K] in
theorem Instance.convex_of_entries {D : Instance K n m} {a : K} (ha : 0 ≤ a) (hn : n = 1)
    (hentries : D.P.csc.entries = [(0, 0, a)]) : D.Convex := by
  subst hn
  intro x
  have hform : x ⬝ᵥ D.P.csc.mirror 1 *ᵥ x = a * (x 0 * x 0) := by
    simp only [dotProduct, mulVec, Fin.sum_univ_one, Csc.mirror, Csc.entry, hentries, entrySum]
    simp
    ring
  rw [hform]
  exact mul_nonneg ha (mul_self_nonneg _)

/-- On a problem of one variable, whose objective an update makes linear. -/
theorem Session.succeeds_of_convex_unitProblem :
    ∃ (I : Instance ℚ 1 1) (S : AdmmSession ℚ) (T : Session ℚ S.n S.m),
      unitProblem.validate = .ok I ∧ I.Convex ∧
      (∃ U, unfactored (.reversed ℚ) I plainSettings = .ok U ∧
        (U.system.factor U.data.work.P U.data.work.A plainSettings.sigma).2 = .ok 1) ∧
      AdmmSession.setup (.reversed ℚ) unitProblem plainSettings = .ok S ∧
      S.session.call (.still ℚ) (.updateMatrices (some #[0]) none none none) = (.ok (), T) ∧
      (T.call (.still ℚ) .solve).1 = .ok () := by
  obtain ⟨hfactors, hsetup, hcalls⟩ := succeeds_of_convex (Environment.reversed_permutes ℚ)
  have hvalid : (match unitProblem.validate with
      | .error _ => false
      | .ok _ => true) = true := by
    decide +kernel
  have hrun : (match AdmmSession.setup (.reversed ℚ) unitProblem plainSettings with
      | .error _ => true
      | .ok S =>
        let r := S.session.call (.still ℚ) (.updateMatrices (some #[0]) none none none)
        decide (S.n = 1) && decide (r.2.data.user.P.csc.entries = [(0, 0, 0)]) &&
          match r.1 with
          | .error e => !e.isRefusal
          | .ok () => true) = true := by
    decide +kernel
  split at hvalid
  · cases hvalid
  · rename_i I hI
    have hentries : I.P.csc.entries = [(0, 0, 1)] := by
      rw [(QpData.validate_keeps hI).2.2]
      decide +kernel
    have hconvex : I.Convex := Instance.convex_of_entries zero_le_one rfl hentries
    obtain ⟨S, hS⟩ := hsetup unitProblem plainSettings (by decide) (by decide)
      (by decide +kernel) hI hconvex
    rw [hS] at hrun
    simp only [Bool.and_eq_true, decide_eq_true_eq] at hrun
    obtain ⟨⟨hn, hnew⟩, hkept⟩ := hrun
    have hreachable : S.session.Reachable := .setup hS
    have hlinear := Instance.convex_of_entries le_rfl hn hnew
    have hupdate := (hcalls (.still ℚ) hreachable).2 _ _ _ _ hlinear
    have hok : (S.session.call (.still ℚ) (.updateMatrices (some #[0]) none none none)).1
        = .ok () := by
      split at hkept
      · rename_i e he
        rw [hupdate e he] at hkept
        cases hkept
      · assumption
    exact ⟨I, S, _, hI, hconvex,
      hfactors I plainSettings (by decide) (by decide) hconvex (by decide +kernel)
        (by decide +kernel),
      hS, Prod.ext hok rfl, ((hcalls (.still ℚ) (hreachable.call _ _)).1 hlinear).1⟩

end QuadOpt
