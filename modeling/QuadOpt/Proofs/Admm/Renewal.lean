/-
# Sessions as good as new

An update of the matrices equilibrates the problem anew and factors its system. A session
that has seen one, and anything before it, has the working data, the scaling, the kinds of
the constraints, the step sizes and the factors that a fresh setup on its data and settings
finds: the pattern and its elimination order are those of the first setup, a step size
that does not adapt is that of the settings, and what earlier factorisations left behind is
overwritten. This holds in any arithmetic, rounded or not.

Key definitions: `LinearSystem.OrderedBy`, `Session.Settled`.
Key theorems: `LinearSystem.Prepared.factor_eq_filled`, `Session.call_settled`,
`Session.updateMatrices_equilibrated`, `Session.setup_renews`, `Session.update_renews`.
-/
import QuadOpt.Proofs.Admm.Steady
import QuadOpt.Proofs.Admm.UserData

namespace QuadOpt

open Scalar

variable {α : Type} [Scalar α] {n m : Nat}

/-- An equilibration starts from the data of the user. -/
theorem Problem.equilibrate_congr {D E : Problem α n m} (h : D.user = E.user) (rounds : Nat) :
    D.equilibrate rounds = E.equilibrate rounds := by
  cases D
  cases E
  cases h
  rfl

/-! ### Elimination orders -/

namespace LinearSystem

/-- The rows are eliminated in the order that `ordering` chooses for the pattern. -/
def OrderedBy (ordering : Ordering? α) (L : LinearSystem α n m) : Prop :=
  L.ldl.givenOrder = (ordering (L.pattern.mapValues fun _ => 0)).getD (Array.range (n + m))

variable {ordering : Ordering? α} {L : LinearSystem α n m} {P : SparseMatrix α n n}
  {A : SparseMatrix α m n}

theorem new_orderedBy (h : new ordering P A = .ok L) : L.OrderedBy ordering := by
  simp only [new, bind, Except.bind] at h
  split at h
  · cases h
  · rename_i ldl hldl
    cases h
    unfold Ldl.analyse at hldl
    simp only [bind, Except.bind] at hldl
    split at hldl
    · cases hldl
    · split at hldl
      · cases hldl
      · cases hldl
        rfl

theorem OrderedBy.factor (h : L.OrderedBy ordering) (P : SparseMatrix α n n)
    (A : SparseMatrix α m n) (sigma : α) : (L.factor P A sigma).1.OrderedBy ordering := by
  have hvalues : ∀ v, ((L.ldl.withValues? v).getD L.ldl).givenOrder = L.ldl.givenOrder := by
    intro v
    unfold Ldl.withValues?
    split <;> rfl
  show (Ldl.factor _).1.givenOrder = _
  rw [(Ldl.factor_order _).1, hvalues]
  exact h

/-- A pattern that was analysed once is analysed again. -/
theorem Prepared.exists_new (h : L.Prepared P A) (horder : L.OrderedBy ordering) :
    ∃ L₀, new ordering P A = .ok L₀ := by
  obtain ⟨f, hf⟩ := h.shape
  have hsize : (L.pattern.mapValues fun _ => (0 : α)).nzval.size = L.K.nzval.size := by
    rw [hf]
    simp [Csc.mapValues]
  have hK : L.pattern.mapValues (fun _ => (0 : α))
      = { L.K with nzval := (L.pattern.mapValues fun _ => (0 : α)).nzval } := by
    rw [hf]
    rfl
  obtain ⟨F, hF⟩ : ∃ F, Ldl.analyse (L.pattern.mapValues fun _ => (0 : α)) (n + m)
      (some L.ldl.givenOrder) = .ok F := by
    rw [hK]
    exact ⟨_, (h.holds.replace hsize).2.analyse_eq⟩
  rw [horder] at hF
  have hpattern : L.pattern.mapValues (fun _ => (0 : α))
      = (assembleKkt n m P.csc A.csc).mapValues fun _ => 0 := by rw [h.pattern]
  exact exists_new_of_analyse hpattern hF

/-- Systems for the same matrices, bounds and step size, in the same order, are factored
alike, whatever they held before. -/
theorem Prepared.factor_eq_filled {L' : LinearSystem α n m} {l u : Vec α m} {t sigma : α}
    (h : L.Prepared P A) (h' : L'.Prepared P A) (htuned : L.Tuned l u t)
    (htuned' : L'.Tuned l u t) (horder : L.OrderedBy ordering) (horder' : L'.OrderedBy ordering)
    (hfilled : L.K = fillKkt L.pattern P.csc A.csc sigma L.rhoInv)
    (hfactored : L.ldl.isFactored = true) :
    L'.factor P A sigma = (L, .ok L.ldl.positive) := by
  have hpattern : L'.pattern = L.pattern := h'.pattern.trans h.pattern.symm
  have hkinds : L'.kinds = L.kinds := htuned'.kinds.trans htuned.kinds.symm
  have hrho : L'.rho = L.rho := by rw [htuned'.rho, htuned.rho, hkinds]
  have hrhoInv : L'.rhoInv = L.rhoInv := by rw [htuned'.rhoInv, htuned.rhoInv, hrho]
  have hgiven : L'.ldl.givenOrder = L.ldl.givenOrder := by
    unfold OrderedBy at horder horder'
    rw [horder', horder, hpattern]
  obtain ⟨hholds, hfactor⟩ := h'.factor_eq sigma
  rw [hpattern, hrhoInv, ← hfilled] at hholds hfactor
  rw [hfactor, h.holds.factor_eq hholds hgiven hfactored, hrho, hkinds]

end LinearSystem

/-! ### Sessions -/

namespace Session

/-- The rows are eliminated in the order that `ordering` chooses, and a step size that does
not adapt is that of the settings. -/
structure Settled (ordering : Ordering? α) (S : Session α n m) : Prop where
  ordered : S.system.OrderedBy ordering
  rho : S.settings.adaptiveRho = false → S.rho = S.settings.rho
  rhoEstimate : S.settings.adaptiveRho = false → S.info.rhoEstimate = S.settings.rho

variable {ordering : Ordering? α} {S T U : Session α n m}

theorem Settled.congr (h : S.Settled ordering) (hsame : S.Steady T) : T.Settled ordering where
  ordered := by
    rw [hsame.system]
    exact h.ordered
  rho := by
    rw [hsame.settings, hsame.rho]
    exact h.rho
  rhoEstimate := by
    rw [hsame.settings, hsame.rhoEstimate]
    exact h.rhoEstimate

theorem Settled.factorSystem (h : S.Settled ordering) : S.factorSystem.2.Settled ordering := by
  have hfactored : Settled ordering ({ S with
      system := (S.system.factor S.data.work.P S.data.work.A S.settings.sigma).1 } :
        Session α n m) := ⟨h.ordered.factor _ _ _, h.rho, h.rhoEstimate⟩
  refine hfactored.congr ⟨S.factorSystem_sameCore, ?_⟩
  rcases S.factorSystem_cases with ⟨-, hresult⟩ | ⟨_, -, -, hresult⟩ | ⟨_, -, hresult⟩
  all_goals rw [hresult]

theorem Settled.factorUnsolved (h : S.Settled ordering) : S.factorUnsolved.2.Settled ordering := by
  have hfactored := h.factorSystem
  unfold Session.factorUnsolved
  cases hfactor : S.factorSystem with
  | mk r T =>
    rw [hfactor] at hfactored
    cases r with
    | ok u => exact hfactored.congr ⟨⟨rfl, rfl, rfl, rfl⟩, rfl⟩
    | error e => exact hfactored

theorem solve_settled (h : S.Settled ordering) (env : Environment α) :
    (S.solve env).2.Settled ordering := by
  cases hsteady : S.settings.adaptiveRho with
  | false => exact h.congr (solve_steady hsteady env)
  | true =>
    -- A new step size is factored with in the old order.
    obtain ⟨hordered, hsettings⟩ := solve_preserves
      (p := fun T => T.system.OrderedBy ordering ∧ T.settings = S.settings)
      (fun hsame hT => ⟨hsame.system ▸ hT.1, hsame.settings.trans hT.2⟩)
      (fun {T} hT => by
        have hsame := (T.adopt T.estimateRho).factorSystem_sameCore
        have hadopted : (T.adopt T.estimateRho).system.OrderedBy ordering := hT.1
        refine ⟨?_, hsame.settings.trans hT.2⟩
        rw [hsame.system]
        exact hadopted.factor _ _ _)
      env ⟨h.ordered, rfl⟩
    have hadaptive : (S.solve env).2.settings.adaptiveRho ≠ false := by
      rw [hsettings, hsteady]
      exact Bool.noConfusion
    exact ⟨hordered, fun h => absurd h hadaptive, fun h => absurd h hadaptive⟩

theorem call_settled [LawfulComparison α] (h : S.Settled ordering) (env : Environment α)
    (c : SessionCall α) : (S.call env c).2.Settled ordering := by
  cases c with
  | solve => exact solve_settled h env
  | updateVectors q l u =>
    show (S.updateVectors q l u).2.Settled ordering
    unfold updateVectors
    split
    · exact h
    · simp only
      split
      · exact ⟨h.ordered, h.rho, h.rhoEstimate⟩
      · exact Settled.factorUnsolved ⟨h.ordered, h.rho, h.rhoEstimate⟩
  | updateMatrices Px PxIdx Ax AxIdx =>
    show (S.updateMatrices Px PxIdx Ax AxIdx).2.Settled ordering
    unfold updateMatrices
    split
    · exact h
    · split
      · exact h
      · exact Settled.factorUnsolved ⟨h.ordered, h.rho, h.rhoEstimate⟩
  | warmStart x y =>
    show (S.warmStart x y).2.Settled ordering
    unfold warmStart
    split
    · exact h
    · rename_i x y _
      cases x <;> cases y <;> exact ⟨h.ordered, h.rho, h.rhoEstimate⟩
  | updateSettings settings =>
    show (S.updateSettings settings).2.Settled ordering
    unfold updateSettings
    split
    · exact h
    · rename_i hvalid
      split
      · exact Settled.factorSystem ⟨h.ordered, fun _ => rfl, fun _ => rfl⟩
      · rename_i hrho
        obtain ⟨hlegal, -, -, hadaptive, -⟩ := (Settings.validateUpdate_eq_ok_iff _ _).mp hvalid
        have hrho : settings.rho = S.settings.rho := by
          refine LawfulComparison.eq_of_beq ((Settings.validate_eq_ok_iff _).mp hlegal).1 ?_
          simpa [bne] using hrho
        refine ⟨h.ordered, fun hsteady => ?_, fun hsteady => ?_⟩
        · exact (h.rho (hadaptive.symm.trans hsteady)).trans hrho.symm
        · exact (h.rhoEstimate (hadaptive.symm.trans hsteady)).trans hrho.symm

theorem unfactored_settled {env : Environment α} {D : Instance α n m} {settings : Settings α}
    (h : unfactored env D settings = .ok S) :
    S.Settled env.ordering ∧ S.startPending = false := by
  obtain ⟨-, hsettings, hrho, L, hL, hsystem⟩ := unfactored_eq_ok h
  have hbegin : S.info.rhoEstimate = settings.rho ∧ S.startPending = false := by
    simp only [unfactored, bind, Except.bind] at h
    split at h
    · cases h
    · cases h
      exact ⟨rfl, rfl⟩
  refine ⟨⟨?_, fun _ => ?_, fun _ => ?_⟩, hbegin.2⟩
  · have hnew := LinearSystem.new_orderedBy hL
    rw [hsystem]
    exact hnew
  · rw [hsettings, hrho]
  · rw [hsettings, hbegin.1]

theorem setup_settled {env : Environment α} {D : QpData α} {settings : Settings α}
    {S : AdmmSession α} (h : AdmmSession.setup env D settings = .ok S) :
    S.session.Settled env.ordering := by
  obtain ⟨-, I, -, -, hI⟩ := AdmmSession.setup_eq_ok h
  obtain ⟨U, hU, hfactor⟩ := setup_eq_ok_iff.mp hI
  have hsettled := (unfactored_settled hU).1.factorSystem
  rwa [hfactor] at hsettled

/-- An update of the matrices that is accepted leaves the working data as an equilibration
makes them, and valid factors. -/
theorem updateMatrices_equilibrated {Px : Option (Array α)} {PxIdx : Option (Array Nat)}
    {Ax : Option (Array α)} {AxIdx : Option (Array Nat)} (h : S.Filled)
    (hvalues : Px.isSome = true ∨ Ax.isSome = true)
    (hupdate : S.updateMatrices Px PxIdx Ax AxIdx = (.ok (), T)) :
    T.data.equilibrate T.settings.scaling.toNat = T.data ∧ T.Ready := by
  have hgiven : ¬(Px.isNone && PxIdx.isNone && Ax.isNone && AxIdx.isNone) = true := by
    rcases hvalues with hvalues | hvalues <;> cases Px <;> cases Ax <;> simp_all
  rcases updateMatrices_cases h Px PxIdx Ax AxIdx with
    ⟨hnothing, -⟩ | ⟨e, hresult⟩ | ⟨U, hprepared, hequilibrated, hresult⟩
  · exact absurd hnothing hgiven
  · rw [hresult] at hupdate
    cases hupdate
  · obtain ⟨hok, hsame⟩ := U.factorUnsolved_eq
    rw [← hresult, hupdate] at hok hsame
    have hdata := hsame.data.trans U.factorSystem_sameCore.data
    have hsettings := hsame.settings.trans U.factorSystem_sameCore.settings
    have hready := hprepared.ready_iff.mpr hok.symm
    rw [hdata, hsettings]
    exact ⟨hequilibrated, hready.congr hsame⟩

/-- A fresh setup on what a session holds finds its working data, its scaling and its
factors. -/
theorem setup_renews [LawfulComparison α] {env : Environment α} (hfilled : S.Filled)
    (hready : S.Ready) (hsettled : S.Settled env.ordering)
    (hlimited : S.data.user.toQpData.Limited)
    (huncrossed : ∀ i, ¬S.data.user.u.get i < S.data.user.l.get i)
    (hequilibrated : S.data.equilibrate S.settings.scaling.toNat = S.data)
    (hsteady : S.settings.adaptiveRho = false) :
    ∃ F : Session α n m, AdmmSession.setup env S.data.user.toQpData S.settings = .ok ⟨n, m, F⟩ ∧
      F.Steady S ∧ F.startPending = false := by
  have hacceptable : S.data.user.Acceptable := ⟨hlimited.toNumeric, huncrossed⟩
  have hdata : (Problem.ofInstance S.data.user).equilibrate S.settings.scaling.toNat = S.data := by
    rw [Problem.equilibrate_congr hlimited.ofInstance_user, hequilibrated]
  obtain ⟨L, hL⟩ := hfilled.system.exists_new hsettled.ordered
  obtain ⟨U, hU⟩ : ∃ U, unfactored env S.data.user S.settings = .ok U := by
    unfold unfactored
    rw [hdata]
    simp only [hL, bind, Except.bind, pure, Except.pure]
    exact ⟨_, rfl⟩
  obtain ⟨hUdata, hUsettings, hUrho, -⟩ := unfactored_eq_ok hU
  rw [hdata] at hUdata
  have hUprepared := unfactored_prepared hfilled.legal hU
  obtain ⟨hUsettled, hUpending⟩ := unfactored_settled hU
  have hrho : U.rho = S.rho := hUrho.trans (hsettled.rho hsteady).symm
  have hfactor : U.system.factor U.data.work.P U.data.work.A U.settings.sigma
      = (S.system, .ok n) := by
    have hsystem := hUprepared.system
    have htuned := hUprepared.tuned
    rw [hUdata] at hsystem htuned
    rw [hrho] at htuned
    rw [hUdata, hUsettings, hfilled.system.factor_eq_filled hsystem hfilled.tuned htuned
      hsettled.ordered hUsettled.ordered hfilled.filled hready.1, hready.2]
  have hsetup : Session.setup env S.data.user S.settings = .ok { U with system := S.system } := by
    refine setup_eq_ok_iff.mpr ⟨U, hU, ?_⟩
    unfold Session.factorSystem
    rw [hfactor]
    simp
  refine ⟨{ U with system := S.system }, ?_, ?_, hUpending⟩
  · rw [AdmmSession.setup_toQpData env hacceptable hfilled.legal, hsetup]
    rfl
  · refine ⟨⟨hUdata.symm, hUsettings.symm, rfl, hrho.symm⟩, ?_⟩
    have hestimate := hUsettled.rhoEstimate (by rw [hUsettings, hsteady])
    rw [hUsettings] at hestimate
    exact (hsettled.rhoEstimate hsteady).trans hestimate.symm

/-! ### Histories -/

theorem after_settled [LawfulComparison α] (h : S.Settled ordering)
    (history : List (Environment α × SessionCall α)) : (S.after history).Settled ordering := by
  induction history generalizing S with
  | nil => exact h
  | cons e history ih => exact ih (call_settled h e.1 e.2)

/-- After an update of the matrices that gave some values and was accepted, whatever came
before it, a session has what a fresh setup on its data and settings finds: the working
data, the scaling, the kinds of the constraints, the step sizes, the system and its
factors. If solves start at the origin and the step size does not adapt, the next solve is
that of the fresh session. -/
theorem update_renews [LawfulComparison α] {env env₁ env₂ : Environment α} {D : QpData α}
    {settings : Settings α} {S : AdmmSession α}
    (hsetup : AdmmSession.setup env D settings = .ok S)
    (history : List (Environment α × SessionCall α)) {Px : Option (Array α)}
    {PxIdx : Option (Array Nat)} {Ax : Option (Array α)} {AxIdx : Option (Array Nat)}
    {T : Session α S.n S.m}
    (hupdate : (S.session.after history).call env₁ (.updateMatrices Px PxIdx Ax AxIdx)
      = (.ok (), T))
    (hvalues : Px.isSome = true ∨ Ax.isSome = true) (hpending : T.startPending = false)
    (hcold : T.settings.warmStarting = false) (hsteady : T.settings.adaptiveRho = false)
    (huncrossed : ∀ i, ¬T.data.user.u.get i < T.data.user.l.get i)
    (hordering : env₂.ordering = env.ordering) :
    ∃ F : Session α S.n S.m,
      AdmmSession.setup env₂ T.data.user.toQpData T.settings = .ok ⟨S.n, S.m, F⟩ ∧
      T.data = F.data ∧ T.system = F.system ∧ T.rho = F.rho ∧
      ∀ env', (T.call env' .solve).1 = (F.call env' .solve).1 ∧
        (T.call env' .solve).2.info = (F.call env' .solve).2.info ∧
        (T.call env' .solve).2.solution.x = (F.call env' .solve).2.solution.x ∧
        (T.call env' .solve).2.solution.y = (F.call env' .solve).2.solution.y := by
  have hfilled : ∀ history, (S.session.after history).Filled := fun history =>
    ((Reachable.setup hsetup).after history).filled LawfulComparison.eq_of_beq
  obtain ⟨hequilibrated, hready⟩ := updateMatrices_equilibrated (hfilled history) hvalues hupdate
  obtain ⟨history', hT⟩ : ∃ history', S.session.after history' = T := by
    refine ⟨history ++ [(env₁, .updateMatrices Px PxIdx Ax AxIdx)], ?_⟩
    rw [after, List.foldl_append]
    exact congrArg Prod.snd hupdate
  have hrenewed := hfilled history'
  have hsettled := after_settled (setup_settled hsetup) history'
  have hlimited := after_limited (setup_limited hsetup) history'
  rw [hT] at hrenewed hsettled hlimited
  rw [← hordering] at hsettled
  obtain ⟨F, hF, hsame, hstart⟩ := setup_renews hrenewed hready hsettled hlimited huncrossed
    hequilibrated hsteady
  refine ⟨F, hF, hsame.data, hsame.system, hsame.rho, fun env' => ?_⟩
  have hsettings : F.settings = T.settings := hsame.settings.symm
  obtain ⟨-, -, -, -, -, -, -, -, hiterations, -⟩ :=
    (Settings.validate_eq_ok_iff _).mp hrenewed.legal
  obtain ⟨hok, hok', hinfo, hx, hy⟩ := solve_alike hsame (by rw [hsettings, hsteady])
    (by rw [hsettings, hcold]) hstart hpending (by rw [hsettings]; exact hiterations)
    (hsame.system ▸ hready.1) env'
  exact ⟨hok'.trans hok.symm, hinfo, hx, hy⟩

/-- After a solve and new bounds. -/
theorem update_renews_unitProblem : ∃ (S : AdmmSession ℚ) (T F : Session ℚ S.n S.m),
    AdmmSession.setup (.still ℚ) unitProblem { plainSettings with warmStarting := false } = .ok S ∧
    (S.session.after [(.still ℚ, .solve), (.still ℚ, .updateVectors none none (some #[2]))]).call
      (.still ℚ) (.updateMatrices (some #[2]) none none none) = (.ok (), T) ∧
    AdmmSession.setup (.still ℚ) T.data.user.toQpData T.settings = .ok ⟨S.n, S.m, F⟩ ∧
    T.data = F.data ∧ T.system = F.system ∧ T.rho = F.rho ∧
    (T.call (.still ℚ) .solve).2.info = (F.call (.still ℚ) .solve).2.info ∧
    (T.call (.still ℚ) .solve).2.solution.x = (F.call (.still ℚ) .solve).2.solution.x := by
  have hrun : (match AdmmSession.setup (.still ℚ) unitProblem
        { plainSettings with warmStarting := false } with
      | .error _ => false
      | .ok S =>
        let r := (S.session.after [(.still ℚ, .solve),
          (.still ℚ, .updateVectors none none (some #[2]))]).call (.still ℚ)
            (.updateMatrices (some #[2]) none none none)
        decide (r.1 = .ok ()) && !r.2.startPending && !r.2.settings.warmStarting &&
          !r.2.settings.adaptiveRho && (List.finRange S.m).all fun i =>
            !decide (r.2.data.user.u.get i < r.2.data.user.l.get i)) = true := by
    decide +kernel
  split at hrun
  · cases hrun
  · rename_i S hsetup
    simp only [Bool.and_eq_true, decide_eq_true_eq, Bool.not_eq_true', List.all_eq_true,
      decide_eq_false_iff_not] at hrun
    obtain ⟨⟨⟨⟨hok, hpending⟩, hcold⟩, hsteady⟩, huncrossed⟩ := hrun
    obtain ⟨F, hF, hdata, hsystem, hrho, hsolve⟩ := update_renews hsetup
      [(.still ℚ, .solve), (.still ℚ, .updateVectors none none (some #[2]))] (Prod.ext hok rfl)
      (.inl rfl) hpending hcold hsteady (fun i => huncrossed i (List.mem_finRange i))
      (rfl : (Environment.still ℚ).ordering = _)
    obtain ⟨-, hinfo, hx, -⟩ := hsolve (.still ℚ)
    exact ⟨S, _, F, hsetup, Prod.ext hok rfl, hF, hdata, hsystem, hrho, hinfo, hx⟩

end Session
end QuadOpt
