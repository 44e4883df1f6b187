/-
# A start point and new data, in either order

A start point is given in the coordinates of the user, and in these the iterate is carried
over when new matrices change the scaling. An update of the data reads the iterate for
nothing else. So it does not matter whether a start point is given before an update of the
data or after it: the answers of both calls are the same, and so is the session that they
leave, with its scaling, its iterate and its factors.

Key definitions: `Problem.place`, `Problem.carry`, `Session.startingAt`, `Session.Takes`,
`Session.Exchange`.
Key theorems: `Problem.Scaled.carry_place`, `Session.updateMatrices_takes`,
`Session.Takes.exchange`, `Session.warmStart_exchange`.
-/
import QuadOpt.Proofs.Admm.Accuracy
import QuadOpt.Proofs.Admm.Filled

namespace QuadOpt

variable {α : Type} [Scalar α] {n m : Nat}

/-! ### Iterates -/

namespace Problem

/-- The iterate `v`, moved to those parts of a point that are given, in the coordinates of
the user. -/
def place (D : Problem α n m) (x : Option (Vec α n)) (y : Option (Vec α m))
    (v : Iterate α n m) : Iterate α n m :=
  let v := match x with
    | some x =>
      let x := x.hadamard D.scaling.dinv
      { v with x := x, z := D.work.A.csc.mulVec m x }
    | none => v
  match y with
  | some y => { v with y := (y.hadamard D.scaling.einv).scale D.scaling.c }
  | none => v

/-- The iterate `v`, carried over from the scaling of `D` to that of `E` in the coordinates
of the user. -/
def carry (D E : Problem α n m) (v : Iterate α n m) : Iterate α n m :=
  E.place (some (v.x.hadamard D.scaling.d))
    (some ((v.y.hadamard D.scaling.e).scale D.scaling.cinv)) v

theorem place_congr {D E : Problem α n m} (hscaling : E.scaling = D.scaling)
    (hA : E.work.A = D.work.A) (x : Option (Vec α n)) (y : Option (Vec α m)) :
    E.place x y = D.place x y := by
  funext v
  unfold place
  rw [hscaling, hA]

section Exact

variable {K : Type} [Field K] [LinearOrder K] [IsStrictOrderedRing K] [ExactScalar K]
  {D : Problem K n m}

omit [IsStrictOrderedRing K] in
theorem Scaled.hadamard_dinv_d (h : D.Scaled) (x : Vec K n) :
    (x.hadamard D.scaling.dinv).hadamard D.scaling.d = x := by
  apply Vec.ext_get
  intro j
  have hd := (h.d_pos j).ne'
  rw [Vec.get_hadamard, Vec.get_hadamard, h.dinv_eq]
  field_simp

omit [IsStrictOrderedRing K] in
theorem Scaled.scale_einv_e (h : D.Scaled) (y : Vec K m) :
    ((((y.hadamard D.scaling.einv).scale D.scaling.c).hadamard D.scaling.e).scale
      D.scaling.cinv) = y := by
  apply Vec.ext_get
  intro i
  have he := (h.e_pos i).ne'
  have hc := h.c_pos.ne'
  rw [Vec.get_scale, Vec.get_hadamard, Vec.get_scale, Vec.get_hadamard, h.einv_eq, h.cinv_eq]
  field_simp

omit [IsStrictOrderedRing K] in
/-- What was placed is carried over to where it would be placed afterwards, and the parts
that were not are carried over as they are. -/
theorem Scaled.carry_place (h : D.Scaled) (E : Problem K n m) (x : Option (Vec K n))
    (y : Option (Vec K m)) (v : Iterate K n m) :
    D.carry E (D.place x y v) = E.place x y (D.carry E v) := by
  cases x with
  | none =>
    cases y with
    | none => rfl
    | some y => simp only [carry, place, h.scale_einv_e]
  | some x =>
    cases y with
    | none => simp only [carry, place, h.hadamard_dinv_d]
    | some y => simp only [carry, place, h.hadamard_dinv_d, h.scale_einv_e]

end Exact
end Problem

/-! ### Sessions -/

/-- The data with new values in the matrices. -/
def Instance.withMatrices (D : Instance α n m) (P : Vec α D.P.nnz) (A : Vec α D.A.nnz) :
    Instance α n m :=
  { D with P := D.P.withValues P, A := D.A.withValues A, upper := D.upper }

namespace Session

variable {S : Session α n m} {env : Environment α}

/-- The session with its iterate at `v`, which is a start point if `pending`. -/
def startingAt (S : Session α n m) (v : Iterate α n m) (pending : Bool) : Session α n m :=
  { S with vars := v, startPending := pending }

/-- Wherever the iterate stands, the call gives the same answer and does the same to the
rest of the session, and takes the iterate to where `f` takes it. -/
def Takes (env : Environment α) (S : Session α n m) (c : SessionCall α)
    (f : Iterate α n m → Iterate α n m) : Prop :=
  ∀ v pending, (S.startingAt v pending).call env c
    = ((S.call env c).1, (S.call env c).2.startingAt (f v) pending)

/-- The two calls have the same answers in either order, and leave the same session. -/
structure Exchange (env : Environment α) (S : Session α n m) (c c' : SessionCall α) : Prop where
  first : ((S.call env c').2.call env c).1 = (S.call env c).1
  second : ((S.call env c).2.call env c').1 = (S.call env c').1
  session : ((S.call env c).2.call env c').2 = ((S.call env c').2.call env c).2

/-- A start point is refused for its lengths, or the iterate is moved to it. -/
theorem warmStart_eq (S : Session α n m) (x y : Option (Array α)) : S.warmStart x y
    = match (checkStart x y : Except DataFault (Option (Vec α n) × Option (Vec α m))) with
      | .error e => (.error (.dataValidation e), S)
      | .ok (x, y) => (.ok (), S.startingAt (S.data.place x y S.vars) true) := by
  unfold warmStart
  cases checkStart x y with
  | error e => rfl
  | ok given =>
    obtain ⟨x, y⟩ := given
    cases x <;> cases y <;> rfl

omit [Scalar α] in
theorem startingAt_system (S : Session α n m) (v : Iterate α n m) (pending : Bool) :
    (S.startingAt v pending).system = S.system := rfl

theorem factorUnsolved_startingAt (S : Session α n m) (v : Iterate α n m) (pending : Bool) :
    (S.startingAt v pending).factorUnsolved
      = (S.factorUnsolved.1, S.factorUnsolved.2.startingAt v pending) := by
  unfold factorUnsolved factorSystem startingAt
  simp only
  cases (S.system.factor S.data.work.P S.data.work.A S.settings.sigma).2 with
  | error e => rfl
  | ok k =>
    by_cases hk : k = n
    · simp only [hk, if_true]
      rfl
    · simp only [hk, if_false]

/-! ### Updates of the vectors -/

/-- The session with new vectors, by which its constraints are classified. -/
def replaceVectors (S : Session α n m) (new : NewVectors α n m) : Session α n m :=
  let user := { S.data.user with q := new.q.getD S.data.user.q, l := new.l, u := new.u }
  let data := ({ S.data with user := user } : Problem α n m).scaleVectors
  { S with data := data, system := S.system.classify data.work.l data.work.u }

/-- The session with the step sizes that belong to the kinds of its constraints. -/
def reweighed (S : Session α n m) : Session α n m :=
  { S with system := S.system.withRho S.rho }

theorem updateVectors_eq (S : Session α n m) (q l u : Option (Array α)) :
    S.updateVectors q l u = match S.checkVectors q l u with
      | .error e => (.error (.dataUpdate e), S)
      | .ok new =>
        let T := S.replaceVectors new
        if T.system.kinds = S.system.kinds then (.ok (), T.markUnsolved)
        else T.reweighed.factorUnsolved := rfl

/-- An update of the vectors leaves the iterate where it stands. -/
theorem updateVectors_takes (env : Environment α) (S : Session α n m)
    (q l u : Option (Array α)) : S.Takes env (.updateVectors q l u) id := by
  intro v pending
  have hcheck : (S.startingAt v pending).checkVectors q l u = S.checkVectors q l u := rfl
  simp only [call, updateVectors_eq, hcheck]
  cases S.checkVectors q l u with
  | error e => rfl
  | ok new =>
    have hnew : (S.startingAt v pending).replaceVectors new
        = (S.replaceVectors new).startingAt v pending := rfl
    simp only [hnew, startingAt_system]
    by_cases hkinds : (S.replaceVectors new).system.kinds = S.system.kinds
    · simp only [if_pos hkinds]
      rfl
    · simp only [if_neg hkinds]
      exact factorUnsolved_startingAt (S.replaceVectors new).reweighed v pending

/-- An update of the vectors changes neither the scaling nor the constraint matrix. -/
theorem updateVectors_place (S : Session α n m) (q l u : Option (Array α))
    (x : Option (Vec α n)) (y : Option (Vec α m)) :
    (S.updateVectors q l u).2.data.place x y = S.data.place x y := by
  rw [updateVectors_eq]
  cases S.checkVectors q l u with
  | error e => rfl
  | ok new =>
    have hplace : ∀ T : Session α n m, T.data = (S.replaceVectors new).data →
        T.data.place x y = S.data.place x y := by
      intro T hT
      rw [hT]
      exact Problem.place_congr rfl rfl x y
    simp only
    split
    · exact hplace _ rfl
    · exact hplace _ ((factorUnsolved_eq _).2.data.trans (factorSystem_sameCore _).data)

/-! ### Updates of the matrices -/

/-- The session with new values in its matrices: the problem is equilibrated anew, and the
iterate carried over. -/
def replaceMatrices (S : Session α n m) (P : Vec α S.data.user.P.nnz)
    (A : Vec α S.data.user.A.nnz) : Session α n m :=
  let user := S.data.user.withMatrices P A
  let data := ({ S.data with user := user } : Problem α n m).equilibrate S.settings.scaling.toNat
  { S with
    data := data
    vars := S.data.carry data S.vars
    system := (S.system.classify data.work.l data.work.u).withRho S.rho }

theorem updateMatrices_eq (S : Session α n m) (Px : Option (Array α)) (PxIdx : Option (Array Nat))
    (Ax : Option (Array α)) (AxIdx : Option (Array Nat)) :
    S.updateMatrices Px PxIdx Ax AxIdx
      = if Px.isNone && PxIdx.isNone && Ax.isNone && AxIdx.isNone then (.ok (), S)
        else match S.checkMatrices Px PxIdx Ax AxIdx with
          | .error e => (.error (.dataUpdate e), S)
          | .ok (P, A) => (S.replaceMatrices P A).factorUnsolved := rfl

/-- An update of the matrices that is accepted carries the iterate over to the new scaling. -/
theorem updateMatrices_takes (env : Environment α) (S : Session α n m)
    (Px : Option (Array α)) (PxIdx : Option (Array Nat)) (Ax : Option (Array α))
    (AxIdx : Option (Array Nat)) :
    (S.updateMatrices Px PxIdx Ax AxIdx).2.data = S.data ∧
      S.Takes env (.updateMatrices Px PxIdx Ax AxIdx) id ∨
    S.Takes env (.updateMatrices Px PxIdx Ax AxIdx)
      (S.data.carry (S.updateMatrices Px PxIdx Ax AxIdx).2.data) := by
  have hcheck : ∀ v pending, (S.startingAt v pending).checkMatrices Px PxIdx Ax AxIdx
      = S.checkMatrices Px PxIdx Ax AxIdx := fun _ _ => rfl
  simp only [Takes, call, updateMatrices_eq, hcheck]
  by_cases hnothing : (Px.isNone && PxIdx.isNone && Ax.isNone && AxIdx.isNone) = true
  · simp only [if_pos hnothing]
    exact .inl ⟨trivial, fun _ _ => rfl⟩
  · simp only [if_neg hnothing]
    cases S.checkMatrices Px PxIdx Ax AxIdx with
    | error e => exact .inl ⟨rfl, fun _ _ => rfl⟩
    | ok values =>
      obtain ⟨P, A⟩ := values
      have hdata : (S.replaceMatrices P A).factorUnsolved.2.data
          = (S.replaceMatrices P A).data := by
        rw [(factorUnsolved_eq _).2.data, (factorSystem_sameCore _).data]
      refine .inr fun v pending => ?_
      simp only [hdata]
      have hnew : (S.startingAt v pending).replaceMatrices P A = (S.replaceMatrices P A).startingAt
          (S.data.carry (S.replaceMatrices P A).data v) pending := rfl
      rw [hnew]
      exact factorUnsolved_startingAt _ _ pending

/-! ### Exchanges -/

/-- A start point may be exchanged with a call that takes what is placed to where it is placed
afterwards. -/
theorem Takes.exchange {c : SessionCall α} {f : Iterate α n m → Iterate α n m}
    (h : S.Takes env c f)
    (hplace : ∀ x y v, f (S.data.place x y v) = (S.call env c).2.data.place x y (f v))
    (x y : Option (Array α)) : Exchange env S (.warmStart x y) c := by
  have hstands : (S.call env c).2 = (S.call env c).2.startingAt (f S.vars) S.startPending :=
    congrArg Prod.snd (h S.vars S.startPending)
  have hvars : (S.call env c).2.vars = f S.vars := congrArg Session.vars hstands
  have hstart : ∀ T : Session α n m, T.call env (.warmStart x y) = T.warmStart x y :=
    fun _ => rfl
  rcases hcheck : (checkStart x y : Except DataFault (Option (Vec α n) × Option (Vec α m)))
    with e | ⟨x', y'⟩
  · have hrefused : ∀ T : Session α n m, T.warmStart x y = (.error (.dataValidation e), T) := by
      intro T
      rw [warmStart_eq, hcheck]
    constructor <;> simp only [hstart, hrefused]
  · have hmoved : ∀ T : Session α n m, T.warmStart x y
        = (.ok (), T.startingAt (T.data.place x' y' T.vars) true) := by
      intro T
      rw [warmStart_eq, hcheck]
    constructor
    · simp only [hstart, hmoved]
    · simp only [hstart, hmoved, h _ _]
    · simp only [hstart, hmoved, h _ _, hplace, hvars]

section Exact

variable {K : Type} [Field K] [LinearOrder K] [IsStrictOrderedRing K] [ExactScalar K]

/-- A start point may be given before an update of the data or after it: both calls have
the same answers in either order, and leave the same session. -/
theorem warmStart_exchange {S : Session K n m} (h : S.Reachable) (env : Environment K)
    (x y : Option (Array K)) :
    (∀ q l u, Exchange env S (.warmStart x y) (.updateVectors q l u)) ∧
    ∀ Px PxIdx Ax AxIdx, Exchange env S (.warmStart x y) (.updateMatrices Px PxIdx Ax AxIdx) := by
  refine ⟨fun q l u => ?_, fun Px PxIdx Ax AxIdx => ?_⟩
  · refine (updateVectors_takes env S q l u).exchange (fun x y v => ?_) x y
    exact congrFun (updateVectors_place S q l u x y).symm v
  · rcases updateMatrices_takes env S Px PxIdx Ax AxIdx with ⟨hdata, htakes⟩ | htakes
    · refine htakes.exchange (fun x y v => ?_) x y
      exact (congrArg (fun D : Problem K n m => D.place x y v) hdata).symm
    · exact htakes.exchange (h.sound.scaled.carry_place _) x y

end Exact

/-- Before and after an update of the unit problem that changes its scaling. -/
theorem warmStart_exchange_unitProblem : ∃ (S : AdmmSession ℚ) (T U : Session ℚ S.n S.m),
    AdmmSession.setup (.still ℚ) unitProblem { plainSettings with scaling := 1 } = .ok S ∧
    S.session.call (.still ℚ) (.warmStart (some #[0.5]) none) = (.ok (), T) ∧
    T.call (.still ℚ) (.updateMatrices (some #[4]) none (some #[3]) (some #[0])) = (.ok (), U) ∧
    U.data.scaling.d ≠ T.data.scaling.d ∧
    Exchange (.still ℚ) S.session (.warmStart (some #[0.5]) none)
      (.updateMatrices (some #[4]) none (some #[3]) (some #[0])) := by
  have hrun : (match AdmmSession.setup (.still ℚ) unitProblem
        { plainSettings with scaling := 1 } with
      | .error _ => false
      | .ok S => match S.session.call (.still ℚ) (.warmStart (some #[0.5]) none) with
        | (.error _, _) => false
        | (.ok (), T) =>
          match T.call (.still ℚ) (.updateMatrices (some #[4]) none (some #[3]) (some #[0])) with
          | (.error _, _) => false
          | (.ok (), U) => decide (U.data.scaling.d ≠ T.data.scaling.d)) = true := by
    decide +kernel
  split at hrun
  · cases hrun
  · rename_i S hsetup
    split at hrun
    · cases hrun
    · rename_i T hstart
      split at hrun
      · cases hrun
      · rename_i U hupdate
        exact ⟨S, T, U, hsetup, hstart, hupdate, of_decide_eq_true hrun,
          (warmStart_exchange (.setup hsetup) (.still ℚ) _ _).2 _ _ _ _⟩

end Session
end QuadOpt
