/-
# What a session admits

New data are admitted if they have the right sizes and positions, and if the problem that
is asked for has finite numbers and no crossed bounds. A call that is not admitted is
refused, whichever of its arguments are given, and the session is then exactly as it was
before. A call that is admitted is never refused, and an update of the data leaves the
user's data as it asks for, even if the system cannot be factored afterwards.

Key definitions: `overwritten`, `QpData.requested`, `QpData.admits`, `Session.Admits`,
`Session.Answer`.
Key theorems: `replaceValues_cases`, `Session.checkVectors_cases`,
`Session.checkMatrices_cases`, `Session.call_answer`, `Session.refused_call_keeps`.
-/
import QuadOpt.Proofs.Admm.Ready

namespace QuadOpt

open Scalar

variable {α : Type} [Scalar α] {n m : Nat}

/-! ### Requests -/

/-- There is a value for each of `count` positions, or one for each listed position, and
these exist. -/
def valuesFit (count : Nat) (values : Option (Array α)) (indices : Option (Array Nat)) : Bool :=
  match values, indices with
  | none, none => true
  | none, some _ => false
  | some v, none => v.size == count
  | some v, some idx => v.size == idx.size && idx.all (· < count)

/-- The numbers `old` with the given values in their places: all of them, or in each
position the last value that is listed for it. -/
def overwritten (old : Array α) (values : Option (Array α)) (indices : Option (Array Nat)) :
    Array α :=
  match values, indices with
  | none, _ => old
  | some v, none => v
  | some v, some idx => Array.ofFn fun k : Fin old.size =>
    (((idx.toList.zip v.toList).reverse.find? fun e => e.1 == k.val).map Prod.snd).getD old[k]

namespace QpData

/-- The problem with bounds of limited magnitude. -/
def clamped (D : QpData α) : QpData α :=
  { D with
    l := D.l.map fun x => maxNum x (-Limits.infinity)
    u := D.u.map fun x => minNum x Limits.infinity }

/-- The problem that a call asks for. -/
def requested (D : QpData α) : SessionCall α → QpData α
  | .updateVectors q l u =>
    ({ D with q := q.getD D.q, l := l.getD D.l, u := u.getD D.u } : QpData α).clamped
  | .updateMatrices Px PxIdx Ax AxIdx =>
    { D with
      P := { D.P with nzval := overwritten D.P.nzval Px PxIdx }
      A := { D.A with nzval := overwritten D.A.nzval Ax AxIdx } }
  | _ => D

/-- The vectors have the lengths of the old ones and hold numbers, and no bounds would be
crossed. -/
def admitsVectors (D : QpData α) (q l u : Option (Array α)) : Bool :=
  let new := D.requested (.updateVectors q l u)
  q.all (fun q => q.size == D.q.size) && l.all (fun l => l.size == D.l.size) &&
    u.all (fun u => u.size == D.u.size) && q.all (fun q => q.all isFinite) &&
    l.all (fun l => !l.any isNaN) && u.all (fun u => !u.any isNaN) &&
    (new.l.zip new.u).all fun b => decide (b.1 ≤ b.2)

/-- The values fit to the patterns of the matrices, which would hold finite numbers
only. -/
def admitsValues (D : QpData α) (Px : Option (Array α)) (PxIdx : Option (Array Nat))
    (Ax : Option (Array α)) (AxIdx : Option (Array Nat)) : Bool :=
  let new := D.requested (.updateMatrices Px PxIdx Ax AxIdx)
  valuesFit D.P.nzval.size Px PxIdx && valuesFit D.A.nzval.size Ax AxIdx &&
    (new.P.nzval.all isFinite && new.A.nzval.all isFinite)

/-- The data of a call are acceptable for the problem. Nothing is asked of an update of the
matrices that gives nothing. -/
def admits (D : QpData α) : SessionCall α → Bool
  | .updateVectors q l u => D.admitsVectors q l u
  | .updateMatrices Px PxIdx Ax AxIdx =>
    Px.isNone && PxIdx.isNone && Ax.isNone && AxIdx.isNone || D.admitsValues Px PxIdx Ax AxIdx
  | _ => true

end QpData

/-! ### Checks -/

omit [Scalar α] in
theorem vecOfLength_cases (name : String) (k : Nat) (v : Option (Array α)) :
    (∃ w : Option (Vec α k), vecOfLength name k v = .ok w ∧ v = w.map Vector.toArray) ∨
      (v.all (fun v => v.size == k) = false ∧ ∃ e, vecOfLength name k v = .error e) := by
  cases v with
  | none => exact .inl ⟨none, rfl, rfl⟩
  | some v =>
    unfold vecOfLength Vec.ofArray?
    by_cases hv : v.size = k
    · exact .inl ⟨some ⟨v, hv⟩, by simp [hv], rfl⟩
    · exact .inr ⟨by simp [hv], _, by simp only [dif_neg hv]; rfl⟩

omit [Scalar α] in
/-- In each position stands the last number that was put there. -/
theorem get_foldl_setIfInBounds {k : Nat} (entries : List (Nat × α)) (old : Vec α k) (i : Fin k) :
    (entries.foldl (fun w e => w.setIfInBounds e.1 e.2) old).get i
      = ((entries.reverse.find? fun e => e.1 == i.val).map Prod.snd).getD (old.get i) := by
  induction entries generalizing old with
  | nil => rfl
  | cons e entries ih =>
    rw [List.foldl_cons, ih, List.reverse_cons, List.find?_append]
    cases entries.reverse.find? fun e => e.1 == i.val with
    | some e' => rfl
    | none => by_cases he : e.1 = i.val <;> simp [he, Vec.get_eq_getElem]

omit [Scalar α] in
theorem replaceValues_cases {k : Nat} (name : String) (old : Vec α k)
    (values : Option (Array α)) (indices : Option (Array Nat)) :
    (valuesFit k values indices = true ∧ ∃ w, replaceValues name old values indices = .ok w ∧
      w.toArray = overwritten old.toArray values indices) ∨
    (valuesFit k values indices = false ∧
      ∃ e, replaceValues name old values indices = .error e) := by
  unfold replaceValues valuesFit overwritten
  cases values with
  | none =>
    cases indices with
    | none => exact .inl ⟨rfl, old, rfl, rfl⟩
    | some idx => exact .inr ⟨rfl, _, rfl⟩
  | some v =>
    cases indices with
    | none =>
      unfold Vec.ofArray?
      by_cases hv : v.size = k
      · exact .inl ⟨by simp [hv], ⟨v, hv⟩, by simp [hv], rfl⟩
      · exact .inr ⟨by simp [hv], _, by simp only [dif_neg hv]; rfl⟩
    | some idx =>
      by_cases hsize : v.size = idx.size
      · simp only [hsize, ne_eq, not_true_eq_false, if_false, beq_self_eq_true, Bool.true_and]
        cases hfind : idx.find? fun i => decide (k ≤ i) with
        | some i =>
          refine .inr ⟨?_, _, rfl⟩
          have hi : k ≤ i := by simpa using Array.find?_some hfind
          rw [Array.all_eq_false']
          exact ⟨i, Array.mem_of_find?_eq_some hfind, by simpa using hi⟩
        | none =>
          refine .inl ⟨?_, _, rfl, ?_⟩
          · rw [Array.find?_eq_none] at hfind
            rw [Array.all_eq_true_iff_forall_mem]
            intro i hi
            simpa using hfind i hi
          · apply Array.ext
            · simp
            · intro i hi _
              rw [Array.getElem_ofFn]
              exact get_foldl_setIfInBounds _ old ⟨i, by simpa using hi⟩
      · exact .inr ⟨by simp [hsize], _, by simp [hsize]; rfl⟩

theorem Vec.all_zip_toArray (v w : Vec α n) :
    ((v.toArray.zip w.toArray).all fun b => decide (b.1 ≤ b.2)) = true ↔
      ∀ i, v.get i ≤ w.get i := by
  rw [Array.all_eq_true]
  simp only [Array.getElem_zip, decide_eq_true_eq, Array.size_zip, Vector.size_toArray,
    Nat.min_self]
  exact ⟨fun h i => h i i.isLt, fun h i hi => h ⟨i, hi⟩⟩

theorem Vec.find?_crossed_eq_none_iff (v w : Vec α n) :
    ((List.finRange n).find? fun (i : Fin n) => !decide (v.get i ≤ w.get i)) = none ↔
      ((v.toArray.zip w.toArray).all fun b => decide (b.1 ≤ b.2)) = true := by
  rw [Vec.all_zip_toArray, List.find?_eq_none]
  simp

theorem Vec.allFinite_eq (v : Vec α n) : v.allFinite = v.toArray.all isFinite :=
  Array.all_toList

/-! What is asked of the vectors that are given, as they are checked: -/

omit [Scalar α] in
theorem all_size_map (v : Option (Vec α n)) :
    ((v.map Vector.toArray).all fun v => v.size == n) = true := by
  cases v <;> simp

theorem all_isFinite_map (v : Option (Vec α n)) :
    ((v.map Vector.toArray).all fun v => v.all isFinite) = !v.any fun v => !v.allFinite := by
  cases v with
  | none => rfl
  | some v => exact ((Bool.not_not _).trans v.allFinite_eq).symm

theorem all_isNaN_map (v : Option (Vec α n)) :
    ((v.map Vector.toArray).all fun v => !v.any isNaN) = !v.any fun v => v.toList.any isNaN := by
  cases v with
  | none => rfl
  | some v => exact congrArg not Array.any_toList.symm

theorem QpData.requested_updateVectors (D : Instance α n m) (q : Option (Vec α n))
    (l u : Option (Vec α m)) :
    D.toQpData.requested (.updateVectors (q.map Vector.toArray) (l.map Vector.toArray)
        (u.map Vector.toArray))
      = Instance.toQpData { D with
          q := q.getD D.q, l := clampLower (l.getD D.l), u := clampUpper (u.getD D.u) } := by
  cases q <;> cases l <;> cases u <;> rfl

theorem QpData.requested_updateMatrices (D : Instance α n m) {Px : Option (Array α)}
    {PxIdx : Option (Array Nat)} {Ax : Option (Array α)} {AxIdx : Option (Array Nat)}
    {P : Vec α D.P.nnz} {A : Vec α D.A.nnz}
    (hP : P.toArray = overwritten D.P.values.toArray Px PxIdx)
    (hA : A.toArray = overwritten D.A.values.toArray Ax AxIdx) :
    D.toQpData.requested (.updateMatrices Px PxIdx Ax AxIdx)
      = Instance.toQpData { D with
          P := D.P.withValues P, A := D.A.withValues A, upper := D.upper } := by
  unfold QpData.requested
  have hP : P.toArray = overwritten D.P.csc.nzval Px PxIdx := hP
  have hA : A.toArray = overwritten D.A.csc.nzval Ax AxIdx := hA
  simp only [Instance.toQpData, SparseMatrix.withValues, hP, hA]

namespace Session

/-- New vectors are accepted iff they are admitted, and then they are those that are
asked for. -/
theorem checkVectors_cases (S : Session α n m) (q l u : Option (Array α)) :
    let D := S.data.user.toQpData
    (D.admitsVectors q l u = true ∧ ∃ new, S.checkVectors q l u = .ok new ∧
      Instance.toQpData { S.data.user with
        q := new.q.getD S.data.user.q, l := new.l, u := new.u }
          = D.requested (.updateVectors q l u)) ∨
    (D.admitsVectors q l u = false ∧ ∃ e, S.checkVectors q l u = .error e) := by
  intro D
  have hsizes : D.q.size = n ∧ D.l.size = m ∧ D.u.size = m := by
    simp [D, Instance.toQpData]
  unfold checkVectors QpData.admitsVectors
  simp only [bind, Except.bind, pure, Except.pure, throw, throwThe, MonadExceptOf.throw, hsizes]
  rcases vecOfLength_cases "q" n q with ⟨q, hq, rfl⟩ | ⟨hrefused, e, hq⟩
  · rcases vecOfLength_cases "l" m l with ⟨l, hl, rfl⟩ | ⟨hrefused, e, hl⟩
    · rcases vecOfLength_cases "u" m u with ⟨u, hu, rfl⟩ | ⟨hrefused, e, hu⟩
      · simp only [hq, hl, hu, all_size_map, all_isFinite_map, all_isNaN_map, Bool.true_and]
        cases q.any fun q => !q.allFinite with
        | true => exact .inr ⟨rfl, _, rfl⟩
        | false =>
          cases l.any fun v => v.toList.any isNaN with
          | true => exact .inr ⟨rfl, _, rfl⟩
          | false =>
            cases u.any fun v => v.toList.any isNaN with
            | true => exact .inr ⟨rfl, _, rfl⟩
            | false =>
              have hcrossed := Vec.find?_crossed_eq_none_iff (clampLower (l.getD S.data.user.l))
                (clampUpper (u.getD S.data.user.u))
              rw [QpData.requested_updateVectors]
              cases hfind : (List.finRange m).find? _ with
              | none => exact .inl ⟨hcrossed.mp hfind, _, rfl, rfl⟩
              | some i =>
                rw [hfind] at hcrossed
                exact .inr ⟨Bool.eq_false_iff.mpr fun h => Option.some_ne_none i (hcrossed.mpr h), _, rfl⟩
      · exact .inr ⟨by simp [hrefused], e, by rw [hq, hl, hu]⟩
    · exact .inr ⟨by simp [hrefused], e, by rw [hq, hl]⟩
  · exact .inr ⟨by simp [hrefused], e, by rw [hq]⟩

/-- New values of the matrices are accepted iff they are admitted, and then they are those
that are asked for. -/
theorem checkMatrices_cases (S : Session α n m) (Px : Option (Array α)) (PxIdx : Option (Array Nat))
    (Ax : Option (Array α)) (AxIdx : Option (Array Nat)) :
    let D := S.data.user.toQpData
    (D.admitsValues Px PxIdx Ax AxIdx = true ∧
      ∃ P A, S.checkMatrices Px PxIdx Ax AxIdx = .ok (P, A) ∧
        Instance.toQpData { S.data.user with
          P := S.data.user.P.withValues P
          A := S.data.user.A.withValues A
          upper := S.data.user.upper } = D.requested (.updateMatrices Px PxIdx Ax AxIdx)) ∨
    (D.admitsValues Px PxIdx Ax AxIdx = false ∧
      ∃ e, S.checkMatrices Px PxIdx Ax AxIdx = .error e) := by
  intro D
  unfold checkMatrices QpData.admitsValues
  simp only [bind, Except.bind, pure, Except.pure, throw, throwThe, MonadExceptOf.throw]
  rcases replaceValues_cases "P" S.data.user.P.values Px PxIdx with
    ⟨hfitP, P, hP, hvaluesP⟩ | ⟨hmisfitP, e, hP⟩
  · rcases replaceValues_cases "A" S.data.user.A.values Ax AxIdx with
      ⟨hfitA, A, hA, hvaluesA⟩ | ⟨hmisfitA, e, hA⟩
    · have hfits : valuesFit D.P.nzval.size Px PxIdx = true ∧
          valuesFit D.A.nzval.size Ax AxIdx = true := ⟨hfitP, hfitA⟩
      rw [QpData.requested_updateMatrices S.data.user hvaluesP hvaluesA]
      simp only [hP, hA, hfits, Bool.true_and, P.allFinite_eq, A.allFinite_eq]
      cases hfinite : P.toArray.all isFinite && A.toArray.all isFinite with
      | true => exact .inl ⟨hfinite, P, A, rfl, rfl⟩
      | false => exact .inr ⟨hfinite, _, rfl⟩
    · have hmisfit : valuesFit D.A.nzval.size Ax AxIdx = false := hmisfitA
      exact .inr ⟨by simp [hmisfit], e, by simp only [hP, hA]⟩
  · have hmisfit : valuesFit D.P.nzval.size Px PxIdx = false := hmisfitP
    exact .inr ⟨by simp [hmisfit], e, by simp only [hP]⟩

omit [Scalar α] in
theorem checkStart_cases (x y : Option (Array α)) :
    ((x.all fun x => x.size == n) = true ∧ (y.all fun y => y.size == m) = true ∧
      ∃ start, (checkStart x y : Except DataFault (Option (Vec α n) × Option (Vec α m)))
        = .ok start) ∨
    (¬((x.all fun x => x.size == n) = true ∧ (y.all fun y => y.size == m) = true) ∧
      ∃ e, (checkStart x y : Except DataFault (Option (Vec α n) × Option (Vec α m)))
        = .error e) := by
  unfold checkStart
  simp only [bind, Except.bind, pure, Except.pure]
  rcases vecOfLength_cases "warm start x" n x with ⟨x, hx, rfl⟩ | ⟨hrefused, e, hx⟩
  · rcases vecOfLength_cases "warm start y" m y with ⟨y, hy, rfl⟩ | ⟨hrefused, e, hy⟩
    · exact .inl ⟨all_size_map x, all_size_map y, (x, y), by rw [hx, hy]⟩
    · exact .inr ⟨by simp [hrefused], e, by rw [hx, hy]⟩
  · exact .inr ⟨by simp [hrefused], e, by rw [hx]⟩

/-! ### Calls -/

/-- The session accepts a call: its data are acceptable, a start point has the right
dimensions, and settings are legal and change nothing that only a setup can choose. -/
def Admits (S : Session α n m) (c : SessionCall α) : Prop :=
  S.data.user.toQpData.admits c = true ∧
    match c with
    | .warmStart x y =>
      (x.all fun x => x.size == n) = true ∧ (y.all fun y => y.size == m) = true
    | .updateSettings s => s.validate = .ok () ∧ (s.sigma == S.settings.sigma) = true ∧
        s.scaling = S.settings.scaling ∧ s.adaptiveRho = S.settings.adaptiveRho ∧
        s.adaptiveRhoInterval = S.settings.adaptiveRhoInterval
    | _ => True

/-- The ways in which a session answers a call: it refuses it and stays as it is, or takes
the data over, whatever comes of it. -/
inductive Answer (S : Session α n m) (c : SessionCall α) :
    Except EngineError Unit × Session α n m → Prop where
  | refused {e : EngineError} : ¬S.Admits c → e.isRefusal = true →
      ((∃ f, e = .dataUpdate f) ↔ S.data.user.toQpData.admits c = false) → Answer S c (.error e, S)
  | admitted {r : Except EngineError Unit} {T : Session α n m} : S.Admits c →
      (∀ e, r = .error e → e.isRefusal = false) →
      T.data.user.toQpData = S.data.user.toQpData.requested c → Answer S c (r, T)

variable {S T U : Session α n m} {c : SessionCall α}

theorem Answer.returned (hc : S.Admits c)
    (hdata : T.data.user.toQpData = S.data.user.toQpData.requested c) : Answer S c (.ok (), T) :=
  .admitted hc (fun _ he => by cases he) hdata

/-- What a call asks for stays whether the system can be factored or not. -/
theorem Answer.factored (hc : S.Admits c)
    (hdata : U.data.user.toQpData = S.data.user.toQpData.requested c)
    (hsame : U.factorSystem.2.SameCore T) : Answer S c (U.factorSystem.1, T) := by
  refine .admitted hc (fun e he => (factorSystem_error he).1) ?_
  rw [hsame.data, U.factorSystem_sameCore.data]
  exact hdata

theorem Answer.factorUnsolved (hc : S.Admits c)
    (hdata : U.data.user.toQpData = S.data.user.toQpData.requested c) :
    Answer S c U.factorUnsolved := by
  obtain ⟨hresult, hsame⟩ := U.factorUnsolved_eq
  have := Answer.factored hc hdata hsame
  rwa [← hresult] at this

theorem updateVectors_answer (S : Session α n m) (q l u : Option (Array α)) :
    Answer S (.updateVectors q l u) (S.updateVectors q l u) := by
  unfold updateVectors
  rcases S.checkVectors_cases q l u with ⟨hadmits, new, hcheck, hdata⟩ | ⟨hrefused, e, hcheck⟩
  · rw [hcheck]
    simp only
    split
    · exact .returned ⟨hadmits, trivial⟩ hdata
    · exact .factorUnsolved ⟨hadmits, trivial⟩ hdata
  · rw [hcheck]
    refine .refused (fun h => ?_) rfl ⟨fun _ => hrefused, fun _ => ⟨e, rfl⟩⟩
    exact Bool.false_ne_true (hrefused.symm.trans h.1)

theorem updateMatrices_answer (S : Session α n m) (Px : Option (Array α))
    (PxIdx : Option (Array Nat)) (Ax : Option (Array α)) (AxIdx : Option (Array Nat)) :
    Answer S (.updateMatrices Px PxIdx Ax AxIdx) (S.updateMatrices Px PxIdx Ax AxIdx) := by
  unfold updateMatrices
  cases hnothing : Px.isNone && PxIdx.isNone && Ax.isNone && AxIdx.isNone with
  | true =>
    refine .returned ⟨?_, trivial⟩ ?_
    · simp only [QpData.admits, hnothing, Bool.true_or]
    · simp only [Bool.and_eq_true, Option.isNone_iff_eq_none] at hnothing
      obtain ⟨⟨⟨rfl, rfl⟩, rfl⟩, rfl⟩ := hnothing
      rfl
  | false =>
    have hadmits_eq : S.data.user.toQpData.admits (.updateMatrices Px PxIdx Ax AxIdx)
        = S.data.user.toQpData.admitsValues Px PxIdx Ax AxIdx := by
      simp only [QpData.admits, hnothing, Bool.false_or]
    rcases S.checkMatrices_cases Px PxIdx Ax AxIdx with
      ⟨hadmits, P, A, hcheck, hdata⟩ | ⟨hrefused, e, hcheck⟩
    · rw [hcheck]
      exact .factorUnsolved ⟨hadmits_eq.trans hadmits, trivial⟩ hdata
    · rw [hcheck]
      rw [← hadmits_eq] at hrefused
      refine .refused (fun h => ?_) rfl ⟨fun _ => hrefused, fun _ => ⟨e, rfl⟩⟩
      exact Bool.false_ne_true (hrefused.symm.trans h.1)

theorem warmStart_answer (S : Session α n m) (x y : Option (Array α)) :
    Answer S (.warmStart x y) (S.warmStart x y) := by
  unfold warmStart
  rcases checkStart_cases (n := n) (m := m) x y with
    ⟨hx, hy, ⟨x', y'⟩, hcheck⟩ | ⟨hrefused, e, hcheck⟩
  · rw [hcheck]
    cases x' <;> cases y' <;> exact .returned ⟨rfl, hx, hy⟩ rfl
  · rw [hcheck]
    exact .refused (fun h => hrefused h.2) rfl (by simp [QpData.admits])

theorem updateSettings_answer (S : Session α n m) (settings : Settings α) :
    Answer S (.updateSettings settings) (S.updateSettings settings) := by
  have hadmits : S.Admits (.updateSettings settings) ↔
      settings.validateUpdate S.settings = .ok () := by
    rw [Settings.validateUpdate_eq_ok_iff]
    exact and_iff_right rfl
  unfold updateSettings
  split
  · rename_i e he
    refine .refused (fun h => ?_) rfl (by simp [QpData.admits])
    rw [hadmits.mp h] at he
    cases he
  · rename_i hok
    split
    · exact .factored (hadmits.mpr hok) rfl (.refl _)
    · exact .returned (hadmits.mpr hok) rfl

theorem solve_answer (S : Session α n m) (env : Environment α) :
    Answer S .solve (S.solve env) := by
  obtain ⟨hok, herror⟩ := solve_induction (p := fun T => T.data = S.data)
    (q := fun e T => T.data = S.data ∧ e.isRefusal = false)
    (fun hsame hT => hsame.data.trans hT) (fun hT _ hsame => ⟨hsame.data.trans hT, rfl⟩)
    (fun {T} hT => by
      have hdata := (factorSystem_sameCore (T.adopt T.estimateRho)).data
      refine ⟨fun {U} hU => ?_, fun {e U} hU => ⟨?_, ?_⟩⟩
      · rw [hU] at hdata
        exact hdata.trans hT
      · rw [hU] at hdata
        exact hdata.trans hT
      · exact (factorSystem_error (congrArg Prod.fst hU)).1)
    env rfl
  cases hsolve : S.solve env with
  | mk r T =>
    cases r with
    | ok u =>
      refine .returned ⟨rfl, trivial⟩ ?_
      rw [hok T hsolve]
      rfl
    | error e =>
      obtain ⟨hdata, hnot⟩ := herror e T hsolve
      refine .admitted ⟨rfl, trivial⟩ (fun e' he' => ?_) ?_
      · cases he'
        exact hnot
      · rw [hdata]
        rfl

/-- Every call is refused or admitted. -/
theorem call_answer (S : Session α n m) (env : Environment α) (c : SessionCall α) :
    Answer S c (S.call env c) := by
  cases c with
  | solve => exact S.solve_answer env
  | updateVectors q l u => exact S.updateVectors_answer q l u
  | updateMatrices Px PxIdx Ax AxIdx => exact S.updateMatrices_answer Px PxIdx Ax AxIdx
  | warmStart x y => exact S.warmStart_answer x y
  | updateSettings settings => exact S.updateSettings_answer settings

/-- A call that refuses its input leaves the session as it was, and it refuses exactly
what is not admitted, whichever arguments are given. -/
theorem refused_call_keeps (S : Session α n m) (env : Environment α) (c : SessionCall α) :
    (∀ e, (S.call env c).1 = .error e → e.isRefusal = true → (S.call env c).2 = S) ∧
      ((∃ e, (S.call env c).1 = .error e ∧ e.isRefusal = true) ↔ ¬S.Admits c) := by
  have hanswer := S.call_answer env c
  cases hcall : S.call env c with
  | mk r T =>
    rw [hcall] at hanswer
    cases hanswer with
    | refused hc he => exact ⟨fun _ _ _ => rfl, fun _ => hc, fun _ => ⟨_, rfl, he⟩⟩
    | admitted hc hresult _ =>
      have hnot : ∀ e, r = .error e → e.isRefusal ≠ true := fun e he =>
        Bool.eq_false_iff.mp (hresult e he)
      exact ⟨fun e he hrefusal => absurd hrefusal (hnot e he),
        fun ⟨e, he, hrefusal⟩ => absurd hrefusal (hnot e he), fun h => absurd hc h⟩

/-- New bounds that are crossed, with a linear objective that is acceptable. -/
theorem refused_call_keeps_unitProblem : ∃ S : AdmmSession ℚ,
    AdmmSession.setup (.still ℚ) unitProblem plainSettings = .ok S ∧
    S.session.call (.still ℚ) (.updateVectors (some #[5]) (some #[3]) (some #[2]))
      = (.error (.dataUpdate (.crossedNewBounds 0)), S.session) ∧
    ¬S.session.Admits (.updateVectors (some #[5]) (some #[3]) (some #[2])) := by
  have hrun : (match AdmmSession.setup (.still ℚ) unitProblem plainSettings with
      | .error _ => false
      | .ok S => decide ((S.session.call (.still ℚ)
          (.updateVectors (some #[5]) (some #[3]) (some #[2]))).1
            = .error (.dataUpdate (.crossedNewBounds 0)))) = true := by
    decide +kernel
  split at hrun
  · cases hrun
  · rename_i S hsetup
    have hresult := of_decide_eq_true hrun
    obtain ⟨hkeeps, hiff⟩ := refused_call_keeps S.session (.still ℚ)
      (.updateVectors (some #[5]) (some #[3]) (some #[2]))
    exact ⟨S, hsetup, Prod.ext hresult (hkeeps _ hresult rfl), hiff.mp ⟨_, hresult, rfl⟩⟩

end Session
end QuadOpt
