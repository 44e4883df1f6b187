/-
# The problem that the session holds

A model pushes matrix values into its session only where they differ from a
copy of what it pushed before, and settings only where they differ from those of
the session. For an engine that stores what it is given, the session on which a
solve runs nevertheless holds the current problem and the current settings, up
to the sign of zeros, by whichever path they came there.

Between two operations only the copies have to agree with the session
(`CopiesAgree`); a session that failed to take over new values is dropped, so it
does not matter what it holds.

Key definitions: `Agree`, `Csc.Agree`, `Engine.Stores`, `Engine.Holds`,
`Model.CopiesAgree`.
Key theorems: `Model.copiesAgree_of_reachable`, `Model.session_holds_problem`.
-/
import QuadOpt.Proofs.Exact
import QuadOpt.Proofs.Model.Run

namespace QuadOpt

/-! ### Equal numbers -/

/-- The same value, or values that compare equal as zeros of either sign do. -/
def Agree {β : Type} [BEq β] (a b : β) : Prop := a = b ∨ (a == b) = true

namespace Agree

variable {β : Type} [BEq β] {a b c : β}

theorem refl (a : β) : Agree a a := .inl rfl

variable [PartialEquivBEq β]

theorem symm (h : Agree a b) : Agree b a := by
  rcases h with rfl | h
  · exact .refl a
  · exact .inr (BEq.symm h)

theorem trans (hab : Agree a b) (hbc : Agree b c) : Agree a c := by
  rcases hab with rfl | hab
  · exact hbc
  · rcases hbc with rfl | hbc
    · exact .inr hab
    · exact .inr (BEq.trans hab hbc)

end Agree

/-- Entry by entry the same numbers. -/
def AgreeAll {β : Type} [BEq β] (v w : Array β) : Prop :=
  ∃ h : v.size = w.size, ∀ i (hi : i < v.size), Agree v[i] w[i]

namespace AgreeAll

variable {β : Type} [BEq β] {u v w : Array β}

theorem refl (v : Array β) : AgreeAll v v := ⟨rfl, fun _ _ => .refl _⟩

/-- Arrays that do not compare different. -/
theorem of_bne_eq_false (h : (v != w) = false) : AgreeAll v w := by
  rw [bne, Bool.not_eq_false'] at h
  obtain ⟨hs, h⟩ := Array.isEqv_iff_rel.mp h
  exact ⟨hs, fun i hi => .inr (h i hi)⟩

variable [PartialEquivBEq β]

theorem symm (h : AgreeAll v w) : AgreeAll w v := by
  obtain ⟨hs, h⟩ := h
  exact ⟨hs.symm, fun i hi => (h i (hs ▸ hi)).symm⟩

theorem trans (huv : AgreeAll u v) (hvw : AgreeAll v w) : AgreeAll u w := by
  obtain ⟨hs, huv⟩ := huv
  obtain ⟨hs', hvw⟩ := hvw
  exact ⟨hs.trans hs', fun i hi => (huv i hi).trans (hvw i (hs ▸ hi))⟩

end AgreeAll

namespace Csc

variable {α : Type} [BEq α]

/-- The same positions with the same numbers. -/
structure Agree (A B : Csc α) : Prop where
  m : A.m = B.m
  n : A.n = B.n
  colptr : A.colptr = B.colptr
  rowval : A.rowval = B.rowval
  nzval : AgreeAll A.nzval B.nzval

variable {A B C : Csc α}

theorem Agree.refl (A : Csc α) : A.Agree A := ⟨rfl, rfl, rfl, rfl, .refl _⟩

theorem Agree.symm [PartialEquivBEq α] (h : A.Agree B) : B.Agree A :=
  ⟨h.m.symm, h.n.symm, h.colptr.symm, h.rowval.symm, h.nzval.symm⟩

theorem Agree.trans [PartialEquivBEq α] (hAB : A.Agree B) (hBC : B.Agree C) : A.Agree C :=
  ⟨hAB.m.trans hBC.m, hAB.n.trans hBC.n, hAB.colptr.trans hBC.colptr,
    hAB.rowval.trans hBC.rowval, hAB.nzval.trans hBC.nzval⟩

omit [BEq α] in
/-- A matrix with the values of another one that stores the same positions is that matrix. -/
theorem with_nzval_eq (h : A.requireSamePattern B = .ok ()) : { A with nzval := B.nzval } = B := by
  unfold requireSamePattern at h
  split at h
  · cases h
  · split at h
    · rename_i hs
      simp only [samePattern, Bool.and_eq_true, beq_iff_eq] at hs
      obtain ⟨⟨⟨hm, hn⟩, hc⟩, hr⟩ := hs
      rw [hm, hn, hc, hr]
    · cases h

/-- A matrix whose positions and values do not differ from those of another one. -/
theorem Agree.of_bne_eq_false (h : A.requireSamePattern B = .ok ())
    (hv : (A.nzval != B.nzval) = false) : A.Agree B := by
  have hB := with_nzval_eq h
  refine ⟨?_, ?_, ?_, ?_, .of_bne_eq_false hv⟩ <;> rw [← hB]

end Csc

/-! ### Engines that store what they are given -/

variable {α ε σ : Type} [Scalar α]

/-- The engine stores the problem and the settings that a session is set up with,
and what an update that succeeds replaces; nothing else changes them. What the
session holds as its problem is read by `data`. -/
structure Engine.Stores (E : Engine α ε σ) (data : σ → QpData α) : Prop where
  setup : ∀ {D s e S e'}, E.setup D s e = (.ok S, e') → data S = D ∧ E.settings S = s
  updateVectors : ∀ {q l u S e T e'},
    E.call (.updateVectors (some q) (some l) (some u)) S e = (.ok (), T, e') →
      data T = { data S with q := q, l := l, u := u } ∧ E.settings T = E.settings S
  updateMatrices : ∀ {Px Ax S e T e'},
    E.call (.updateMatrices Px none Ax none) S e = (.ok (), T, e') →
      data T = { data S with
        P := { (data S).P with nzval := Px.getD (data S).P.nzval }
        A := { (data S).A with nzval := Ax.getD (data S).A.nzval } } ∧
      E.settings T = E.settings S
  updateSettings : ∀ {s S e T e'}, E.call (.updateSettings s) S e = (.ok (), T, e') →
    data T = data S ∧ E.settings T = s
  warmStart : ∀ {x y S e r T e'}, E.call (.warmStart x y) S e = (r, T, e') →
    data T = data S ∧ E.settings T = E.settings S
  solve : ∀ {S e r T e'}, E.call .solve S e = (r, T, e') →
    data T = data S ∧ E.settings T = E.settings S

/-- The session holds the given problem and settings. -/
structure Engine.Holds (E : Engine α ε σ) (data : σ → QpData α) (S : σ) (D : QpData α)
    (s : Settings α) : Prop where
  P : (data S).P.Agree D.P
  q : (data S).q = D.q
  A : (data S).A.Agree D.A
  l : (data S).l = D.l
  u : (data S).u = D.u
  settings : Agree (E.settings S) s

namespace Model

open ModelM

/-- The copies of the matrices in a workspace are those of its session. -/
def CopiesAgree (data : σ → QpData α) (M : Model α ε σ) : Prop :=
  ∀ w, M.workspace = some w → w.P.Agree (data w.session).P ∧ w.A.Agree (data w.session).A

variable {E : Engine α ε σ} {data : σ → QpData α}

/-- The session that a model has holds the problem `F` and the settings of `M₀`, and the
copies are those of the session. -/
def Current (E : Engine α ε σ) (data : σ → QpData α) (F : StandardForm α) (M₀ M : Model α ε σ) :
    Prop :=
  SameContents M₀ M ∧ CopiesAgree data M ∧
    ∃ w, M.workspace = some w ∧ E.Holds data w.session F.toQpData M₀.settings

theorem startSession_ensures (hE : E.Stores data) (F : StandardForm α) (M₀ : Model α ε σ) :
    Ensures (SameContents M₀) (startSession E F) (fun _ => Current E data F M₀)
      (CopiesAgree data) := by
  refine Ensures.bind (R := fun _ M => SameContents M₀ M ∧ M.workspace = none)
    (Ensures.modify fun M hM => ⟨?_, workspace_discardSession E M⟩) fun _ => ?_
  · obtain ⟨h1, h2, h3, h4⟩ := discardSession_contents E M
    exact ⟨h1.trans hM.1, h2.trans hM.2, h3.trans hM.3, h4.trans hM.4⟩
  · refine Ensures.get_bind fun M ⟨hM, hnone⟩ => ?_
    rcases hs : E.setup F.toQpData M.settings M.shared with ⟨e | S, shared⟩
    · refine Ensures.bind (R := fun _ N => N = _) (Ensures.set rfl) fun _ => ?_
      refine Ensures.throw fun N hN w hw => ?_
      subst hN
      cases hnone.symm.trans hw
    · refine Ensures.set ?_
      obtain ⟨hd, hset⟩ := hE.setup hs
      refine ⟨⟨hM.1, hM.2, hM.3, hM.4⟩, ?_, _, rfl, ?_⟩
      · rintro w ⟨⟩
        rw [hd]
        exact ⟨.refl _, .refl _⟩
      · rw [← hM.4, ← hset]
        exact ⟨hd ▸ .refl _, by rw [hd], hd ▸ .refl _, by rw [hd], by rw [hd], .refl _⟩

/-- A path by update is chosen only for matrices that store the same positions. -/
theorem samePattern_of_select {F : StandardForm α} {P A : Csc α} {live requested : Settings α}
    (h : SolvePath.select P A F live requested = .update) :
    P.requireSamePattern F.P = .ok () ∧ A.requireSamePattern F.A = .ok () := by
  unfold SolvePath.select requireSameShape at h
  rcases hP : P.requireSamePattern F.P with e | _
  · simp [hP, bind, Except.bind] at h
  · rcases hA : A.requireSamePattern F.A with e | _
    · simp [hP, hA, bind, Except.bind] at h
    · exact ⟨rfl, rfl⟩

section Update

variable {F : StandardForm α} {M₀ : Model α ε σ} {P A : Csc α}

/-- On the way of new values into the session: the settings are brought in, the
matrices `P` and `A` are the copies of what the session holds. -/
structure Pushing (E : Engine α ε σ) (data : σ → QpData α) (M₀ : Model α ε σ) (P A : Csc α)
    (M : Model α ε σ) : Prop where
  contents : SameContents M₀ M
  workspace : ∃ w, M.workspace = some w ∧ w.P = P ∧ w.A = A ∧ P.Agree (data w.session).P ∧
    A.Agree (data w.session).A ∧ Agree (E.settings w.session) M₀.settings

theorem pushSettings_ensures (hE : E.Stores data) :
    Ensures (fun M => SameContents M₀ M ∧ ∃ w, M.workspace = some w ∧ w.P = P ∧ w.A = A ∧
        P.Agree (data w.session).P ∧ A.Agree (data w.session).A)
      (pushSettings E) (fun _ => Pushing E data M₀ P A) (fun _ => True) := by
  refine Ensures.get_bind fun M ⟨hM, w, hw, hwP, hwA, hP, hA⟩ => ?_
  simp only [hw]
  split
  · refine (callSession_ensures E _ _ (Q := Pushing E data M₀ P A) ?_ (fun _ _ _ => trivial))
    rintro _ w' r S e rfl hw' hc
    refine ⟨fun hr => ?_, fun _ => trivial⟩
    subst hr
    obtain rfl : w = w' := by simpa [hw] using hw'
    obtain ⟨hd, hs⟩ := hE.updateSettings hc
    exact ⟨⟨hM.1, hM.2, hM.3, hM.4⟩, _, rfl, hwP, hwA, by rwa [hd], by rwa [hd],
      .inl (hs.trans hM.settings)⟩
  · rename_i hs
    refine Ensures.pure fun N hN => ?_
    subst hN
    refine ⟨hM, w, hw, hwP, hwA, hP, hA, .inr ?_⟩
    rw [← hM.settings]
    simpa [bne] using hs

/-- Pushed values, or those that were not pushed because they did not differ. -/
theorem agree_pushed [PartialEquivBEq α] {B C D : Csc α} (hBD : B.requireSamePattern D = .ok ())
    (hBC : B.Agree C) : Csc.Agree { C with nzval := (newValues B D).getD C.nzval } D := by
  unfold newValues
  split
  · have := Csc.with_nzval_eq hBD
    rw [← this]
    exact ⟨hBC.m.symm, hBC.n.symm, hBC.colptr.symm, hBC.rowval.symm, .refl _⟩
  · rename_i h
    exact hBC.symm.trans (.of_bne_eq_false hBD (by simpa using h))

theorem pushMatrices_ensures [PartialEquivBEq α] (hE : E.Stores data)
    (hP : P.requireSamePattern F.P = .ok ()) (hA : A.requireSamePattern F.A = .ok ()) :
    Ensures (Pushing E data M₀ P A) (pushMatrices E F)
      (fun _ M => SameContents M₀ M ∧ CopiesAgree data M ∧ ∃ w, M.workspace = some w ∧
        (data w.session).P.Agree F.P ∧ (data w.session).A.Agree F.A ∧
        Agree (E.settings w.session) M₀.settings) (fun _ => True) := by
  refine Ensures.get_bind fun M ⟨hM, w, hw, hwP, hwA, hPd, hAd, hs⟩ => ?_
  simp only [hw, hwP, hwA]
  split
  · refine Ensures.bind (R := fun _ N => SameContents M₀ N ∧ ∃ w, N.workspace = some w ∧ w.P = P ∧
      w.A = A ∧ (data w.session).P.Agree F.P ∧ (data w.session).A.Agree F.A ∧
        Agree (E.settings w.session) M₀.settings)
      (callSession_ensures E _ _ ?_ fun _ _ _ => trivial) fun _ => Ensures.modify ?_
    · rintro _ w' r S e rfl hw' hc
      refine ⟨fun hr => ?_, fun _ => trivial⟩
      subst hr
      obtain rfl : w = w' := by simpa [hw] using hw'
      obtain ⟨hd, hset⟩ := hE.updateMatrices hc
      refine ⟨⟨hM.1, hM.2, hM.3, hM.4⟩, _, rfl, hwP, hwA, ?_, ?_, by rwa [hset]⟩
      · rw [hd]
        exact agree_pushed hP hPd
      · rw [hd]
        exact agree_pushed hA hAd
    · rintro N ⟨hN, v, hv, hvP, hvA, hvPd, hvAd, hvs⟩
      have hcopy : copyMatrices F N =
          { N with workspace := some { v with P := F.P, A := F.A } } := by
        simp only [copyMatrices, hv, hvP, hvA, Csc.with_nzval_eq hP, Csc.with_nzval_eq hA]
      rw [hcopy]
      refine ⟨⟨hN.1, hN.2, hN.3, hN.4⟩, ?_, _, rfl, hvPd, hvAd, hvs⟩
      rintro _ ⟨⟩
      exact ⟨hvPd.symm, hvAd.symm⟩
  · rename_i hnone
    refine Ensures.pure fun N hN => ?_
    subst hN
    simp only [Bool.not_eq_true, Bool.or_eq_false_iff, Option.isSome_eq_false_iff,
      Option.isNone_iff_eq_none] at hnone
    have hP' := agree_pushed hP hPd
    have hA' := agree_pushed hA hAd
    rw [hnone.1] at hP'
    rw [hnone.2] at hA'
    refine ⟨hM, fun v hv => ?_, w, hw, hP', hA', hs⟩
    obtain rfl : w = v := by simpa [hw] using hv
    exact ⟨hwP ▸ hPd, hwA ▸ hAd⟩

theorem pushChanges_ensures [PartialEquivBEq α] (hE : E.Stores data)
    (hP : P.requireSamePattern F.P = .ok ()) (hA : A.requireSamePattern F.A = .ok ()) :
    Ensures (fun M => SameContents M₀ M ∧ ∃ w, M.workspace = some w ∧ w.P = P ∧ w.A = A ∧
        P.Agree (data w.session).P ∧ A.Agree (data w.session).A)
      (pushChanges E F) (fun _ => Current E data F M₀) (fun _ => True) := by
  refine (pushSettings_ensures hE).bind fun _ => (pushMatrices_ensures hE hP hA).bind fun _ =>
    callSession_ensures E _ _ ?_ fun _ _ _ => trivial
  rintro M w r S e ⟨hM, hcopies, v, hv, hvP, hvA, hs⟩ hw hc
  refine ⟨fun hr => ?_, fun _ => trivial⟩
  subst hr
  obtain rfl : v = w := by simpa [hv] using hw
  obtain ⟨hd, hset⟩ := hE.updateVectors hc
  refine ⟨⟨hM.1, hM.2, hM.3, hM.4⟩, ?_, _, rfl, ?_⟩
  · rintro _ ⟨⟩
    rw [hd]
    exact hcopies v hv
  · exact ⟨by rwa [hd], by rw [hd], by rwa [hd], by rw [hd], by rw [hd], by rwa [hset]⟩

/-- A session that fails to take over the new problem is dropped, whatever it holds then. -/
theorem updateSession_ensures [PartialEquivBEq α] (hE : E.Stores data)
    (hP : P.requireSamePattern F.P = .ok ()) (hA : A.requireSamePattern F.A = .ok ()) :
    Ensures (fun M => SameContents M₀ M ∧ ∃ w, M.workspace = some w ∧ w.P = P ∧ w.A = A ∧
        P.Agree (data w.session).P ∧ A.Agree (data w.session).A)
      (updateSession E F) (fun _ => Current E data F M₀) (CopiesAgree data) := by
  refine (pushChanges_ensures hE hP hA).tryCatch fun e => ?_
  refine Ensures.bind (R := fun _ => CopiesAgree data) (Ensures.modify fun M _ w hw => ?_)
    fun _ => Ensures.throw fun M hM => hM
  cases (workspace_discardSession E M).symm.trans hw

/-- By whichever path the problem comes into the session, the session holds it then. -/
theorem bring_ensures [PartialEquivBEq α] (hE : E.Stores data) (M₁ : Model α ε σ)
    (hcopies : CopiesAgree data M₁) (hM : SameContents M₀ M₁) :
    Ensures (· = M₁) (bring E F (M₁.choosePath E F)) (fun _ => Current E data F M₀)
      (CopiesAgree data) := by
  rcases hpath : M₁.choosePath E F with _ | _ | _
  · exact (startSession_ensures hE F M₀).weaken (fun _ h => h ▸ hM) (fun _ _ => id) fun _ => id
  · unfold choosePath at hpath
    split at hpath
    · rename_i w hw
      obtain ⟨hP, hA⟩ := samePattern_of_select hpath
      refine (updateSession_ensures hE hP hA).weaken ?_ (fun _ _ => id) fun _ => id
      rintro _ rfl
      exact ⟨hM, w, hw, rfl, rfl, (hcopies w hw).1, (hcopies w hw).2⟩
    · cases hpath
  · exact (startSession_ensures hE F M₀).weaken (fun _ h => h ▸ hM) (fun _ _ => id) fun _ => id

theorem passStartPoint_ensures (hE : E.Stores data) :
    Ensures (Current E data F M₀) (passStartPoint E F) (fun _ => Current E data F M₀)
      (CopiesAgree data) := by
  refine Ensures.get_bind fun M hM => ?_
  cases hp : M.startPoint with
  | none => exact Ensures.pure fun N hN => hN ▸ hM
  | some p =>
    refine Ensures.bind (R := fun _ => Current E data F M₀) (Ensures.modify ?_) fun _ =>
      Ensures.bind (R := fun _ => Current E data F M₀) (Ensures.lift ?_ ?_) fun _ =>
        callSession_ensures E _ _ ?_ fun N hN _ => hN.2.1
    · rintro _ rfl
      obtain ⟨hc, hcopies, w, hw, hh⟩ := hM
      exact ⟨⟨hc.1, hc.2, hc.3, hc.4⟩, hcopies, w, hw, hh⟩
    · exact fun _ _ hN _ => hN
    · exact fun _ hN => hN.2.1
    · rintro N w r S e ⟨hc, hcopies, v, hv, hh⟩ hw hcall
      obtain rfl : v = w := by simpa [hv] using hw
      obtain ⟨hd, hs⟩ := hE.warmStart hcall
      have hcopies' : CopiesAgree data
          { N with workspace := some { v with session := S }, shared := e } := by
        rintro _ ⟨⟩
        rw [hd]
        exact hcopies v hv
      refine ⟨fun _ => ⟨⟨hc.1, hc.2, hc.3, hc.4⟩, hcopies', _, rfl, ?_⟩, fun _ => hcopies'⟩
      exact ⟨hd ▸ hh.P, hd ▸ hh.q, hd ▸ hh.A, hd ▸ hh.l, hd ▸ hh.u, hs ▸ hh.settings⟩

end Update

variable [ScalarText α]

/-- What a solve has brought into its session before it passes on the start point. -/
theorem approach_ensures [PartialEquivBEq α] (hE : E.Stores data) (M₀ : Model α ε σ)
    (hcopies : CopiesAgree data M₀) :
    Ensures (· = M₀) (approach E)
      (fun b M => M₀.standardForm = .ok b.1 ∧ Current E data b.1 M₀ M) (CopiesAgree data) := by
  refine Ensures.get_bind fun M hM => ?_
  subst hM
  obtain ⟨M₁, hM₁⟩ : ∃ M₁ : Model α ε σ, M₁ = { M with solution := none } := ⟨_, rfl⟩
  have hc₁ : CopiesAgree data M₁ := by
    rw [hM₁]
    exact hcopies
  refine Ensures.bind (R := fun _ N => N = M)
    (Ensures.lift (fun _ _ hN _ => hN) fun _ hN => hN ▸ hcopies) fun _ => ?_
  refine Ensures.bind (R := fun _ N => N = M₁)
    (Ensures.modify fun _ hN => by rw [hN, hM₁]) fun _ => Ensures.get_bind fun N hN => ?_
  subst hN
  refine Ensures.bind (R := fun F N' => M.standardForm = .ok F ∧ N' = N)
    (Ensures.lift (fun N' F hN' hF => ⟨by rw [← hF, hM₁]; rfl, hN'⟩) fun _ hN' => hN' ▸ hc₁)
    fun F => ?_
  -- the path was chosen before the report, which writes to the output only
  refine Ensures.bind (R := fun _ N' => M.standardForm = .ok F ∧ ∃ o, N' = { N with output := o })
    ((report_ensures _ fun N' o ⟨hF, o', hN'⟩ => ⟨hF, o, by rw [hN']⟩).weaken
      (fun N' ⟨hF, hN'⟩ => ⟨hF, N.output, hN'⟩) (fun _ _ => id)
      fun N' ⟨_, o, hN'⟩ => by rw [hN']; exact hc₁) fun _ => ?_
  refine Ensures.bind (R := fun _ N' => M.standardForm = .ok F ∧ Current E data F M N')
    ?_ fun _ => Ensures.pure fun _ => id
  rintro _ ⟨hF, o, rfl⟩
  have hsame : SameContents M { N with output := o } := by
    rw [hM₁]
    exact ⟨rfl, rfl, rfl, rfl⟩
  have hbring := bring_ensures (F := F) hE { N with output := o } hc₁ hsame
  exact (hbring.weaken (fun _ => id) (fun _ _ h => ⟨hF, h⟩) fun _ => id) _ rfl

/-- What a solve that reaches its session has brought into it. -/
theorem prepare_ensures [PartialEquivBEq α] (hE : E.Stores data) (M₀ : Model α ε σ)
    (hcopies : CopiesAgree data M₀) :
    Ensures (· = M₀) (prepare E)
      (fun b M => M₀.standardForm = .ok b.1 ∧ Current E data b.1 M₀ M) (CopiesAgree data) := by
  rw [prepare_eq]
  refine (approach_ensures hE M₀ hcopies).bind fun b => Ensures.bind
    (R := fun _ N => M₀.standardForm = .ok b.1 ∧ Current E data b.1 M₀ N) ?_ fun _ =>
      Ensures.pure fun _ => id
  rintro N ⟨hF, hN⟩
  exact ((passStartPoint_ensures hE).weaken (fun _ => id) (fun _ _ h => ⟨hF, h⟩)
    fun _ => id) N hN

/-- A session that is run is left with what it held. -/
theorem runSession_ensures (hE : E.Stores data) (F : StandardForm α) (path : SolvePath) :
    Ensures (CopiesAgree data) (runSession E F path) (fun _ => CopiesAgree data)
      (CopiesAgree data) := by
  have hreport : ∀ (M : Model α ε σ) (o : Output), CopiesAgree data M →
      CopiesAgree data { M with output := o } := fun _ _ h => h
  refine Ensures.bind (R := fun _ => CopiesAgree data)
    (callSession_ensures E _ _ ?_ fun _ hM _ => hM) fun _ => Ensures.bind ?_ fun r =>
    Ensures.bind (report_ensures _ hreport) fun _ => Ensures.pure fun _ => id
  · intro M w r S e hM hw hc
    have hcopies : CopiesAgree data
        { M with workspace := some { w with session := S }, shared := e } := by
      rintro _ ⟨⟩
      rw [(hE.solve hc).1]
      exact hM w hw
    exact ⟨fun _ => hcopies, fun _ => hcopies⟩
  · refine Ensures.get_bind fun M hM => ?_
    cases hs : M.session? with
    | none => exact Ensures.throw fun N hN => hN ▸ hM
    | some S =>
      refine Ensures.bind (R := fun _ => CopiesAgree data) (Ensures.modify ?_) fun _ =>
        Ensures.pure fun _ => id
      rintro _ rfl
      exact hM

theorem solve_ensures [PartialEquivBEq α] (hE : E.Stores data) :
    Ensures (CopiesAgree data) (solve E) (fun _ => CopiesAgree data) (CopiesAgree data) :=
  Ensures.bind (R := fun _ => CopiesAgree data)
    (fun M hM => ((prepare_ensures hE M hM).weaken (fun _ => id) (fun _ _ h => h.2.2.1)
      fun _ => id) M rfl)
    fun b => runSession_ensures hE b.1 b.2

/-- Whatever is done with a model, the copies of the matrices are those of its session. -/
theorem copiesAgree_of_reachable [PartialEquivBEq α] (hE : E.Stores data) {M : Model α ε σ}
    (hM : Reachable E M) : CopiesAgree data M := by
  induction hM with
  | new shared => intro w hw; cases hw
  | @perform M op _ ih =>
    cases op with
    | addVariable | addVariables | addConstraint | setConstraint | setObjective | setSettings
    | printTo => exact ih
    | setBounds i lower upper =>
      simp only [perform, setBounds]
      cases M.constraint i <;> exact ih
    | setStartPoint p =>
      simp only [perform, setStartPoint]
      cases M.requireLive with
      | error e => exact ih
      | ok _ => cases checkStartPoint M.varCount M.constraints.size p <;> exact ih
    | solve => exact (solve_ensures hE).after ih
    | release =>
      intro w hw
      cases (workspace_release E M).symm.trans hw

/-- The session on which a solve runs holds the problem that the model describes and the
settings of the model, and the copies are those of the session, by whichever path the
problem came there. -/
theorem session_holds_problem [PartialEquivBEq α] (hE : E.Stores data) {M N : Model α ε σ}
    (hM : Reachable E M) {F : StandardForm α} {path : SolvePath}
    (h : (prepare E).on M = (.ok (F, path), N)) :
    (solve E).on M = (runSession E F path).on N ∧ M.standardForm = .ok F ∧ SameContents M N ∧
      ∃ w, N.workspace = some w ∧ E.Holds data w.session F.toQpData M.settings ∧
        w.P.Agree (data w.session).P ∧ w.A.Agree (data w.session).A := by
  have hsolve : (solve E).on M = (runSession E F path).on N := by
    unfold solve
    rw [on_bind, h]
  obtain ⟨hF, hcontents, hcopies, w, hw, hholds⟩ :=
    (prepare_ensures hE M (copiesAgree_of_reachable hE hM)).of_ok rfl h
  exact ⟨hsolve, hF, hcontents, w, hw, hholds, hcopies w hw⟩

end Model

/-! ### An engine that only stores -/

/-- The engine whose sessions are the problem and the settings that they hold. -/
def storingEngine : Engine ℚ Unit (QpData ℚ × Settings ℚ) where
  defaultSettings := .default
  setup D s _ := (.ok (D, s), ())
  call c S _ :=
    let T := match c with
      | .updateVectors q l u =>
        ({ S.1 with q := q.getD S.1.q, l := l.getD S.1.l, u := u.getD S.1.u }, S.2)
      | .updateMatrices Px _ Ax _ =>
        ({ S.1 with
          P := { S.1.P with nzval := Px.getD S.1.P.nzval }
          A := { S.1.A with nzval := Ax.getD S.1.A.nzval } }, S.2)
      | .updateSettings s => (S.1, s)
      | _ => S
    (.ok (), T, ())
  drop _ _ := ()
  solution S := ⟨S.1.q, S.1.l, S.1.u, #[]⟩
  info _ := ⟨0, .solved, 0, 0, 0, 0, 0, .notPerformed, 0⟩
  settings S := S.2

theorem storingEngine_stores : storingEngine.Stores Prod.fst where
  setup := by rintro _ _ _ _ _ ⟨⟩; exact ⟨rfl, rfl⟩
  updateVectors := by rintro _ _ _ _ _ _ _ ⟨⟩; exact ⟨rfl, rfl⟩
  updateMatrices := by rintro _ _ _ _ _ _ ⟨⟩; exact ⟨rfl, rfl⟩
  updateSettings := by rintro _ _ _ _ _ ⟨⟩; exact ⟨rfl, rfl⟩
  warmStart := by rintro _ _ _ _ _ _ _ ⟨⟩; exact ⟨rfl, rfl⟩
  solve := by rintro _ _ _ _ _ ⟨⟩; exact ⟨rfl, rfl⟩

namespace Model

open ModelM

/-- A model that was solved with the objective `x²`, and now has `2 x²` and another step size. -/
def reviewed : Model ℚ Unit (QpData ℚ × Settings ℚ) :=
  let square (c : ℚ) : QuadExpr ℚ := QuadExpr.empty.addProduct ⟨0⟩ ⟨0⟩ c
  let solved := ((Model.new storingEngine ()).perform storingEngine .addVariable
    |>.perform storingEngine (.setObjective (square 1))).perform storingEngine .solve
  (solved.perform storingEngine (.setObjective (square 2))).perform storingEngine
    (.setSettings { solved.settings with rho := 1 })

/-- The new values of a solved model reach its session by an update. -/
theorem session_holds_reviewed : ∃ F N, (prepare storingEngine).on reviewed = (.ok (F, .update), N) ∧
    ∃ w, N.workspace = some w ∧ storingEngine.Holds Prod.fst w.session F.toQpData reviewed.settings := by
  have hpath : ((prepare storingEngine).on reviewed).1.toOption.map Prod.snd = some .update := by
    decide +kernel
  have hreach : Reachable storingEngine reviewed := by
    unfold reviewed
    exact .perform _ (.perform _ (.perform _ (.perform _ (.perform _ (.new ())))))
  rcases h : (prepare storingEngine).on reviewed with ⟨_ | ⟨F, path⟩, N⟩
  · rw [h] at hpath
    cases hpath
  · rw [h] at hpath
    obtain rfl : path = .update := Option.some.inj hpath
    obtain ⟨-, -, -, w, hw, hholds, -⟩ := session_holds_problem storingEngine_stores hreach h
    exact ⟨F, N, rfl, w, hw, hholds⟩

end Model
end QuadOpt
