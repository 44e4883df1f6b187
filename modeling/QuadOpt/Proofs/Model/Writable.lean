/-
# Writable documents

A document is writable if its indices are machine words, its numbers are finite, and its infinite
bounds and time limit can be told from the largest numbers that stand for them. Each part of a
document is read as it was written if it is writable, and only writable parts are read. An infinite
setting other than the time limit is written as a word that is no number, so that the text is
refused.

Key definitions: `IsBound`, `IsTimeLimit`, `Csc.Writable`, `StandardForm.Writable`,
`Settings.numbers`, `Settings.Writable`, `Document.Writable`.
Key theorems: `unsealBound_sealBound`, `Document.matrixRecord_exact`,
`Document.problemRecord_exact`, `Document.settingsRecord_exact`,
`Document.settingsRecord_refuses`, `Document.record_exact`, `Document.record_refuses`.
-/
import QuadOpt.Model.Document
import QuadOpt.Proofs.Json.Record

namespace QuadOpt

open Json

/-! ### Infinities -/

namespace Binary64

/-- A number that is no zero equals itself only. -/
theorem beq_iff_eq {x c : Float} (hself : (c == c) = true) (hzero : (c == 0) = false) :
    (x == c) = true ↔ x = c := by
  constructor
  · intro h
    rw [beq_iff] at h
    refine (eq_or_zeros h.1 h.2).resolve_right fun hzeros => ?_
    rw [← Bool.not_eq_true, beq_zero_iff] at hzero
    exact hzero hzeros.2
  · rintro rfl
    exact hself

/-- What is a number and not infinite is finite. -/
theorem isFinite_of_ne {x : Float} (hnan : x.isNaN = false) (hpos : x ≠ Scalar.infinity)
    (hneg : x ≠ -Scalar.infinity) : x.isFinite = true := by
  have hpack : Float.ofModel (Float.Model.pack (parts x)) = x := ofModel_pack_parts x
  have hisNaN : x.isNaN = (parts x).isNaN := rfl
  have hisFinite : x.isFinite = (parts x).isFinite := rfl
  rw [hisFinite]
  rw [hisNaN] at hnan
  cases hparts : parts x with
  | notANumber =>
    rw [hparts] at hnan
    cases hnan
  | infinity s =>
    rw [hparts] at hpack
    cases s with
    | positive => exact absurd hpack.symm hpos
    | negative => exact absurd hpack.symm hneg
  | zero | finite => rfl

theorem isNaN_of_isFinite {x : Float} (h : x.isFinite = true) : x.isNaN = false := by
  have hisNaN : x.isNaN = (parts x).isNaN := rfl
  have hisFinite : x.isFinite = (parts x).isFinite := rfl
  rw [hisFinite] at h
  rw [hisNaN]
  cases hparts : parts x with
  | notANumber =>
    rw [hparts] at h
    cases h
  | infinity | zero | finite => rfl

end Binary64

open Binary64

/-- The largest number is the one below infinity. -/
theorem largestFloat_eq_ofBits : largestFloat = .ofBits 0x7fefffffffffffff := by
  -- The power of ten in the literal is too large to be unfolded in every comparison, so that it is
  -- evaluated once and the comparisons are decided on the bits.
  decide +kernel

theorem beq_largest {x : Float} : (x == largestFloat) = true ↔ x = largestFloat := by
  rw [largestFloat_eq_ofBits]
  exact beq_iff_eq (by decide) (by decide)

theorem beq_neg_largest {x : Float} : (x == -largestFloat) = true ↔ x = -largestFloat := by
  rw [largestFloat_eq_ofBits]
  exact beq_iff_eq (by decide) (by decide)

theorem beq_infinity {x : Float} : (x == Scalar.infinity) = true ↔ x = Scalar.infinity :=
  beq_iff_eq (by decide) (by decide)

theorem beq_neg_infinity {x : Float} : (x == -Scalar.infinity) = true ↔ x = -Scalar.infinity :=
  beq_iff_eq (by decide) (by decide)

theorem isFinite_largest : largestFloat.isFinite = true := by
  rw [largestFloat_eq_ofBits]
  decide

theorem isFinite_neg_largest : (-largestFloat).isFinite = true := by
  rw [largestFloat_eq_ofBits]
  decide

theorem neg_largest_ne : -largestFloat ≠ largestFloat := by
  refine fun h => absurd (beq_largest.mpr h) ?_
  rw [largestFloat_eq_ofBits]
  decide

theorem infinity_ne_neg_infinity : (Scalar.infinity : Float) ≠ -Scalar.infinity :=
  fun h => absurd (beq_neg_infinity.mpr h) (by decide)

/-- A bound that can be written: it is none of the numbers that stand for infinities. -/
structure IsBound (x : Float) : Prop where
  isNumber : x.isNaN = false
  ne_largest : x ≠ largestFloat
  ne_neg_largest : x ≠ -largestFloat

/-- A time limit that can be written: no number stands for minus infinity. -/
structure IsTimeLimit (x : Float) : Prop where
  isNumber : x.isNaN = false
  ne_largest : x ≠ largestFloat
  ne_neg_infinity : x ≠ -Scalar.infinity

/-- What is infinite is no number that stands for an infinity. -/
theorem isBound_of_infinite {x : Float} (hnan : x.isNaN = false) (hx : x.isFinite = false) :
    IsBound x := by
  refine ⟨hnan, ?_, ?_⟩
  · rintro rfl
    exact absurd isFinite_largest (Bool.eq_false_iff.mp hx)
  · rintro rfl
    exact absurd isFinite_neg_largest (Bool.eq_false_iff.mp hx)

theorem isBound_infinity : IsBound Scalar.infinity :=
  isBound_of_infinite (by decide) (by decide)

theorem isTimeLimit_infinity : IsTimeLimit Scalar.infinity :=
  ⟨isBound_infinity.isNumber, isBound_infinity.ne_largest, infinity_ne_neg_infinity⟩

/-- Bounds that are read can be written. -/
theorem isBound_unsealBound {x : Float} (hx : x.isFinite = true) : IsBound (unsealBound x) := by
  simp only [unsealBound, beq_largest, beq_neg_largest]
  split_ifs with hlargest hneg
  · exact isBound_infinity
  · exact isBound_of_infinite (by decide) (by decide)
  · exact ⟨isNaN_of_isFinite hx, hlargest, hneg⟩

/-- A bound is written as a number that is read as the bound. -/
theorem unsealBound_sealBound {x : Float} (hx : IsBound x) :
    (sealBound x).isFinite = true ∧ unsealBound (sealBound x) = x := by
  simp only [sealBound, unsealBound, beq_infinity, beq_neg_infinity, beq_largest, beq_neg_largest]
  by_cases hpos : x = Scalar.infinity
  · rw [if_pos hpos, if_pos rfl]
    exact ⟨isFinite_largest, hpos.symm⟩
  rw [if_neg hpos]
  by_cases hneg : x = -Scalar.infinity
  · rw [if_pos hneg, if_neg neg_largest_ne, if_pos rfl]
    exact ⟨isFinite_neg_largest, hneg.symm⟩
  · rw [if_neg hneg, if_neg hx.ne_largest, if_neg hx.ne_neg_largest]
    exact ⟨isFinite_of_ne hx.isNumber hpos hneg, rfl⟩

/-- A time limit that is read can be written. -/
theorem isTimeLimit_unsealInfinity {x : Float} (hx : x.isFinite = true) :
    IsTimeLimit (unsealInfinity x) := by
  simp only [unsealInfinity, beq_largest]
  split_ifs with hlargest
  · exact isTimeLimit_infinity
  · refine ⟨isNaN_of_isFinite hx, hlargest, ?_⟩
    rintro rfl
    revert hx
    decide

/-- A time limit is written as a number that is read as the time limit. -/
theorem unsealInfinity_sealInfinity {x : Float} (hx : IsTimeLimit x) :
    (sealInfinity x).isFinite = true ∧ unsealInfinity (sealInfinity x) = x := by
  simp only [sealInfinity, unsealInfinity, beq_infinity, beq_largest]
  by_cases hpos : x = Scalar.infinity
  · rw [if_pos hpos, if_pos rfl]
    exact ⟨isFinite_largest, hpos.symm⟩
  · rw [if_neg hpos, if_neg hx.ne_largest]
    exact ⟨isFinite_of_ne hx.isNumber hpos hx.ne_neg_infinity, rfl⟩

/-! ### Parts of a document -/

/-- A matrix that can be written: indices are machine words and values are finite. -/
structure Csc.Writable (A : Csc Float) : Prop where
  m : A.m < wordSize
  n : A.n < wordSize
  colptr : ∀ k ∈ A.colptr, k < wordSize
  rowval : ∀ k ∈ A.rowval, k < wordSize
  nzval : ∀ v ∈ A.nzval, v.isFinite = true

/-- A problem that can be written. -/
structure StandardForm.Writable (F : StandardForm Float) : Prop where
  P : F.P.Writable
  q : ∀ v ∈ F.q, v.isFinite = true
  A : F.A.Writable
  l : ∀ v ∈ F.l, IsBound v
  u : ∀ v ∈ F.u, IsBound v
  constant : F.constant.isFinite = true

/-- The numbers among the settings, apart from the time limit. -/
def Settings.numbers (s : Settings Float) : List Float :=
  [s.rho, s.sigma, s.alpha, s.epsAbs, s.epsRel, s.epsPrimInf, s.epsDualInf, s.adaptiveRhoTolerance,
    s.delta]

/-- Settings that can be written. -/
structure Settings.Writable (s : Settings Float) : Prop where
  numbers : ∀ v ∈ s.numbers, v.isFinite = true
  timeLimit : IsTimeLimit s.timeLimit

namespace Document

/-- A document that can be written. -/
structure Writable (D : Document) : Prop where
  problem : D.problem.Writable
  settings : D.settings.Writable

open Codec Field

theorem unknown {β : Type} {P : β → Prop} : ∀ y ∈ (none : Option β), P y := by
  rintro _ ⟨⟩

theorem known {β : Type} {P : β → Prop} {x : β} (hx : P x) : ∀ y ∈ some x, P y := by
  rintro _ ⟨⟩
  exact hx

theorem getD_holds {β : Type} {P : β → Prop} {x : Option β} {y : β} (hx : ∀ z ∈ x, P z)
    (hy : P y) : P (x.getD y) := by
  cases x with
  | none => exact hy
  | some x => exact hx x rfl

theorem indexCodec_exact : indexCodec.Exact (· < wordSize) := natBelow_exact wordSize

theorem boundsCodec_exact : boundsCodec.Exact fun xs => ∀ x ∈ xs, IsBound x := by
  refine (array_exact float_exact).through (fun _ => rfl) (fun _ _ => rfl) ?_ ?_
  · intro ys hys x hx
    obtain ⟨y, hy, rfl⟩ := Array.mem_map.mp hx
    exact isBound_unsealBound (hys y hy)
  · intro xs hxs
    refine ⟨?_, ?_⟩
    · intro y hy
      obtain ⟨x, hx, rfl⟩ := Array.mem_map.mp hy
      exact (unsealBound_sealBound (hxs x hx)).1
    · calc (xs.map sealBound).map unsealBound = xs.map (unsealBound ∘ sealBound) := Array.map_map
        _ = xs.map id := Array.map_congr_left fun x hx => (unsealBound_sealBound (hxs x hx)).2
        _ = xs := Array.map_id xs

theorem timeLimitCodec_exact : timeLimitCodec.Exact IsTimeLimit :=
  float_exact.through (fun _ => rfl) (fun _ _ => rfl) (fun _ => isTimeLimit_unsealInfinity)
    fun _ => unsealInfinity_sealInfinity

/-- The parts of a matrix that are known can be written. -/
structure MatrixDraft.Writable (d : MatrixDraft) : Prop where
  m : ∀ k ∈ d.m, k < wordSize
  n : ∀ k ∈ d.n, k < wordSize
  colptr : ∀ ks ∈ d.colptr, ∀ k ∈ ks, k < wordSize
  rowval : ∀ ks ∈ d.rowval, ∀ k ∈ ks, k < wordSize
  nzval : ∀ vs ∈ d.nzval, ∀ v ∈ vs, v.isFinite = true

theorem matrixRecord_exact : matrixRecord.codec.Exact Csc.Writable := by
  have hindex := indexCodec_exact
  have hindices := array_exact indexCodec_exact
  have hvalues := array_exact float_exact
  refine Record.codec_exact (I := MatrixDraft.Writable) ?_ (List.cons_ne_nil _ _)
    ⟨unknown, unknown, unknown, unknown, unknown⟩ ?_ ?_ ?_
  · exact ⟨by decide, by simp [matrixRecord, Field.of]⟩
  · simp only [matrixRecord, List.forall_mem_cons]
    exact ⟨of_keeps hindex fun _ _ hd hx => { hd with m := known hx },
      of_keeps hindex fun _ _ hd hx => { hd with n := known hx },
      of_keeps hindices fun _ _ hd hx => { hd with colptr := known hx },
      of_keeps hindices fun _ _ hd hx => { hd with rowval := known hx },
      of_keeps hvalues fun _ _ hd hx => { hd with nzval := known hx }, List.forall_mem_nil _⟩
  · rintro ⟨m, n, colptr, rowval, nzval⟩ A ⟨hm, hn, hcolptr, hrowval, hnzval⟩ hA
    cases m <;> cases n <;> cases colptr <;> cases rowval <;> cases nzval <;> cases hA
    exact ⟨hm _ rfl, hn _ rfl, hcolptr _ rfl, hrowval _ rfl, hnzval _ rfl⟩
  · intro A hA
    exact ⟨_, .cons (of_fills (hindex.restores hA.m) rfl)
      (.cons (of_fills (hindex.restores hA.n) rfl)
      (.cons (of_fills (hindices.restores hA.colptr) rfl)
      (.cons (of_fills (hindices.restores hA.rowval) rfl)
      (.cons (of_fills (hvalues.restores hA.nzval) rfl) (.nil _))))), rfl⟩

/-- The parts of a problem that are known can be written. -/
structure ProblemDraft.Writable (d : ProblemDraft) : Prop where
  P : ∀ A ∈ d.P, A.Writable
  q : ∀ vs ∈ d.q, ∀ v ∈ vs, v.isFinite = true
  A : ∀ A ∈ d.A, A.Writable
  l : ∀ vs ∈ d.l, ∀ v ∈ vs, IsBound v
  u : ∀ vs ∈ d.u, ∀ v ∈ vs, IsBound v
  constant : ∀ v ∈ d.constant, v.isFinite = true

theorem problemRecord_exact : problemRecord.codec.Exact StandardForm.Writable := by
  have hmatrix := matrixRecord_exact
  have hvalues := array_exact float_exact
  have hbounds := boundsCodec_exact
  refine Record.codec_exact (I := ProblemDraft.Writable) ?_ (List.cons_ne_nil _ _)
    ⟨unknown, unknown, unknown, unknown, unknown, unknown⟩ ?_ ?_ ?_
  · exact ⟨by decide, by simp [problemRecord, Field.of]⟩
  · simp only [problemRecord, List.forall_mem_cons]
    exact ⟨of_keeps hmatrix fun _ _ hd hx => { hd with P := known hx },
      of_keeps hvalues fun _ _ hd hx => { hd with q := known hx },
      of_keeps hmatrix fun _ _ hd hx => { hd with A := known hx },
      of_keeps hbounds fun _ _ hd hx => { hd with l := known hx },
      of_keeps hbounds fun _ _ hd hx => { hd with u := known hx },
      of_keeps float_exact fun _ _ hd hx => { hd with constant := known hx }, List.forall_mem_nil _⟩
  · rintro ⟨P, q, A, l, u, constant⟩ F ⟨hP, hq, hA, hl, hu, hconstant⟩ hF
    cases P <;> cases q <;> cases A <;> cases l <;> cases u <;> cases constant <;> cases hF
    exact ⟨hP _ rfl, hq _ rfl, hA _ rfl, hl _ rfl, hu _ rfl, hconstant _ rfl⟩
  · intro F hF
    exact ⟨_, .cons (of_fills (hmatrix.restores hF.P) rfl)
      (.cons (of_fills (hvalues.restores hF.q) rfl)
      (.cons (of_fills (hmatrix.restores hF.A) rfl)
      (.cons (of_fills (hbounds.restores hF.l) rfl)
      (.cons (of_fills (hbounds.restores hF.u) rfl)
      (.cons (of_fills (float_exact.restores hF.constant) rfl) (.nil _)))))), rfl⟩

/-- The chosen settings can be written. -/
structure ChoiceWritable (c : Settings.Choice Float) : Prop where
  rho : ∀ v ∈ c.rho, v.isFinite = true
  sigma : ∀ v ∈ c.sigma, v.isFinite = true
  alpha : ∀ v ∈ c.alpha, v.isFinite = true
  epsAbs : ∀ v ∈ c.epsAbs, v.isFinite = true
  epsRel : ∀ v ∈ c.epsRel, v.isFinite = true
  epsPrimInf : ∀ v ∈ c.epsPrimInf, v.isFinite = true
  epsDualInf : ∀ v ∈ c.epsDualInf, v.isFinite = true
  timeLimit : ∀ v ∈ c.timeLimit, IsTimeLimit v
  adaptiveRhoTolerance : ∀ v ∈ c.adaptiveRhoTolerance, v.isFinite = true
  delta : ∀ v ∈ c.delta, v.isFinite = true

theorem writable_default : (Settings.default : Settings Float).Writable :=
  ⟨by decide, isTimeLimit_infinity⟩

/-- Settings for which defaults stand in can be written. -/
theorem ChoiceWritable.complete {c : Settings.Choice Float} (hc : ChoiceWritable c) :
    (c.complete .default).Writable := by
  have hdefault := writable_default.numbers
  refine ⟨?_, getD_holds hc.timeLimit writable_default.timeLimit⟩
  simp only [Settings.numbers, List.forall_mem_cons] at hdefault ⊢
  obtain ⟨hrho, hsigma, halpha, habs, hrel, hprim, hdual, htolerance, hdelta, -⟩ := hdefault
  exact ⟨getD_holds hc.rho hrho, getD_holds hc.sigma hsigma, getD_holds hc.alpha halpha,
    getD_holds hc.epsAbs habs, getD_holds hc.epsRel hrel, getD_holds hc.epsPrimInf hprim,
    getD_holds hc.epsDualInf hdual, getD_holds hc.adaptiveRhoTolerance htolerance,
    getD_holds hc.delta hdelta, List.forall_mem_nil _⟩

theorem settingsRecord_named : Record.Named settingsRecord.fields :=
  ⟨by decide, by simp [settingsRecord, Field.of]⟩

theorem settingsRecord_exact : settingsRecord.codec.Exact Settings.Writable := by
  have hfloat := float_exact
  have hword := uint32_exact
  have hbool := bool_exact
  have hlimit := timeLimitCodec_exact
  refine Record.codec_exact (I := ChoiceWritable) settingsRecord_named (List.cons_ne_nil _ _)
    ⟨unknown, unknown, unknown, unknown, unknown, unknown, unknown, unknown, unknown, unknown⟩
    ?_ ?_ ?_
  · simp only [settingsRecord, List.forall_mem_cons]
    exact ⟨of_keeps hfloat fun _ _ hc hx => { hc with rho := known hx },
      of_keeps hfloat fun _ _ hc hx => { hc with sigma := known hx },
      of_keeps hfloat fun _ _ hc hx => { hc with alpha := known hx },
      of_keeps hfloat fun _ _ hc hx => { hc with epsAbs := known hx },
      of_keeps hfloat fun _ _ hc hx => { hc with epsRel := known hx },
      of_keeps hfloat fun _ _ hc hx => { hc with epsPrimInf := known hx },
      of_keeps hfloat fun _ _ hc hx => { hc with epsDualInf := known hx },
      of_keeps hword fun _ _ hc _ => { hc with },
      of_keeps hlimit fun _ _ hc hx => { hc with timeLimit := known hx },
      of_keeps hword fun _ _ hc _ => { hc with },
      of_keeps hbool fun _ _ hc _ => { hc with },
      of_keeps hword fun _ _ hc _ => { hc with },
      of_keeps hfloat fun _ _ hc hx => { hc with adaptiveRhoTolerance := known hx },
      of_keeps hword fun _ _ hc _ => { hc with },
      of_keeps hbool fun _ _ hc _ => { hc with },
      of_keeps hbool fun _ _ hc _ => { hc with },
      of_keeps hfloat fun _ _ hc hx => { hc with delta := known hx },
      of_keeps hword fun _ _ hc _ => { hc with },
      of_keeps hbool fun _ _ hc _ => { hc with }, List.forall_mem_nil _⟩
  · rintro c s hc ⟨⟩
    exact hc.complete
  · intro s hs
    have hnumbers := hs.numbers
    simp only [Settings.numbers, List.forall_mem_cons] at hnumbers
    obtain ⟨hrho, hsigma, halpha, habs, hrel, hprim, hdual, htolerance, hdelta, -⟩ := hnumbers
    exact ⟨_, .cons (of_fills (hfloat.restores hrho) rfl)
      (.cons (of_fills (hfloat.restores hsigma) rfl)
      (.cons (of_fills (hfloat.restores halpha) rfl)
      (.cons (of_fills (hfloat.restores habs) rfl)
      (.cons (of_fills (hfloat.restores hrel) rfl)
      (.cons (of_fills (hfloat.restores hprim) rfl)
      (.cons (of_fills (hfloat.restores hdual) rfl)
      (.cons (of_fills (hword.restores trivial) rfl)
      (.cons (of_fills (hlimit.restores hs.timeLimit) rfl)
      (.cons (of_fills (hword.restores trivial) rfl)
      (.cons (of_fills (hbool.restores trivial) rfl)
      (.cons (of_fills (hword.restores trivial) rfl)
      (.cons (of_fills (hfloat.restores htolerance) rfl)
      (.cons (of_fills (hword.restores trivial) rfl)
      (.cons (of_fills (hbool.restores trivial) rfl)
      (.cons (of_fills (hbool.restores trivial) rfl)
      (.cons (of_fills (hfloat.restores hdelta) rfl)
      (.cons (of_fills (hword.restores trivial) rfl)
      (.cons (of_fills (hbool.restores trivial) rfl) (.nil _))))))))))))))))))), rfl⟩

/-- Settings with an infinite number are written as text that is not read. -/
theorem settingsRecord_refuses {s : Settings Float} (htime : IsTimeLimit s.timeLimit)
    (h : ¬∀ v ∈ s.numbers, v.isFinite = true) : settingsRecord.codec.Refuses s := by
  have hword := uint32_exact
  have hbool := bool_exact
  have hlimit := timeLimitCodec_exact
  refine Record.codec_refuses settingsRecord_named ?_ ?_
  · simp only [settingsRecord, List.forall_mem_cons]
    exact ⟨float_legible _, float_legible _, float_legible _, float_legible _, float_legible _,
      float_legible _, float_legible _, (hword.restores trivial).legible,
      (hlimit.restores htime).legible, (hword.restores trivial).legible,
      (hbool.restores trivial).legible, (hword.restores trivial).legible, float_legible _,
      (hword.restores trivial).legible, (hbool.restores trivial).legible,
      (hbool.restores trivial).legible, float_legible _, (hword.restores trivial).legible,
      (hbool.restores trivial).legible, List.forall_mem_nil _⟩
  · -- The fields after the last number are not reached.
    refine .cons_float rfl fun hrho => .cons_float rfl fun hsigma => .cons_float rfl fun halpha =>
      .cons_float rfl fun habs => .cons_float rfl fun hrel => .cons_float rfl fun hprim =>
      .cons_float rfl fun hdual => .there (of_fills (hword.restores trivial) rfl)
      (.there (of_fills (hlimit.restores htime) rfl)
      (.there (of_fills (hword.restores trivial) rfl)
      (.there (of_fills (hbool.restores trivial) rfl)
      (.there (of_fills (hword.restores trivial) rfl)
      (.cons_float rfl fun htolerance => .there (of_fills (hword.restores trivial) rfl)
      (.there (of_fills (hbool.restores trivial) rfl)
      (.there (of_fills (hbool.restores trivial) rfl)
      (.cons_float rfl fun hdelta => absurd ?_ h))))))))
    simp only [Settings.numbers, List.forall_mem_cons]
    exact ⟨hrho, hsigma, halpha, habs, hrel, hprim, hdual, htolerance, hdelta,
      List.forall_mem_nil _⟩

/-- The parts of a document that are known can be written. -/
structure Draft.Writable (d : Draft) : Prop where
  problem : ∀ F ∈ d.problem, F.Writable
  settings : ∀ s ∈ d.settings, s.Writable

theorem record_named : Record.Named record.fields := ⟨by decide, by simp [record, Field.of]⟩

/-- The documents that are written and read are the writable ones. -/
theorem record_exact : record.codec.Exact Writable := by
  refine Record.codec_exact (I := Draft.Writable) record_named (List.cons_ne_nil _ _)
    ⟨unknown, unknown⟩ ?_ ?_ ?_
  · simp only [record, List.forall_mem_cons]
    exact ⟨of_keeps problemRecord_exact fun _ _ hd hx => { hd with problem := known hx },
      of_keeps settingsRecord_exact fun _ _ hd hx => { hd with settings := known hx }, List.forall_mem_nil _⟩
  · rintro ⟨problem, settings⟩ D ⟨hproblem, hsettings⟩ hD
    cases problem <;> cases settings <;> cases hD
    exact ⟨hproblem _ rfl, hsettings _ rfl⟩
  · intro D hD
    exact ⟨_, .cons (of_fills (problemRecord_exact.restores hD.problem) rfl)
      (.cons (of_fills (settingsRecord_exact.restores hD.settings) rfl) (.nil _)), rfl⟩

/-- A document with an infinite number among its settings is written as text that is not read. -/
theorem record_refuses {D : Document} (hproblem : D.problem.Writable)
    (htime : IsTimeLimit D.settings.timeLimit)
    (h : ¬∀ v ∈ D.settings.numbers, v.isFinite = true) : record.codec.Refuses D := by
  have hrestores := problemRecord_exact.restores hproblem
  have hrefuses := settingsRecord_refuses htime h
  refine Record.codec_refuses record_named ?_ ?_
  · simp only [record, List.forall_mem_cons]
    exact ⟨hrestores.legible, hrefuses.legible, List.forall_mem_nil _⟩
  · exact .there (of_fills hrestores rfl) (.here (of_refuses hrefuses rfl))

end Document
end QuadOpt
