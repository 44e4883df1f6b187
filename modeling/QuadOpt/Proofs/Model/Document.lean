/-
# Documents read back

What is written for a writable document is read as that document, and whatever text a document was
read from, it is writable. A document that a setup accepts is writable unless one of its settings
is infinite; what is written for it then is no document.

Key definitions: `Document.Accepted`, `Document.HasRoom`.
Key theorems: `Document.parse_write`, `Document.writable_of_parse`, `Document.readBytes_write`,
`Document.Accepted.readBytes_write_eq`.
-/
import QuadOpt.Proofs.Admm.Sound
import QuadOpt.Proofs.Engine.Choice
import QuadOpt.Proofs.Model.Writable
import QuadOpt.Proofs.Sparse.Shape

namespace QuadOpt

open Json Binary64

namespace Document

/-! ### Texts -/

/-- **Writable documents read back.** What is written for a writable document is read as that
document. -/
theorem parse_write {D : Document} (hD : D.Writable) : parse D.write = .ok D := by
  obtain ⟨hlegible, -, hread⟩ := record_exact.restores hD
  have hread := hread .done []
  rw [List.append_nil] at hread
  rw [parse, write, scan_writeAll hlegible]
  simp only [hread, bind, Except.bind]
  rfl

/-- What is written for a document that is refused is malformed. -/
theorem parse_write_of_refuses {D : Document} (hD : record.codec.Refuses D) :
    parse D.write = .error .malformed := by
  obtain ⟨hlegible, hread⟩ := hD
  have hread := hread .done []
  rw [List.append_nil] at hread
  rw [parse, write, scan_writeAll hlegible]
  simp only [hread, bind, Except.bind]

/-- Documents that are read are writable, whoever wrote the text. -/
theorem writable_of_parse {text : String} {D : Document} (h : parse text = .ok D) :
    D.Writable := by
  unfold parse at h
  simp only [bind_eq_ok] at h
  obtain ⟨⟨E, ts⟩, hread, h⟩ := h
  simp only at h
  split at h
  · cases h
    exact record_exact.holds hread
  · cases h

theorem read_eq_ok_iff {text : String} {D : Document} : read text = .ok D ↔
    parse text = .ok D ∧ D.problem.P.validate = .ok () ∧ D.problem.A.validate = .ok () := by
  unfold read
  constructor
  · intro h
    split at h
    · cases h
    · cases h
    · split at h
      · cases h
      · rename_i hP
        split at h
        · cases h
        · rename_i hA
          cases h
          exact ⟨by assumption, hP, hA⟩
  · rintro ⟨hparse, hP, hA⟩
    simp only [hparse, hP, hA]

theorem readBytes_toUTF8 (text : String) : readBytes text.toUTF8 = read text := by
  have htext : String.fromUTF8? text.toUTF8 = some text := dif_pos text.isValidUTF8
  rw [readBytes, htext]

theorem exists_text {bytes : ByteArray} {D : Document} (h : readBytes bytes = .ok D) :
    ∃ text, read text = .ok D := by
  unfold readBytes at h
  split at h
  · cases h
  · rename_i text _
    exact ⟨text, h⟩

/-- **Documents are kept.** A document that is read from a file is written as a file from which the
same document is read. -/
theorem readBytes_write {bytes : ByteArray} {D : Document} (h : readBytes bytes = .ok D) :
    readBytes D.write.toUTF8 = .ok D := by
  obtain ⟨text, htext⟩ := exists_text h
  obtain ⟨hparse, hP, hA⟩ := read_eq_ok_iff.mp htext
  rw [readBytes_toUTF8, read_eq_ok_iff]
  exact ⟨parse_write (writable_of_parse hparse), hP, hA⟩

/-- A text with records as arrays, as they are never written, and without settings. -/
def listed : String :=
  "[[[1,1,[0,1],[0],[2]],[-1],[1,1,[0,1],[0],[1]],[0],[1.7976931348623157e308],0],[]]"

theorem readBytes_write_listed : ∃ D, readBytes listed.toUTF8 = .ok D ∧
    (D.problem.u == #[Scalar.infinity]) = true ∧ readBytes D.write.toUTF8 = .ok D := by
  have hread : (Document.read listed).toOption.any (fun D => D.problem.u == #[Scalar.infinity])
      = true := by
    have htext : listed = String.ofList _ := rfl
    rw [Document.read, parse, htext, String.toList_ofList]
    decide +kernel
  rw [← readBytes_toUTF8] at hread
  cases hD : readBytes listed.toUTF8 with
  | error e =>
    rw [hD] at hread
    cases hread
  | ok D =>
    rw [hD] at hread
    exact ⟨D, rfl, hread, readBytes_write hD⟩

end Document

/-! ### Accepted problems -/

namespace Csc

variable {A : Csc Float}

theorem n_lt_of_validate {α : Type} {A : Csc α} (h : A.validate = .ok ()) : A.n < wordSize := by
  have hvalid := valid_of_validate h
  have hsize := hvalid.colptr_size
  unfold validate at h
  split at h
  · cases h
  · rename_i hfault
    have hmod : (A.n + 1) % wordSize < wordSize := Nat.mod_lt _ (by decide)
    omega

/-- A well formed matrix of finite values can be written. -/
theorem writable_of_validate (h : A.validate = .ok ()) (hm : A.m < wordSize)
    (hsize : A.rowval.size < wordSize) (hnzval : A.nzval.all Scalar.isFinite = true) :
    A.Writable := by
  have hvalid := valid_of_validate h
  refine ⟨hm, n_lt_of_validate h, ?_, ?_, ?_⟩
  · intro k hk
    obtain ⟨j, hj, rfl⟩ := Array.mem_iff_getElem.mp hk
    have hstart : A.start j = A.colptr[j] := by
      simp [start, Array.getD_eq_getD_getElem?, hj]
    rw [← hstart]
    rw [hvalid.colptr_size] at hj
    exact (start_le_size hvalid (Nat.le_of_lt_succ hj)).trans_lt hsize
  · intro k hk
    rw [← Array.mem_toList_iff, toList_rowval hvalid, List.mem_flatMap] at hk
    obtain ⟨j, hj, hk⟩ := hk
    exact (hvalid.rows_lt j (List.mem_range.mp hj) k hk).trans hm
  · intro v hv
    rw [Array.all_eq_true_iff_forall_mem] at hnzval
    exact hnzval v hv

end Csc

namespace Document

/-- The arrays of a document have room in memory: their sizes are machine words. -/
structure HasRoom (D : Document) : Prop where
  P : D.problem.P.rowval.size < wordSize
  A : D.problem.A.rowval.size < wordSize
  l : D.problem.l.size < wordSize

/-- What a document needs to be writable, besides finite settings: a setup accepts its problem and
its settings, and no bound and no time limit is a number that stands for infinity. -/
structure Accepted (D : Document) : Prop where
  data : ∃ I, D.problem.toQpData.validate = .ok I
  constant : D.problem.constant.isFinite = true
  l : ∀ v ∈ D.problem.l, v ≠ largestFloat ∧ v ≠ -largestFloat
  u : ∀ v ∈ D.problem.u, v ≠ largestFloat ∧ v ≠ -largestFloat
  settings : D.settings.validate = .ok ()
  timeLimit : D.settings.timeLimit ≠ largestFloat

theorem isNaN_of_any {xs : Array Float} (h : xs.any Scalar.isNaN = false) :
    ∀ v ∈ xs, v.isNaN = false := by
  intro v hv
  rw [← isNaN_eq]
  exact Bool.eq_false_iff.mpr (Array.any_eq_false'.mp h v hv)

theorem Accepted.numeric {D : Document} (hD : D.Accepted) : D.problem.toQpData.Numeric := by
  obtain ⟨I, hI⟩ := hD.data
  obtain ⟨hdata, hacceptable⟩ := QpData.validate_eq_ok_iff.mp hI
  have hnumeric := hacceptable.toNumeric
  rwa [hdata] at hnumeric

/-- A problem that a setup accepts can be written. -/
theorem Accepted.writable_problem {D : Document} (hD : D.Accepted) (hroom : D.HasRoom) :
    D.problem.Writable := by
  have hnumeric := hD.numeric
  obtain ⟨I, hI⟩ := hD.data
  have hdata := (QpData.validate_eq_ok_iff.mp hI).1
  have hP : D.problem.P.m = D.problem.A.n := by
    rw [← congrArg QpData.P hdata]
    exact I.P.rows_eq
  have hm : D.problem.A.m < wordSize := by
    have hl : D.problem.l.size = D.problem.A.m := by
      rw [← congrArg QpData.l hdata]
      exact I.l.size_toArray
    rw [← hl]
    exact hroom.l
  have hn := Csc.n_lt_of_validate hnumeric.formatA
  refine ⟨Csc.writable_of_validate hnumeric.formatP (hP ▸ hn) hroom.P hnumeric.finiteP, ?_,
    Csc.writable_of_validate hnumeric.formatA hm hroom.A hnumeric.finiteA, ?_, ?_, hD.constant⟩
  · exact Array.all_eq_true_iff_forall_mem.mp hnumeric.finiteq
  · exact fun v hv => ⟨isNaN_of_any hnumeric.lower v hv, (hD.l v hv).1, (hD.l v hv).2⟩
  · exact fun v hv => ⟨isNaN_of_any hnumeric.upper v hv, (hD.u v hv).1, (hD.u v hv).2⟩

/-- A legal time limit can be written. -/
theorem Accepted.isTimeLimit {D : Document} (hD : D.Accepted) : IsTimeLimit D.settings.timeLimit := by
  have hpos : 0 < D.settings.timeLimit := by
    obtain ⟨-, -, -, -, -, -, -, -, -, h, -⟩ := (Settings.validate_eq_ok_iff _).mp hD.settings
    exact h
  refine ⟨(le_iff.mp (lt_iff.mp hpos).1).2.1, hD.timeLimit, fun h => ?_⟩
  rw [h] at hpos
  revert hpos
  decide

/-- A document with an infinite number among its settings is refused when it is read again. -/
theorem Accepted.readBytes_of_infinite {D : Document} (hD : D.Accepted) (hroom : D.HasRoom)
    (h : ¬∀ v ∈ D.settings.numbers, v.isFinite = true) :
    readBytes D.write.toUTF8 = .error .malformed := by
  have hrefuses := record_refuses (hD.writable_problem hroom) hD.isTimeLimit h
  rw [readBytes_toUTF8, Document.read, parse_write_of_refuses hrefuses]

/-- **Accepted documents read back if their settings are finite.** What is written for a document
that a setup accepts is read as that document, unless one of its settings is infinite, the time
limit apart; then it is malformed. -/
theorem Accepted.readBytes_write_eq {D : Document} (hD : D.Accepted) (hroom : D.HasRoom) :
    readBytes D.write.toUTF8
      = if ∀ v ∈ D.settings.numbers, v.isFinite = true then .ok D else .error .malformed := by
  split_ifs with h
  · have hwritable : D.Writable := ⟨hD.writable_problem hroom, h, hD.isTimeLimit⟩
    rw [readBytes_toUTF8, read_eq_ok_iff]
    exact ⟨parse_write hwritable, hD.numeric.formatP, hD.numeric.formatA⟩
  · exact hD.readBytes_of_infinite hroom h

/-- One variable that is not below zero, with the given tolerance of proofs that the constraints
contradict each other. -/
def halfLine (epsPrimInf : Float) : Document where
  problem :=
    { P := ⟨1, 1, #[0, 1], #[0], #[2]⟩, q := #[-1], A := ⟨1, 1, #[0, 1], #[0], #[1]⟩, l := #[0]
      u := #[Scalar.infinity], constant := 0 }
  settings := { Settings.default with epsPrimInf := epsPrimInf }

theorem halfLine_accepted {epsPrimInf : Float} (h : 0 < epsPrimInf) :
    (halfLine epsPrimInf).Accepted := by
  have hzero : (0 : Float) ≠ largestFloat ∧ (0 : Float) ≠ -largestFloat :=
    ⟨fun h => absurd (beq_largest.mpr h) (by decide +kernel),
      fun h => absurd (beq_neg_largest.mpr h) (by decide +kernel)⟩
  have hdata : (halfLine 0).problem.toQpData.validate.isOk = true := by decide +kernel
  have hfinite : (0 : Float).isFinite = true := by decide +kernel
  refine ⟨?_, hfinite, ?_, ?_, ?_, isTimeLimit_infinity.ne_largest⟩
  · have hproblem : (halfLine epsPrimInf).problem = (halfLine 0).problem := rfl
    rw [hproblem]
    cases hI : (halfLine 0).problem.toQpData.validate with
    | error e =>
      rw [hI] at hdata
      cases hdata
    | ok I => exact ⟨I, rfl⟩
  · intro v hv
    rw [Array.mem_singleton.mp hv]
    exact hzero
  · intro v hv
    rw [Array.mem_singleton.mp hv]
    exact ⟨isBound_infinity.ne_largest, isBound_infinity.ne_neg_largest⟩
  · have hdefault := Settings.validate_default
    rw [Settings.validate_eq_ok_iff] at hdefault ⊢
    obtain ⟨hrho, hsigma, halpha, habs, hrel, htolerances, -, hrest⟩ := hdefault
    exact ⟨hrho, hsigma, halpha, habs, hrel, htolerances, h, hrest⟩

theorem halfLine_hasRoom (epsPrimInf : Float) : (halfLine epsPrimInf).HasRoom := by
  have hone : 1 < wordSize := by decide
  exact ⟨hone, hone, hone⟩

theorem Accepted.readBytes_write_eq_halfLine : (halfLine 1e-4).Accepted ∧ (halfLine 1e-4).HasRoom ∧
    readBytes (halfLine 1e-4).write.toUTF8 = .ok (halfLine 1e-4) := by
  have haccepted : (halfLine 1e-4).Accepted := halfLine_accepted (by decide +kernel)
  refine ⟨haccepted, halfLine_hasRoom 1e-4, ?_⟩
  rw [haccepted.readBytes_write_eq (halfLine_hasRoom 1e-4)]
  exact if_pos (by decide +kernel)

/-- An infinite tolerance is legal but not read back. -/
theorem exists_accepted_unreadable : ∃ D : Document, D.Accepted ∧ D.HasRoom ∧
    readBytes D.write.toUTF8 = .error .malformed := by
  have haccepted : (halfLine Scalar.infinity).Accepted := halfLine_accepted (by decide +kernel)
  exact ⟨halfLine Scalar.infinity, haccepted, halfLine_hasRoom _,
    haccepted.readBytes_of_infinite (halfLine_hasRoom _) (by decide +kernel)⟩

end Document
end QuadOpt
