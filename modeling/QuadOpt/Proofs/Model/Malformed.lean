/-
# Documents with malformed matrices

A document may hold any matrices. They are checked when it is read, and a matrix that is not well
formed is an error. Only where the number of columns is the largest word, and there is no pointer,
does the check itself read beyond the end of an array, so that reading stops.

Key theorems: `Document.read_eq_format_iff`, `Document.readBytes_eq_unreadable_iff`,
`Document.formatCheck_stops_iff`.
-/
import QuadOpt.Proofs.Model.Document
import QuadOpt.Proofs.Sparse.Format

namespace QuadOpt.Document

/-- The format error of a document is that of its first faulty matrix. -/
theorem read_eq_format_iff {text : String} {e : FormatError} :
    read text = .error (.format e) ↔ ∃ D, parse text = .ok D ∧
      (D.problem.P.validate = .error e ∨
        D.problem.P.validate = .ok () ∧ D.problem.A.validate = .error e) := by
  unfold read
  cases hparse : parse text with
  | error fault => cases fault <;> simp
  | ok D =>
    cases hP : D.problem.P.validate with
    | error f => simp [hP]
    | ok _ =>
      cases hA : D.problem.A.validate with
      | error f => simp [hP, hA]
      | ok _ => simp [hP, hA]

/-- Reading stops at the matrix that makes the check stop. -/
theorem readBytes_eq_unreadable_iff {bytes : ByteArray} :
    readBytes bytes = .error (.format .unreadable) ↔
      ∃ text D, String.fromUTF8? bytes = some text ∧ parse text = .ok D ∧
        (D.problem.P.Overflows ∨ D.problem.P.validate = .ok () ∧ D.problem.A.Overflows) := by
  unfold readBytes
  cases String.fromUTF8? bytes with
  | none => simp
  | some text =>
    simp only [Option.some.injEq, read_eq_format_iff]
    constructor
    · rintro ⟨D, hparse, hfault⟩
      have hD := (writable_of_parse hparse).problem
      rw [Csc.validate_eq_unreadable_iff hD.P.n, Csc.validate_eq_unreadable_iff hD.A.n] at hfault
      exact ⟨text, D, rfl, hparse, hfault⟩
    · rintro ⟨text, D, rfl, hparse, hfault⟩
      have hD := (writable_of_parse hparse).problem
      rw [← Csc.validate_eq_unreadable_iff hD.P.n, ← Csc.validate_eq_unreadable_iff hD.A.n] at hfault
      exact ⟨D, hparse, hfault⟩

/-- **The format check stops with an overflow only.** Dimensions are words, and no array has as many
elements as there are words. Whatever else the arrays of a matrix hold, the check reads inside of
them and passes exactly the well formed matrices, unless the number of columns is the largest word
and there is no pointer. So a document is read, or refused with an error, unless one of its
matrices is such. -/
theorem formatCheck_stops_iff {α : Type} (A : Csc α) (hn : A.n < wordSize)
    (hsize : A.colptr.size < wordSize) (bytes : ByteArray) :
    (A.validate? = none ↔ A.Overflows) ∧ (A.validate? = some (.ok ()) ↔ A.Valid) ∧
      (readBytes bytes = .error (.format .unreadable) ↔
        ∃ text D, String.fromUTF8? bytes = some text ∧ parse text = .ok D ∧
          (D.problem.P.Overflows ∨ D.problem.P.validate = .ok () ∧ D.problem.A.Overflows)) := by
  rw [Csc.validate?_eq, Csc.readInside_eq_none_iff, Csc.readInside_eq_some_iff (by simp)]
  exact ⟨Csc.validate_eq_unreadable_iff hn, Csc.validate_eq_ok_iff hsize,
    readBytes_eq_unreadable_iff⟩

/-- As many columns as a word can count, and no array holds anything. -/
def unpointedMatrix : Csc Float := ⟨0, wordSize - 1, #[], #[], #[]⟩

/-- A document with that matrix, in which all records but the settings are arrays. -/
def unpointed : String :=
  "[[[0,18446744073709551615,[],[],[]],[],[0,0,[0],[],[]],[],[],1],\x7b\x7d]"

theorem formatCheck_stops_iff_unpointed :
    (unpointedMatrix.n < wordSize ∧ unpointedMatrix.colptr.size < wordSize ∧
      unpointedMatrix.validate? = none) ∧
    (2 < wordSize ∧ (#[0, 0, 1] : Array Nat).size < wordSize ∧
      (⟨1, 2, #[0, 0, 1], #[0], #[1.5]⟩ : Csc Float).Valid) := by
  have hn : unpointedMatrix.n < wordSize := by decide
  have hsize : unpointedMatrix.colptr.size < wordSize := by decide
  have hn' : 2 < wordSize := by decide
  have hsize' : (#[0, 0, 1] : Array Nat).size < wordSize := by decide
  refine ⟨⟨hn, hsize, ?_⟩, hn', hsize', ?_⟩
  · exact (formatCheck_stops_iff unpointedMatrix hn hsize unpointed.toUTF8).1.mpr ⟨rfl, rfl, rfl⟩
  · exact (formatCheck_stops_iff (⟨1, 2, #[0, 0, 1], #[0], #[1.5]⟩ : Csc Float) hn' hsize'
      unpointed.toUTF8).2.1.mp (by decide)

/-- On that matrix the check stops, and so does reading the document. -/
theorem exists_malformed_unreadable :
    unpointedMatrix.validate? = none ∧
      readBytes unpointed.toUTF8 = .error (.format .unreadable) := by
  have hread : (match read unpointed with
      | .error e => decide (e = .format .unreadable)
      | .ok _ => false) = true := by
    have htext : unpointed = String.ofList _ := rfl
    rw [read, parse, htext, String.toList_ofList]
    decide +kernel
  rw [readBytes_toUTF8]
  refine ⟨by decide, ?_⟩
  split at hread
  · rename_i e he
    rw [he, of_decide_eq_true hread]
  · cases hread

end QuadOpt.Document
