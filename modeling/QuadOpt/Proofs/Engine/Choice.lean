/-
# Chosen settings

Settings are checked twice: those that somebody chose, before the others get their defaults, and a
complete collection. The two checks agree, in what they pass and in the first error, as every
default passes its own check: a check that is left out for want of a choice would have passed. The
joint check of the two tolerances is left out if one of them was not chosen, and passes as neither
default is zero.

Key theorems: `Settings.validate_default`, `Settings.Choice.whenChosen_eq`,
`Settings.Choice.validate_complete`, `Settings.Choice.build_iff`.
-/
import QuadOpt.Proofs.Admm.Sound

namespace QuadOpt.Settings

/-- The defaults are legal. -/
theorem validate_default : (default : Settings Float).validate = .ok () := by
  rw [validate_eq_ok_iff]
  decide

namespace Choice

variable {α : Type} [Scalar α]

omit [Scalar α] in
/-- A check that the default passes may be left out for it. -/
theorem whenChosen_eq {β : Type} {d : β} {check : β → Except SettingsError Unit}
    (hd : check d = .ok ()) (v : Option β) : whenChosen v check = check (v.getD d) := by
  cases v with
  | none => exact hd.symm
  | some v => rfl

/-- Tolerances of which one is not zero pass their joint check. -/
theorem checkTolerances_eq_ok {a r : α} (h : (a == 0) = false ∨ (r == 0) = false) :
    checkTolerances a r = .ok () := by
  rw [checkTolerances, require_eq_ok_iff]
  rcases h with h | h <;> simp [h]

/-- The tolerances are looked at together for whoever chose both of them. -/
theorem whenChosen_tolerances {a r : α} (ha : (a == 0) = false) (hr : (r == 0) = false)
    (epsAbs epsRel : Option α) :
    (whenChosen epsAbs fun v => whenChosen epsRel fun w => checkTolerances v w)
      = checkTolerances (epsAbs.getD a) (epsRel.getD r) := by
  cases epsAbs with
  | none => exact (checkTolerances_eq_ok (.inl ha)).symm
  | some v => exact whenChosen_eq (checkTolerances_eq_ok (.inr hr)) epsRel

/-- A choice is checked as the collection that it is completed to, if the rest of it is legal and
has no tolerance of zero. -/
theorem validate_complete {s : Settings α} (hs : s.validate = .ok ())
    (habs : (s.epsAbs == 0) = false) (hrel : (s.epsRel == 0) = false) (c : Choice α) :
    c.validate = (c.complete s).validate := by
  simp only [Settings.validate, bind_eq_ok_iff] at hs
  obtain ⟨hrho, hsigma, halpha, hepsAbs, hepsRel, -, hprim, hdual, hiter, htime, hfactor, hdelta⟩ := hs
  simp only [validate, Settings.validate, complete, whenChosen_eq hrho, whenChosen_eq hsigma,
    whenChosen_eq halpha, whenChosen_eq hepsAbs, whenChosen_eq hepsRel,
    whenChosen_tolerances habs hrel, whenChosen_eq hprim, whenChosen_eq hdual, whenChosen_eq hiter,
    whenChosen_eq htime, whenChosen_eq hfactor, whenChosen_eq hdelta]

/-- Where the defaults are legal and no tolerance is zero by default, settings are built by the check
of the complete collection. -/
theorem build_eq (hlegal : (default : Settings α).validate = .ok ())
    (habs : ((default : Settings α).epsAbs == 0) = false)
    (hrel : ((default : Settings α).epsRel == 0) = false) (c : Choice α) :
    c.build = (c.complete .default).validate >>= fun _ => .ok (c.complete .default) := by
  rw [build, validate_complete hlegal habs hrel c]
  rfl

/-- **Two checks agree.** Whatever was chosen, numbers or not, the settings are built iff the
complete collection with the defaults for the others passes its check. They are that collection
then, and otherwise the error is the one of its check. -/
theorem build_iff (c : Choice Float) :
    (∀ s, c.build = .ok s ↔ (c.complete .default).validate = .ok () ∧ s = c.complete .default) ∧
      ∀ e, c.build = .error e ↔ (c.complete .default).validate = .error e := by
  rw [build_eq validate_default (by decide +kernel) (by decide +kernel)]
  cases (c.complete .default).validate with
  | error e => simp [bind, Except.bind]
  | ok _ => simp [bind, Except.bind, eq_comm]

/-- A tolerance of zero is legal beside the default of the other one. -/
example : (build { epsAbs := some (0 : Float) }).isOk = true := by decide

end Choice
end QuadOpt.Settings
