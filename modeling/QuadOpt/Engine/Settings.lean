/-
# Settings

The settings of a solver session, their defaults and their legal values.
`Settings.validate` looks at a complete collection; `Settings.Choice.validate`
looks at those settings that somebody chose, before the others get their
defaults.

Key definitions: `Settings`, `Settings.default`, `Settings.validate`,
`Settings.validateUpdate`, `Settings.Choice`, `Settings.Choice.build`.
-/
import QuadOpt.Scalar

namespace QuadOpt

/-- The settings of a solver session. -/
structure Settings (α : Type) where
  /-- step size -/
  rho : α
  /-- primal regularisation -/
  sigma : α
  /-- relaxation, between zero and two -/
  alpha : α
  /-- absolute tolerance of a solution -/
  epsAbs : α
  /-- relative tolerance of a solution -/
  epsRel : α
  /-- tolerance of a proof that the constraints contradict each other -/
  epsPrimInf : α
  /-- tolerance of a proof that the objective is unbounded -/
  epsDualInf : α
  /-- largest number of iterations -/
  maxIter : UInt32
  /-- largest running time in seconds -/
  timeLimit : Float
  /-- rounds of equilibration; none for zero -/
  scaling : UInt32
  /-- the step size adapts to the residuals -/
  adaptiveRho : Bool
  /-- iterations between adaptations of the step size; none for zero -/
  adaptiveRhoInterval : UInt32
  /-- the step size changes only by more than this factor -/
  adaptiveRhoTolerance : α
  /-- iterations between tests for termination; none for zero -/
  checkTermination : UInt32
  /-- a solve starts from the iterate that the last one ended with -/
  warmStarting : Bool
  /-- a solution is refined on the constraints active at it -/
  polishing : Bool
  /-- regularisation of the system that refines a solution -/
  delta : α
  /-- rounds of refinement -/
  polishRefineIter : UInt32
  /-- solves report on their progress -/
  verbose : Bool
  deriving BEq, Repr

/-- The settings that can be rejected. -/
inductive SettingName where
  | rho | sigma | alpha | epsAbs | epsRel | epsPrimInf | epsDualInf | maxIter | timeLimit
  | scaling | adaptiveRho | adaptiveRhoInterval | adaptiveRhoTolerance | delta
  deriving DecidableEq, Repr

/-- A setting's name in messages. -/
def SettingName.text : SettingName → String
  | rho => "rho"
  | sigma => "sigma"
  | alpha => "alpha"
  | epsAbs => "eps_abs"
  | epsRel => "eps_rel"
  | epsPrimInf => "eps_prim_inf"
  | epsDualInf => "eps_dual_inf"
  | maxIter => "max_iter"
  | timeLimit => "time_limit"
  | scaling => "scaling"
  | adaptiveRho => "adaptive_rho"
  | adaptiveRhoInterval => "adaptive_rho_interval"
  | adaptiveRhoTolerance => "adaptive_rho_tolerance"
  | delta => "delta"

/-- Why settings are rejected. -/
inductive SettingsError where
  /-- the value is outside of the legal range -/
  | badValue (field : SettingName)
  /-- the setting was changed although it is fixed when a session is set up -/
  | immutable (field : SettingName)
  deriving DecidableEq, Repr

/-- The text of a settings error. -/
def SettingsError.message : SettingsError → String
  | .badValue field => s!"Bad value for field \"{field.text}\""
  | .immutable field => s!"Setting \"{field.text}\" cannot be changed after setup"

namespace Settings

variable {α : Type} [Scalar α]

/-- The settings of a session for which nobody chose anything. -/
def default : Settings α where
  rho := 0.1
  sigma := 1e-6
  alpha := 1.6
  epsAbs := 1e-3
  epsRel := 1e-3
  epsPrimInf := 1e-4
  epsDualInf := 1e-4
  maxIter := 4000
  timeLimit := 1.0 / 0.0
  scaling := 10
  adaptiveRho := true
  adaptiveRhoInterval := 25
  adaptiveRhoTolerance := 5.0
  checkTermination := 1
  warmStarting := true
  polishing := false
  delta := 1e-6
  polishRefineIter := 3
  verbose := false

/-- Passes if the condition holds. A comparison with NaN never does. -/
def require (field : SettingName) (legal : Bool) : Except SettingsError Unit :=
  if legal then .ok () else .error (.badValue field)

/-- The value is positive. -/
def checkPositive (field : SettingName) (v : α) : Except SettingsError Unit :=
  require field (decide (0 < v))

/-- The value is not negative. -/
def checkNonnegative (field : SettingName) (v : α) : Except SettingsError Unit :=
  require field (decide (0 ≤ v))

/-- The value is strictly between zero and two. -/
def checkAlpha (v : α) : Except SettingsError Unit :=
  require .alpha (decide (0 < v) && decide (v < 2.0))

/-- The two tolerances are not both zero. -/
def checkTolerances (epsAbs epsRel : α) : Except SettingsError Unit :=
  require .epsAbs (!(epsAbs == 0 && epsRel == 0))

/-- At least one iteration is allowed. -/
def checkMaxIter (v : UInt32) : Except SettingsError Unit :=
  require .maxIter (v != 0)

/-- Some time is allowed. -/
def checkTimeLimit (v : Float) : Except SettingsError Unit :=
  require .timeLimit (decide (0 < v))

/-- The factor is at least one. -/
def checkRhoTolerance (v : α) : Except SettingsError Unit :=
  require .adaptiveRhoTolerance (decide (1 ≤ v))

/-- All values are legal; otherwise the first that is not. -/
def validate (s : Settings α) : Except SettingsError Unit := do
  checkPositive .rho s.rho
  checkPositive .sigma s.sigma
  checkAlpha s.alpha
  checkNonnegative .epsAbs s.epsAbs
  checkNonnegative .epsRel s.epsRel
  checkTolerances s.epsAbs s.epsRel
  checkPositive .epsPrimInf s.epsPrimInf
  checkPositive .epsDualInf s.epsDualInf
  checkMaxIter s.maxIter
  checkTimeLimit s.timeLimit
  checkRhoTolerance s.adaptiveRhoTolerance
  checkPositive .delta s.delta

/-- The setting is as it was. -/
def checkUnchanged {β : Type} [BEq β] (field : SettingName) (new old : β) :
    Except SettingsError Unit :=
  if new == old then .ok () else .error (.immutable field)

/-- The settings may replace those of a session that was set up with `old`:
they are legal, and those that only setup uses are as they were. -/
def validateUpdate (s old : Settings α) : Except SettingsError Unit := do
  s.validate
  checkUnchanged .sigma s.sigma old.sigma
  checkUnchanged .scaling s.scaling old.scaling
  checkUnchanged .adaptiveRho s.adaptiveRho old.adaptiveRho
  checkUnchanged .adaptiveRhoInterval s.adaptiveRhoInterval old.adaptiveRhoInterval

/-- Some settings, chosen by somebody. -/
structure Choice (α : Type) where
  rho : Option α := none
  sigma : Option α := none
  alpha : Option α := none
  epsAbs : Option α := none
  epsRel : Option α := none
  epsPrimInf : Option α := none
  epsDualInf : Option α := none
  maxIter : Option UInt32 := none
  timeLimit : Option Float := none
  scaling : Option UInt32 := none
  adaptiveRho : Option Bool := none
  adaptiveRhoInterval : Option UInt32 := none
  adaptiveRhoTolerance : Option α := none
  checkTermination : Option UInt32 := none
  warmStarting : Option Bool := none
  polishing : Option Bool := none
  delta : Option α := none
  polishRefineIter : Option UInt32 := none
  verbose : Option Bool := none

namespace Choice

/-- The settings `s` with the chosen ones in place of its own. -/
def complete (c : Choice α) (s : Settings α) : Settings α where
  rho := c.rho.getD s.rho
  sigma := c.sigma.getD s.sigma
  alpha := c.alpha.getD s.alpha
  epsAbs := c.epsAbs.getD s.epsAbs
  epsRel := c.epsRel.getD s.epsRel
  epsPrimInf := c.epsPrimInf.getD s.epsPrimInf
  epsDualInf := c.epsDualInf.getD s.epsDualInf
  maxIter := c.maxIter.getD s.maxIter
  timeLimit := c.timeLimit.getD s.timeLimit
  scaling := c.scaling.getD s.scaling
  adaptiveRho := c.adaptiveRho.getD s.adaptiveRho
  adaptiveRhoInterval := c.adaptiveRhoInterval.getD s.adaptiveRhoInterval
  adaptiveRhoTolerance := c.adaptiveRhoTolerance.getD s.adaptiveRhoTolerance
  checkTermination := c.checkTermination.getD s.checkTermination
  warmStarting := c.warmStarting.getD s.warmStarting
  polishing := c.polishing.getD s.polishing
  delta := c.delta.getD s.delta
  polishRefineIter := c.polishRefineIter.getD s.polishRefineIter
  verbose := c.verbose.getD s.verbose

/-- Checks a value if it was chosen. -/
def whenChosen {β : Type} (v : Option β) (check : β → Except SettingsError Unit) :
    Except SettingsError Unit :=
  match v with
  | none => .ok ()
  | some v => check v

/-- All chosen values are legal; otherwise the first that is not. The two
tolerances are looked at together only if both were chosen. -/
def validate (c : Choice α) : Except SettingsError Unit := do
  whenChosen c.rho (checkPositive .rho)
  whenChosen c.sigma (checkPositive .sigma)
  whenChosen c.alpha checkAlpha
  whenChosen c.epsAbs (checkNonnegative .epsAbs)
  whenChosen c.epsRel (checkNonnegative .epsRel)
  whenChosen c.epsAbs fun epsAbs => whenChosen c.epsRel fun epsRel =>
    checkTolerances epsAbs epsRel
  whenChosen c.epsPrimInf (checkPositive .epsPrimInf)
  whenChosen c.epsDualInf (checkPositive .epsDualInf)
  whenChosen c.maxIter checkMaxIter
  whenChosen c.timeLimit checkTimeLimit
  whenChosen c.adaptiveRhoTolerance checkRhoTolerance
  whenChosen c.delta (checkPositive .delta)

/-- The chosen settings with defaults for the others, if the choice is legal. -/
def build (c : Choice α) : Except SettingsError (Settings α) := do
  c.validate
  return c.complete .default

end Choice
end Settings
end QuadOpt
