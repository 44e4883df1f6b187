/-
# Documents

A document holds a problem in standard form together with settings to solve it
with. It is written as JSON text. JSON has no infinities: in bounds and in the
time limit, the largest finite number stands for infinity, and back again when
the text is read.

Key definitions: `Document`, `Document.record`, `Document.write`,
`Document.read`, `Document.readBytes`.
-/
import QuadOpt.Engine.Settings
import QuadOpt.Json.Record
import QuadOpt.Json.Scan
import QuadOpt.Model.StandardForm

namespace QuadOpt

open Json

/-- A problem with settings. -/
structure Document where
  problem : StandardForm Float
  settings : Settings Float

/-- The largest finite number. -/
def largestFloat : Float := 1.7976931348623157e308

/-- Infinity as the largest number. -/
def sealInfinity (x : Float) : Float :=
  if x == Scalar.infinity then largestFloat else x

/-- The largest number as infinity. -/
def unsealInfinity (x : Float) : Float :=
  if x == largestFloat then Scalar.infinity else x

/-- Infinities of both signs as largest numbers. -/
def sealBound (x : Float) : Float :=
  if x == Scalar.infinity then largestFloat
  else if x == -Scalar.infinity then -largestFloat
  else x

/-- Largest numbers of both signs as infinities. -/
def unsealBound (x : Float) : Float :=
  if x == largestFloat then Scalar.infinity
  else if x == -largestFloat then -Scalar.infinity
  else x

/-- Why a document was not read. -/
inductive DocumentError where
  /-- the text ended too early -/
  | ended
  /-- the text is not a document -/
  | malformed
  /-- a matrix is not well formed -/
  | format (e : FormatError)
  deriving DecidableEq, Repr

namespace Document

/-- A matrix of which some parts are known. -/
structure MatrixDraft where
  m : Option Nat := none
  n : Option Nat := none
  colptr : Option (Array Nat) := none
  rowval : Option (Array Nat) := none
  nzval : Option (Array Float) := none

/-- Dimensions and indices are machine words. -/
def indexCodec : Codec Nat := .natBelow wordSize

/-- Matrices as records. -/
def matrixRecord : Record (Csc Float) MatrixDraft where
  fields := [
    .of "m" indexCodec (·.m) (·.m) fun d v => { d with m := some v },
    .of "n" indexCodec (·.n) (·.n) fun d v => { d with n := some v },
    .of "colptr" (.array indexCodec) (·.colptr) (·.colptr) fun d v => { d with colptr := some v },
    .of "rowval" (.array indexCodec) (·.rowval) (·.rowval) fun d v => { d with rowval := some v },
    .of "nzval" (.array .float) (·.nzval) (·.nzval) fun d v => { d with nzval := some v }]
  blank := {}
  finish d := do return ⟨← d.m, ← d.n, ← d.colptr, ← d.rowval, ← d.nzval⟩

/-- A problem of which some parts are known. -/
structure ProblemDraft where
  P : Option (Csc Float) := none
  q : Option (Array Float) := none
  A : Option (Csc Float) := none
  l : Option (Array Float) := none
  u : Option (Array Float) := none
  constant : Option Float := none

/-- Bounds, with infinities sealed. -/
def boundsCodec : Codec (Array Float) where
  write xs := (Codec.array .float).write (xs.map sealBound)
  read tail ts := do
    let (xs, ts) ← (Codec.array .float).read tail ts
    return (xs.map unsealBound, ts)

/-- Problems as records. -/
def problemRecord : Record (StandardForm Float) ProblemDraft where
  fields := [
    .of "P" matrixRecord.codec (·.P) (·.P) fun d v => { d with P := some v },
    .of "q" (.array .float) (·.q) (·.q) fun d v => { d with q := some v },
    .of "A" matrixRecord.codec (·.A) (·.A) fun d v => { d with A := some v },
    .of "l" boundsCodec (·.l) (·.l) fun d v => { d with l := some v },
    .of "u" boundsCodec (·.u) (·.u) fun d v => { d with u := some v },
    .of "constant" .float (·.constant) (·.constant) fun d v => { d with constant := some v }]
  blank := {}
  finish d := do
    return {
      P := ← d.P, q := ← d.q, A := ← d.A, l := ← d.l, u := ← d.u,
      constant := ← d.constant }

/-- The time limit, with infinity sealed. -/
def timeLimitCodec : Codec Float where
  write x := Codec.float.write (sealInfinity x)
  read tail ts := do
    let (x, ts) ← Codec.float.read tail ts
    return (unsealInfinity x, ts)

/-- Settings as records. Those that are missing have their defaults. -/
def settingsRecord : Record (Settings Float) (Settings.Choice Float) where
  fields := [
    .of "rho" Codec.float (·.rho) (·.rho)
      fun c v => { c with rho := some v },
    .of "sigma" Codec.float (·.sigma) (·.sigma)
      fun c v => { c with sigma := some v },
    .of "alpha" Codec.float (·.alpha) (·.alpha)
      fun c v => { c with alpha := some v },
    .of "eps_abs" Codec.float (·.epsAbs) (·.epsAbs)
      fun c v => { c with epsAbs := some v },
    .of "eps_rel" Codec.float (·.epsRel) (·.epsRel)
      fun c v => { c with epsRel := some v },
    .of "eps_prim_inf" Codec.float (·.epsPrimInf) (·.epsPrimInf)
      fun c v => { c with epsPrimInf := some v },
    .of "eps_dual_inf" Codec.float (·.epsDualInf) (·.epsDualInf)
      fun c v => { c with epsDualInf := some v },
    .of "max_iter" Codec.uint32 (·.maxIter) (·.maxIter)
      fun c v => { c with maxIter := some v },
    .of "time_limit" timeLimitCodec (·.timeLimit) (·.timeLimit)
      fun c v => { c with timeLimit := some v },
    .of "scaling" Codec.uint32 (·.scaling) (·.scaling)
      fun c v => { c with scaling := some v },
    .of "adaptive_rho" Codec.bool (·.adaptiveRho) (·.adaptiveRho)
      fun c v => { c with adaptiveRho := some v },
    .of "adaptive_rho_interval" Codec.uint32 (·.adaptiveRhoInterval) (·.adaptiveRhoInterval)
      fun c v => { c with adaptiveRhoInterval := some v },
    .of "adaptive_rho_tolerance" Codec.float (·.adaptiveRhoTolerance) (·.adaptiveRhoTolerance)
      fun c v => { c with adaptiveRhoTolerance := some v },
    .of "check_termination" Codec.uint32 (·.checkTermination) (·.checkTermination)
      fun c v => { c with checkTermination := some v },
    .of "warm_starting" Codec.bool (·.warmStarting) (·.warmStarting)
      fun c v => { c with warmStarting := some v },
    .of "polishing" Codec.bool (·.polishing) (·.polishing)
      fun c v => { c with polishing := some v },
    .of "delta" Codec.float (·.delta) (·.delta)
      fun c v => { c with delta := some v },
    .of "polish_refine_iter" Codec.uint32 (·.polishRefineIter) (·.polishRefineIter)
      fun c v => { c with polishRefineIter := some v },
    .of "verbose" Codec.bool (·.verbose) (·.verbose)
      fun c v => { c with verbose := some v }]
  blank := {}
  finish c := some (c.complete .default)

/-- A document of which some parts are known. -/
structure Draft where
  problem : Option (StandardForm Float) := none
  settings : Option (Settings Float) := none

/-- Documents as records. -/
def record : Record Document Draft where
  fields := [
    .of "problem" problemRecord.codec (·.problem) (·.problem)
      fun d v => { d with problem := some v },
    .of "settings" settingsRecord.codec (·.settings) (·.settings)
      fun d v => { d with settings := some v }]
  blank := {}
  finish d := do return ⟨← d.problem, ← d.settings⟩

/-- The text of a document. -/
def write (D : Document) : String := Token.writeAll (record.codec.write D)

/-- The document that a text holds, which goes on to the end of the text. -/
def parse (text : String) : Except Fault Document := do
  let (ts, tail) := scan text.toList
  let (D, ts) ← record.codec.read tail ts
  if ts.isEmpty ∧ tail = .done then return D else throw .malformed

/-- The document that a text holds, if its matrices are well formed. -/
def read (text : String) : Except DocumentError Document :=
  match parse text with
  | .error .ended => .error .ended
  | .error .malformed => .error .malformed
  | .ok D =>
    match D.problem.P.validate with
    | .error e => .error (.format e)
    | .ok () =>
      match D.problem.A.validate with
      | .error e => .error (.format e)
      | .ok () => .ok D

/-- The document that a text in UTF-8 holds. -/
def readBytes (bytes : ByteArray) : Except DocumentError Document :=
  match String.fromUTF8? bytes with
  | none => .error .malformed
  | some text => read text

end Document
end QuadOpt
