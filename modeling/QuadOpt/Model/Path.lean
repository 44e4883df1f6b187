/-
# Reusing a session

A session that holds a problem can take over another one if both store the same
positions of `P` and of `A`, and if the settings differ in such ones only as a
session can change. Otherwise a new session is needed.

Key definitions: `SolvePath`, `requireSameShape`, `SolvePath.select`.
-/
import QuadOpt.Model.StandardForm
import QuadOpt.Sparse.Pattern

namespace QuadOpt

/-- How a problem reached the session that solved it. -/
inductive SolvePath where
  /-- there was no session, and one was made -/
  | setup
  /-- the session took over the new values -/
  | update
  /-- the session was replaced by a new one -/
  | rebuild
  deriving DecidableEq, Repr

/-- The text of a path. -/
def SolvePath.text : SolvePath → String
  | setup => "setup"
  | update => "update in place"
  | rebuild => "rebuild"

variable {α : Type} [Scalar α]

/-- The matrices of a problem store the same positions as `P` and `A`. -/
def requireSameShape (P A : Csc α) (F : StandardForm α) : Except FormatError Unit := do
  P.requireSamePattern F.P
  A.requireSamePattern F.A

/-- The path for a problem and settings, if a session holds `P` and `A` and the
settings `live`. -/
def SolvePath.select (P A : Csc α) (F : StandardForm α) (live requested : Settings α) :
    SolvePath :=
  match requireSameShape P A F, requested.validateUpdate live with
  | .ok (), .ok () => .update
  | _, _ => .rebuild

end QuadOpt
