/-
# Expressions as text

An expression is written with quadratic terms first, each group in the order of
its variables: `2 x0² - 1 x0 x1 + 1 x1 - 4`.

Key definitions: `termsText`, `LinExpr.text`, `QuadExpr.text`.
-/
import QuadOpt.Decimal.Text
import QuadOpt.Expr.Quadratic

namespace QuadOpt

variable {α : Type} [Scalar α] [ScalarText α]

open ScalarText

/-- A term that others precede. -/
def laterTermText (t : String × α) : String :=
  if t.2 < 0 then s!" - {text .plain (-t.2)} {t.1}" else s!" + {text .plain t.2} {t.1}"

/-- Terms, each with the name of what it is a multiple of, and a constant. A
constant zero is written only if there is nothing else. -/
def termsText (terms : List (String × α)) (constant : α) : String :=
  match terms with
  | [] => text .plain constant
  | t :: ts =>
    (if t.2 < 0 then s!"-{text .plain (-t.2)} {t.1}" else s!"{text .plain t.2} {t.1}")
      ++ String.join (ts.map laterTermText)
      ++ (if 0 < constant then s!" + {text .plain constant}"
        else if constant < 0 then s!" - {text .plain (-constant)}" else "")

/-- The terms in the order of their variables, with names. -/
def LinExpr.namedTerms (e : LinExpr α) : List (String × α) :=
  (e.terms.sorted Variable.le).map fun t => (t.1.text, t.2)

/-- The text of an affine expression. -/
def LinExpr.text (e : LinExpr α) : String := termsText e.namedTerms e.constant

/-- The text of a quadratic expression. -/
def QuadExpr.text (e : QuadExpr α) : String :=
  termsText ((e.quadratic.sorted VarPair.le).map (fun t => (t.1.text, t.2)) ++ e.linear.namedTerms)
    e.linear.constant

end QuadOpt
