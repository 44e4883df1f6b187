/-
# Limits of the operator splitting solver

Key definitions: `Limits.infinity`, `Limits.infiniteBound`, `Limits.minScaling`,
`Limits.minRho`.
-/
import QuadOpt.Scalar

namespace QuadOpt.Limits

variable {α : Type} [Scalar α]

/-- Bounds are moved to this magnitude if they are larger. -/
def infinity : α := 1e30

/-- Norms below this are not scaled. -/
def minScaling : α := 1e-4

/-- Norms above this are scaled as if they were this large. -/
def maxScaling : α := 1e4

/-- A scaled bound beyond this magnitude excludes nothing. -/
def infiniteBound : α := infinity * minScaling

/-- The least step size, which is that of a constraint without bounds. -/
def minRho : α := 1e-6

/-- The largest step size. -/
def maxRho : α := 1e6

/-- The step size of an equality, in terms of that of an inequality. -/
def equalityFactor : α := 1e3

/-- Bounds closer to each other than this make an equality. -/
def equalityWidth : α := 1e-4

/-- What is added to a denominator that may vanish, and a residual that is
always good enough. -/
def tiny : α := 1e-10

/-- Tolerances are relaxed by this factor when the limits are reached. -/
def approximateFactor : α := 10.0

end QuadOpt.Limits
