/-
# Numeric factorisation

`S = (I + L) D (I + L)ᵀ` for a symmetric `S` of which the upper triangle is
known column by column. Row `k` of `L` solves a triangular system with the rows
before it: its unknowns are the columns that the forest reaches from column `k`
of the triangle, and each is eliminated from those that follow.

Key definitions: `Factors`, `Factors.eliminate`, `Factors.row`,
`Factors.compute`.
-/
import QuadOpt.Ldl.Forest

namespace QuadOpt

variable {α : Type} [Scalar α] {n : Nat}

open Scalar

/-- The factors of the rows that have been eliminated. -/
structure Factors (α : Type) (n : Nat) where
  /-- the columns of the strict lower triangle `L`, each in order of its rows -/
  lower : Vector (List (Fin n × α)) n
  /-- the pivots -/
  D : Vec α n
  /-- the reciprocals of the pivots -/
  Dinv : Vec α n
  /-- the number of positive pivots -/
  positive : Nat
  /-- what is left of the row under elimination; zero between two rows -/
  rest : Vec α n

namespace Factors

/-- No row has been eliminated. -/
def start (α : Type) [Scalar α] (n : Nat) : Factors α n :=
  ⟨Vector.replicate n [], .fill n 0, .fill n 0, 0, .fill n 0⟩

/-- Takes in an entry of column `k` of the upper triangle, which is the pivot so
far if it is on the diagonal. -/
def load (k : Fin n) : Factors α n → Fin n × α → Factors α n
  | ⟨lower, D, Dinv, positive, rest⟩, e =>
    if e.1 = k then ⟨lower, D.put k e.2, Dinv, positive, rest⟩
    else ⟨lower, D, Dinv, positive, rest.put e.1 e.2⟩

/-- Eliminates column `c` from row `k`, which gives the entry of `L` there. -/
def eliminate (k : Fin n) : Factors α n → Fin n → Factors α n
  | ⟨lower, D, Dinv, positive, rest⟩, c =>
    let t := rest.get c
    let column := lower.get c
    let l := t * Dinv.get c
    let pivot := D.get k - t * l
    let rest := column.foldl (fun y e => y.put e.1 (y.get e.1 - e.2 * t)) rest
    ⟨Vec.put lower c (column ++ [(k, l)]), D.put k pivot, Dinv, positive, rest.put c 0⟩

/-- Takes in the pivot of row `k`, unless it is zero or not finite. -/
def accept (k : Fin n) : Factors α n → Except (Fin n × Factors α n) (Factors α n)
  | ⟨lower, D, Dinv, positive, rest⟩ =>
    let pivot := D.get k
    if pivot == 0 || !isFinite pivot then .error (k, ⟨lower, D, Dinv, positive, rest⟩)
    else .ok ⟨lower, D, Dinv.put k (Scalar.recip pivot),
      if 0 < pivot then positive + 1 else positive, rest⟩

/-- The factors with row `k` eliminated, or with what was computed of it if it
has no pivot. -/
def row (forest : Forest n) (upper : Vector (List (Fin n × α)) n) (F : Factors α n) (k : Fin n) :
    Except (Fin n × Factors α n) (Factors α n) :=
  let entries := upper.get k
  ((forest.rowPattern k (entries.map Prod.fst)).foldl (eliminate k)
    (entries.foldl (load k) F)).accept k

/-- The factors of a symmetric matrix, or the row without a pivot and the
factors up to it. -/
def compute (forest : Forest n) (upper : Vector (List (Fin n × α)) n) :
    Except (Fin n × Factors α n) (Factors α n) :=
  (List.finRange n).foldlM (row forest upper) (start α n)

end Factors

/-! ### Triangular solves -/

/-- The solution of `(I + L) x = b`. -/
def solveLower (lower : Vector (List (Fin n × α)) n) (b : Vec α n) : Vec α n :=
  (List.finRange n).foldl (fun x i =>
    let t := x.get i
    (lower.get i).foldl (fun x e => x.put e.1 (x.get e.1 - e.2 * t)) x) b

/-- The solution of `(I + L)ᵀ x = b`. -/
def solveLowerTranspose (lower : Vector (List (Fin n × α)) n) (b : Vec α n) : Vec α n :=
  (List.finRange n).reverse.foldl (fun x (i : Fin n) =>
    x.put i (x.get i - (lower.get i).foldl (fun s e => s + e.2 * x.get e.1) 0)) b

end QuadOpt
