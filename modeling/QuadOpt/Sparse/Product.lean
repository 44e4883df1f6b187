/-
# Products with a vector

`a M x + b y` for a sparse matrix, for its transpose, and for the symmetric
matrix of which the upper triangle is stored. The contributions are added
entry by entry in storage order, so the products of one matrix always round
the same way.

Key definitions: `Csc.mulVecAdd`, `Csc.transposeMulVecAdd`, `Csc.symMulVecAdd`.
-/
import QuadOpt.Sparse.Csc

namespace QuadOpt

variable {α : Type} [Scalar α] {m n : Nat}

/-- `b y`; the factors zero and one are exact whatever the entries are. -/
def Vec.timesWeight (b : α) (y : Vec α n) : Vec α n :=
  if b == 0 then .fill n 0 else if b == 1 then y else y.scale b

namespace Csc

/-- `a M x + b y`. A factor `a` of zero adds nothing. -/
def mulVecAdd (M : Csc α) (a : α) (x : Vec α n) (b : α) (y : Vec α m) : Vec α m :=
  let y := y.timesWeight b
  if a == 0 then y
  else M.entries.foldl (fun y e => y.addAt e.1 (a * e.2.2 * x.coord e.2.1)) y

/-- The dot product of column `j` with `x`. -/
def columnDot (M : Csc α) (x : Vec α m) (j : Nat) : α :=
  (M.column j).foldl (fun s e => s + e.2 * x.coord e.1) 0

/-- `a Mᵀ x + b y`, one dot product for each column. A factor `a` of zero adds
nothing. -/
def transposeMulVecAdd (M : Csc α) (a : α) (x : Vec α m) (b : α) (y : Vec α n) : Vec α n :=
  let y := y.timesWeight b
  if a == 0 then y
  else Vector.ofFn fun j => y.get j + a * M.columnDot x j

/-- `a S x + b y` for the symmetric `S` whose upper triangle is stored. An
entry off the diagonal stands for two. -/
def symMulVecAdd (M : Csc α) (a : α) (x : Vec α n) (b : α) (y : Vec α n) : Vec α n :=
  M.entries.foldl (fun y e =>
    let y := y.addAt e.1 (a * e.2.2 * x.coord e.2.1)
    if e.1 = e.2.1 then y else y.addAt e.2.1 (a * e.2.2 * x.coord e.1)) (y.timesWeight b)

/-- `M x`. -/
def mulVec (M : Csc α) (m : Nat) (x : Vec α n) : Vec α m :=
  M.mulVecAdd 1 x 0 (.fill m 0)

/-- `Mᵀ x`. -/
def transposeMulVec (M : Csc α) (n : Nat) (x : Vec α m) : Vec α n :=
  M.transposeMulVecAdd 1 x 0 (.fill n 0)

/-- `S x` for the symmetric `S` whose upper triangle is stored. -/
def symMulVec (M : Csc α) (x : Vec α n) : Vec α n :=
  M.symMulVecAdd 1 x 0 (.fill n 0)

end Csc
end QuadOpt
