/-
# Operations on unchecked matrices

The arrays of a `Csc` may contradict each other. The operations here give a
result exactly when everything they read lies inside of the arrays, and agree
with their unchecked namesakes then.

Key definitions: `Csc.validate?`, `Csc.readable`, `Csc.entries?`, `Csc.lookup?`,
`Csc.mulVecAdd?`, `Csc.scaleSides?`.
-/
import QuadOpt.Sparse.Placement
import QuadOpt.Sparse.Product
import QuadOpt.Sparse.Scaling

namespace QuadOpt.Csc

variable {α : Type}

/-- The first fault among the rows of a column. Each is compared with the next one,
and their range shows in the last of them. -/
def rowsFault (m : Nat) (rows : List Nat) : Option FormatError :=
  if rows.getLast?.any (m ≤ ·) then some .rowRange
  else if (rows.zip rows.tail).any (fun r => r.2 ≤ r.1) then some .rowOrder
  else none

/-- The first fault of the columns that lie between the given pairs of pointers. -/
def columnsFault? (A : Csc α) : List (Nat × Nat) → Option (Option FormatError)
  | [] => some none
  | c :: rest => do
    let rows ← slice? A.rowval c.1 c.2
    match rowsFault A.m rows with
    | some e => return some e
    | none => columnsFault? A rest

/-- The first fault of a matrix. Only what earlier checks have shown makes later reads
lie inside of the arrays. -/
def validate? (A : Csc α) : Option (Except FormatError Unit) :=
  if A.colptr.size ≠ (A.n + 1) % wordSize ∨ A.rowval.size ≠ A.nzval.size then
    some (.error .dimensions)
  else do
    let last ← A.colptr[A.n]?
    if last ≠ A.rowval.size then return .error .dimensions
    let first ← A.colptr[0]?
    let pointers := A.colptr.toList.zip A.colptr.toList.tail
    if first ≠ 0 ∨ pointers.any (fun c => c.2 < c.1) then return .error .columnPointers
    match ← A.columnsFault? pointers with
    | some e => return .error e
    | none => return .ok ()

/-- Column `j` has pointers in order, to positions that hold a row. -/
def rowsReadable (A : Csc α) (j : Nat) : Bool :=
  j + 1 < A.colptr.size && A.start j ≤ A.start (j + 1) && A.start (j + 1) ≤ A.rowval.size

/-- Column `j` has pointers in order, to positions that hold a row and a value. -/
def readable (A : Csc α) (j : Nat) : Bool :=
  A.rowsReadable j && A.start (j + 1) ≤ A.nzval.size

/-- There is a pointer to each column, and to the end of the last. -/
def hasPointers (A : Csc α) : Bool := A.n ≤ A.colptr.size - 1

/-- All columns are readable. -/
def allReadable (A : Csc α) : Bool := A.hasPointers && (List.range A.n).all A.readable

/-- All rows stored in columns are below `m`. -/
def rowsBelow (A : Csc α) (m : Nat) : Bool :=
  (List.range A.n).all fun j => (A.rows j).all (· < m)

/-- The number of stored entries. -/
def nnz? (A : Csc α) : Option Nat := A.colptr[A.n]?

/-- Whether no entry is stored below the diagonal. The columns are looked at in
turn, as many as there are pointers for, up to the first with such an entry. -/
def isUpper? (A : Csc α) : Option Bool :=
  (List.range (A.colptr.size - 1)).allM fun j =>
    if A.rowsReadable j then some ((A.rows j).all (· ≤ j)) else none

/-- All stored entries. A column whose pointers are out of order has none. -/
def entries? (A : Csc α) : Option (List (Nat × Nat × α)) :=
  if A.hasPointers && (List.range A.n).all fun j =>
      A.start (j + 1) ≤ A.start j || A.readable j then
    some A.entries
  else none

/-- The position that halving the range from `base` leads to in search of `i`. -/
def halving (rows : List Nat) (i base size : Nat) : Nat :=
  if size ≤ 1 then base
  else
    let mid := base + size / 2
    halving rows i (if i < rows.getD mid 0 then base else mid) (size - size / 2)
termination_by size
decreasing_by omega

/-- The value stored at row `i` of column `j`, found by halving, which finds
every stored row where the rows increase. Positions outside of the matrix are
refused. -/
def lookup? (A : Csc α) (i j : Nat) : Option (Option α) :=
  if i < A.m ∧ j < A.n ∧ A.rowsReadable j then
    let k := halving (A.rows j) i 0 (A.rows j).length
    if (A.rows j)[k]? = some i then (A.nzval[A.start j + k]?).map some else some none
  else none

variable [Scalar α]

/-- `a M x + b y`. -/
def mulVecAdd? (M : Csc α) (a : α) (x : Vec α M.n) (b : α) (y : Vec α M.m) :
    Option (Vec α M.m) :=
  if a == 0 || (M.allReadable && M.rowsBelow M.m) then some (M.mulVecAdd a x b y) else none

/-- `a Mᵀ x + b y`. -/
def transposeMulVecAdd? (M : Csc α) (a : α) (x : Vec α M.m) (b : α) (y : Vec α M.n) :
    Option (Vec α M.n) :=
  if a == 0 || (M.allReadable && M.rowsBelow M.m) then some (M.transposeMulVecAdd a x b y)
  else none

/-- `a S x + b y` for the symmetric `S` whose upper triangle is stored. -/
def symMulVecAdd? (M : Csc α) (a : α) (x : Vec α M.n) (b : α) (y : Vec α M.n) :
    Option (Vec α M.n) :=
  if M.m == M.n && M.allReadable && M.rowsBelow M.n then some (M.symMulVecAdd a x b y) else none

/-- Column norms on top of `norms`. -/
def raiseColNorms? (M : Csc α) (norms : Vec α M.n) : Option (Vec α M.n) :=
  if M.allReadable then some (M.raiseColNorms norms) else none

/-- Column norms of the symmetric matrix on top of `norms`. -/
def raiseSymNorms? (M : Csc α) (norms : Vec α M.n) : Option (Vec α M.n) :=
  if M.entries?.isSome && M.rowsBelow M.n then some (M.raiseSymNorms norms) else none

/-- Row norms on top of `norms`. -/
def raiseRowNorms? (M : Csc α) (norms : Vec α M.m) : Option (Vec α M.m) :=
  if (M.rowval.toList.take M.nzval.size).all (· < M.m) then some (M.raiseRowNorms norms)
  else none

/-- `diag(l) M diag(r)`, and whether the end was reached: the entries before
the first that cannot be read are scaled in any case. -/
def scaleSides? (M : Csc α) (l : Vec α M.m) (r : Vec α M.n) : Csc α × Bool :=
  let columns := (List.range M.n).takeWhile M.readable
  let slots := columns.flatMap fun j =>
    (List.range' (M.start j) (M.start (j + 1) - M.start j)).map fun k => (k, j)
  let inside := slots.takeWhile fun s => M.rowval.getD s.1 0 < M.m
  ({ M with nzval := M.scaledValues l r inside },
    columns.length == M.n && inside.length == slots.length)

end QuadOpt.Csc
