/-
# Factorisations in place

The triangle in elimination order and the factor are stored in compressed columns.
The entries of the matrix have recorded places in the triangle, to which new values
are written, and the columns of the factor are filled from their beginnings. Flags,
indices and the row under elimination share a workspace with the solves, and what
one call leaves there the next one finds. Positions outside of the arrays are
refused.

Key definitions: `LdlWorkspace`, `LdlStorage`, `Order.permuteStored?`,
`Order.invert?`, `Csc.permuteGiven?`,
`LdlArrays.climb?`, `LdlArrays.eliminate?`, `LdlArrays.rows?`,
`LdlStorage.analyse`, `LdlStorage.setValues?`, `LdlStorage.refactor?`,
`LdlStorage.solve?`.
-/
import QuadOpt.Ldl.Factorisation
import QuadOpt.Sparse.Placement

namespace QuadOpt

variable {α : Type} {n : Nat}

/-! ### Stored columns -/

namespace Csc

/-- The entries from position `s` to before position `t`, if their rows are below `n`. -/
def stretch? (M : Csc α) (n s t : Nat) : Option (List (Fin n × α)) := do
  let rows ← slice? M.rowval s t
  let values ← slice? M.nzval s t
  (rows.zip values).mapM fun e => if h : e.1 < n then some (⟨e.1, h⟩, e.2) else none

/-- The entries of column `j`, if their rows are below `n`. -/
def columnBelow? (M : Csc α) (n j : Nat) : Option (List (Fin n × α)) := do
  let s ← M.colptr[j]?
  let t ← M.colptr[j + 1]?
  M.stretch? n s t

variable [Scalar α]

/-- The solution of `(I + L) x = b`. -/
def solveLower? (L : Csc α) (b : Vec α n) : Option (Vec α n) :=
  (List.finRange n).foldlM (fun x (i : Fin n) => do
    let column ← L.columnBelow? n i
    let t := x.get i
    return column.foldl (fun x e => x.put e.1 (x.get e.1 - e.2 * t)) x) b

/-- The solution of `(I + L)ᵀ x = b`. -/
def solveLowerTranspose? (L : Csc α) (b : Vec α n) : Option (Vec α n) :=
  (List.finRange n).reverse.foldlM (fun x (i : Fin n) => do
    let column ← L.columnBelow? n i
    return x.put i (x.get i - column.foldl (fun s e => s + e.2 * x.get e.1) 0)) b

end Csc

/-- The upper triangle after the rows and columns of a matrix are put in elimination
order, and the place in it of each entry of the matrix. -/
def Order.permuteStored? [Zero α] (o : Order n) (A : Csc α) : Option (Csc α × Array Nat) := do
  let moved ← A.entries.mapM fun e =>
    if h : e.1 < n ∧ e.2.1 < n then some (o.upperPosition ⟨e.1, h.1⟩ ⟨e.2.1, h.2⟩, e.2.2)
    else none
  let counts ← tally? n (moved.map fun e => e.1.2.val)
  let colptr := pointers counts.toList
  let s ← distribute? colptr (Array.replicate A.nnz (0, 0))
    (moved.map fun e => (e.1.2.val, e.1.1.val, e.2))
  return (⟨n, n, colptr, s.cells.map Prod.fst, s.cells.map Prod.snd⟩, s.places)

/-- Enters the position `e.2` for the index `e.1`, whose cell has to be empty. -/
def Order.enter? (cells : Array (Option Nat)) (e : Nat × Nat) : Option (Array (Option Nat)) :=
  if cells[e.1]? = some none then some (cells.setIfInBounds e.1 (some e.2)) else none

/-- The position of each index in a vector of indices. Nothing, if an index is repeated
or is not below the length of the vector. -/
def Order.invert? (p : Array Nat) : Option (Array Nat) := do
  let cells ← p.toList.zipIdx.foldlM Order.enter? (Array.replicate p.size none)
  return cells.map (·.getD 0)

/-- The upper triangle of a matrix whose rows and columns are put in the positions that
a vector has for them, and the place in it of each entry of the matrix. -/
def Csc.permuteBy? [Zero α] (A : Csc α) (position : Array Nat) : Option (Csc α × Array Nat) := do
  let moved ← A.entries.mapM fun e => do
    let i ← position[e.1]?
    let j ← position[e.2.1]?
    return (max i j, min i j, e.2.2)
  let counts ← tally? A.n (moved.map Prod.fst)
  let colptr := pointers counts.toList
  let s ← distribute? colptr (Array.replicate A.nnz (0, 0)) moved
  return (⟨A.n, A.n, colptr, s.cells.map Prod.fst, s.cells.map Prod.snd⟩, s.places)

/-- The same for a vector that lists the rows in elimination order. Only its own length
says which indices it may list. -/
def Csc.permuteGiven? [Zero α] (A : Csc α) (p : Array Nat) :
    Option (Except LdlError (Csc α × Array Nat)) :=
  match Order.invert? p with
  | none => some (.error .invalidOrder)
  | some position => (A.permuteBy? position).map .ok

/-- Takes in the columns of a stored triangle. -/
def Analysis.runStored? (upper : Csc α) (n : Nat) : Option (Analysis n) :=
  (List.finRange n).foldlM (fun s (j : Fin n) => do
    let column ← upper.columnBelow? n j
    return s.column j (column.map Prod.fst)) (Analysis.start n)

/-! ### The workspace -/

/-- What elimination and solves work in. -/
structure LdlWorkspace (α : Type) (n : Nat) where
  /-- the columns met for the current row -/
  visited : Vector Bool n
  /-- the columns with an entry in the current row -/
  pending : Vector (Fin n) n
  /-- the columns met on the current walk -/
  path : Vector (Fin n) n
  /-- where the next entry of each column of the factor goes -/
  next : Vector Nat n
  /-- what is left of the current row, or a solution in elimination order -/
  work : Vec α n

/-- What elimination writes to. -/
structure LdlArrays (α : Type) (n : Nat) extends LdlWorkspace α n where
  /-- the strict lower triangle `L` -/
  lower : Csc α
  D : Vec α n
  Dinv : Vec α n

namespace LdlArrays

/-- Walks upwards from column `i` to one that is not below `k` or was met before. The
columns on the way are marked, and listed behind the first `length` of the path. -/
def climb? (forest : Forest n) (k i : Fin n) (a : LdlArrays α n) (length : Nat) :
    Option (LdlArrays α n × Nat) :=
  if i < k ∧ a.visited.get i = false then
    if room : length < n then
      let a := { a with
        visited := Vec.put a.visited i true
        path := Vec.put a.path ⟨length, room⟩ i }
      match h : forest.parent.get i with
      | none => some (a, length + 1)
      | some p =>
        have : n - p.val < n - i.val := Nat.sub_lt_sub_left i.isLt (forest.lt_parent i p h)
        climb? forest k p a (length + 1)
    else none
  else some (a, length)
termination_by n - i.val

/-- Lists the first `length` columns of the path behind the `count` pending ones, the
last of them first. -/
def unwind? (a : LdlArrays α n) : Nat → Nat → Option (LdlArrays α n × Nat)
  | 0, count => some (a, count)
  | length + 1, count =>
    if room : length < n ∧ count < n then
      unwind? { a with pending := Vec.put a.pending ⟨count, room.2⟩ (a.path.get ⟨length, room.1⟩) }
        length (count + 1)
    else none

/-- Takes in an entry of column `k` of the upper triangle, and lists the columns that it
reaches behind the `count` pending ones. -/
def load? (forest : Forest n) (k : Fin n) (s : LdlArrays α n × Nat) (e : Fin n × α) :
    Option (LdlArrays α n × Nat) :=
  if e.1 = k then some ({ s.1 with D := s.1.D.put k e.2 }, s.2)
  else do
    let (a, length) ← climb? forest k e.1 { s.1 with work := s.1.work.put e.1 e.2 } 0
    a.unwind? length s.2

variable [Scalar α]

open Scalar

/-- Eliminates column `c` from row `k`, and appends the entry of `L` to the column. -/
def eliminate? (k : Fin n) (a : LdlArrays α n) (c : Fin n) : Option (LdlArrays α n) := do
  let t := a.work.get c
  let place := a.next.get c
  let first ← a.lower.colptr[c.val]?
  let column ← a.lower.stretch? n first place
  let l := t * a.Dinv.get c
  let work := column.foldl (fun y e => y.put e.1 (y.get e.1 - e.2 * t)) a.work
  let nzval ← alter? a.lower.nzval place fun _ => l
  let rowval ← alter? a.lower.rowval place fun _ => k.val
  return { a with
    lower := { a.lower with rowval := rowval, nzval := nzval }
    D := a.D.put k (a.D.get k - t * l)
    next := Vec.put a.next c (place + 1)
    work := work.put c 0
    visited := Vec.put a.visited c false }

/-- Takes in column `k` of the triangle and eliminates the columns that it reaches, the
last one that was listed first. -/
def reduce? (forest : Forest n) (upper : Csc α) (a : LdlArrays α n) (k : Fin n) :
    Option (LdlArrays α n) := do
  let entries ← upper.columnBelow? n k
  let (a, count) ← entries.foldlM (load? forest k) (a, 0)
  (a.pending.toList.take count).reverse.foldlM (eliminate? k) a

/-- The arrays when elimination starts, with cursors at the beginnings of the columns.
The indices are what they were. -/
def begin (a : LdlArrays α n) (next : Vector Nat n) : LdlArrays α n :=
  { a with visited := Vector.replicate n false, work := .fill n 0, D := .fill n 0, next := next }

/-- Eliminates the rows in turn, up to one without a pivot. With all of them comes the
number of positive pivots. -/
def rows? (forest : Forest n) (upper : Csc α) (a : LdlArrays α n) (positive : Nat) :
    List (Fin n) → Option (LdlArrays α n × Except LdlError Nat)
  | [] => some (a, .ok positive)
  | k :: ks => do
    let a ← a.reduce? forest upper k
    let pivot := a.D.get k
    if pivot == 0 || !isFinite pivot then return (a, .error (.zeroPivot k))
    else
      rows? forest upper { a with Dinv := a.Dinv.put k (Scalar.recip pivot) }
        (if 0 < pivot then positive + 1 else positive) ks

end LdlArrays

/-! ### The object -/

/-- A symmetric matrix with its analysis and its factors, in arrays that are written in
place. -/
structure LdlStorage (α : Type) (n : Nat) extends LdlArrays α n where
  /-- the elimination order as it was given -/
  givenOrder : Array Nat
  order : Order n
  /-- the upper triangle in elimination order -/
  upper : Csc α
  /-- the place in the triangle of each entry of the matrix -/
  places : Array Nat
  forest : Forest n
  /-- the number of entries in each column of the factor -/
  counts : Vector Nat n
  /-- the number of positive pivots of the latest complete factorisation -/
  positive : Nat
  /-- the factors are those of the current values -/
  isFactored : Bool

namespace LdlStorage

variable [Scalar α]

/-- The analysis of a matrix in a given order, with room for the factor. -/
def lay? (A : Csc α) (given : Array Nat) (o : Order n) (W : LdlWorkspace α n) :
    Option (LdlStorage α n) := do
  let (upper, places) ← o.permuteStored? A
  let analysis ← Analysis.runStored? upper n
  let colptr := pointers analysis.counts.toList
  let nnz ← colptr[n]?
  return {
    toLdlWorkspace := W
    lower := ⟨n, n, colptr, Array.replicate nnz 0, Array.replicate nnz 0⟩
    D := .fill n 0
    Dinv := .fill n 0
    givenOrder := given
    order := o
    upper := upper
    places := places
    forest := analysis.forest
    counts := analysis.counts
    positive := 0
    isFactored := false }

/-- Analyses the symmetric `n × n` matrix with the upper triangle `A` for a given
elimination order, or in the order of its rows. The workspace `W` may hold anything. -/
def analyse (A : Csc α) (n : Nat) (order : Option (Array Nat)) (W : LdlWorkspace α n) :
    Except LdlError (LdlStorage α n) := do
  Ldl.requireUpper A n
  let given := order.getD (Array.range n)
  let o ← Order.ofArray n given
  (lay? A given o W).elim (.error .unreadable) .ok

/-- Writes new values, which are given in the order of the matrix that was analysed, to
their places in the triangle. -/
def setValues? (S : LdlStorage α n) (values : Array α) : Option (LdlStorage α n) :=
  if values.size = S.places.size then do
    let nzval ← overwrite? S.upper.nzval (S.places.toList.zip values.toList)
    return { S with upper := { S.upper with nzval := nzval }, isFactored := false }
  else none

/-- There is room in the columns of the factor for the entries that were counted. -/
def HasRoom (S : LdlStorage α n) : Prop :=
  ∀ c : Fin n, S.lower.start (c.val + 1) = S.lower.start c.val + S.counts.get c

instance (S : LdlStorage α n) : Decidable S.HasRoom := inferInstanceAs (Decidable (∀ _, _))

/-- Factors the current values and counts the positive pivots. -/
def refactor? (S : LdlStorage α n) : Option (LdlStorage α n × Except LdlError Nat) :=
  if S.HasRoom then do
    let starts ← slice? S.lower.colptr 0 n
    let next ← Vec.ofArray? n starts.toArray
    let (a, result) ← LdlArrays.rows? S.forest S.upper (S.begin next) 0 (List.finRange n)
    return ({ S with
      toLdlArrays := a
      positive := match result with
        | .ok positive => positive
        | .error _ => S.positive
      isFactored := result.isOk }, result)
  else none

/-- The solution of `S x = b`, if the current values are factored. The solution in
elimination order stays in the workspace. -/
def solve? (S : LdlStorage α n) (b : Vec α n) : Option (LdlStorage α n × Vec α n) :=
  if S.isFactored then do
    let x : Vec α n := Vector.ofFn fun k => b.get (S.order.perm.get k)
    let x ← S.lower.solveLower? x
    let x ← S.lower.solveLowerTranspose? (x.hadamard S.Dinv)
    return ({ S with work := x }, Vector.ofFn fun i => x.get (S.order.position.get i))
  else none

end LdlStorage
end QuadOpt
