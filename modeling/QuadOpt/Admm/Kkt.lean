/-
# The matrix of optimality conditions

Each iteration solves a system with the symmetric matrix

    [ P + δ₁ I      Aᵀ      ]
    [     A     -diag(δ₂)   ]

of which the upper triangle is assembled once, as a matrix of `KktEntry`: what
each stored entry is made of. New values of `P`, `A`, `δ₁` and `δ₂` are then
filled into the same pattern.

Key definitions: `KktEntry`, `kktColumns`, `assembleKkt`, `fillKkt`.
-/
import QuadOpt.Sparse.Csc
import QuadOpt.Sparse.Grouping

namespace QuadOpt

/-- What an entry of the matrix of optimality conditions is made of. -/
inductive KktEntry where
  /-- entry `k` of `P`, off the diagonal -/
  | hessian (k : Nat)
  /-- entry `k` of `P`, on the diagonal, to which `δ₁` is added -/
  | hessianDiagonal (k : Nat)
  /-- `δ₁` on a diagonal position that `P` does not store -/
  | shift
  /-- entry `k` of `A` -/
  | constraint (k : Nat)
  /-- `-δ₂` of constraint `i` -/
  | dual (i : Nat)
  deriving DecidableEq, Repr, Inhabited

/-- The matrix whose columns hold the given rows and values. -/
def Csc.ofColumns {β : Type} (m : Nat) (columns : List (List (Nat × β))) : Csc β where
  m := m
  n := columns.length
  colptr := pointers (columns.map List.length)
  rowval := (columns.flatten.map Prod.fst).toArray
  nzval := (columns.flatten.map Prod.snd).toArray

variable {α : Type}

/-- Column `j` of the matrix, which is one of `P` with its diagonal present. The
diagonal comes last, since `P` is upper triangular. -/
def hessianColumn (P : Csc α) (j : Nat) : List (Nat × KktEntry) :=
  let stored := (P.rows j).zipIdx (P.start j)
  stored.map (fun e => (e.1, if e.1 = j then .hessianDiagonal e.2 else .hessian e.2))
    ++ if (P.rows j).getLast? = some j then [] else [(j, .shift)]

/-- The positions of each row of `A` in storage order, with their columns. -/
def Csc.rowSlots (A : Csc α) (m : Nat) : Vector (List (Nat × Nat)) m :=
  group m (fun s => A.rowval.getD s.1 0) A.slots

/-- Column `n + i` of the matrix: row `i` of `A`, which is stored in the given
positions, and the diagonal. -/
def constraintColumn (n i : Nat) (row : List (Nat × Nat)) : List (Nat × KktEntry) :=
  row.map (fun s => (s.2, .constraint s.1)) ++ [(n + i, .dual i)]

/-- The columns of the matrix for `n` variables and `m` constraints. -/
def kktColumns (n m : Nat) (P A : Csc α) : List (List (Nat × KktEntry)) :=
  (List.range n).map (hessianColumn P) ++
    (A.rowSlots m).toList.zipIdx.map fun row => constraintColumn n row.2 row.1

/-- The pattern of the matrix for `n` variables and `m` constraints. -/
def assembleKkt (n m : Nat) (P A : Csc α) : Csc KktEntry :=
  .ofColumns (n + m) (kktColumns n m P A)

variable [Scalar α] {m : Nat}

/-- The value of an entry. -/
def KktEntry.value (P A : Csc α) (δ₁ : α) (δ₂ : Vec α m) : KktEntry → α
  | .hessian k => P.nzval.getD k 0
  | .hessianDiagonal k => δ₁ + P.nzval.getD k 0
  | .shift => δ₁
  | .constraint k => A.nzval.getD k 0
  | .dual i => -δ₂.coord i

/-- The matrix with the given values. -/
def fillKkt (K : Csc KktEntry) (P A : Csc α) (δ₁ : α) (δ₂ : Vec α m) : Csc α where
  m := K.m
  n := K.n
  colptr := K.colptr
  rowval := K.rowval
  nzval := K.nzval.map (KktEntry.value P A δ₁ δ₂)

end QuadOpt
