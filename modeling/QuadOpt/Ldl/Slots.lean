/-
# Slots of the factor

The columns of the factor share two arrays, and no step of a factorisation in place looks at
where the room of a column ends. Here the same steps are taken with a note of every slot of
these arrays that is read or written, and of the column for which it is used.

Key definitions: `SlotUse`, `Noted`, `LdlArrays.eliminateNoted`, `LdlArrays.rowsNoted`,
`LdlStorage.refactorNoted`.
-/
import QuadOpt.Ldl.Storage

namespace QuadOpt

variable {α : Type} {n : Nat}

/-- How a slot is used. -/
inductive Access where
  | read
  | write
  deriving DecidableEq, Repr

/-- A slot that is used for a column. -/
structure SlotUse (n : Nat) where
  access : Access
  column : Fin n
  slot : Nat
  deriving DecidableEq, Repr

/-- The slots that are written for a column, in order. -/
def SlotUse.writesTo (c : Fin n) (uses : List (SlotUse n)) : List Nat :=
  (uses.filter fun u => u.access = .write ∧ u.column = c).map SlotUse.slot

/-- Steps that may be refused, with the slots that they use. -/
abbrev Noted (n : Nat) := StateT (List (SlotUse n)) Option

namespace Csc

/-- The entries from slot `s` to before slot `t`, which are read for column `c`. -/
def readSlots (M : Csc α) (c : Fin n) (s t : Nat) : Noted n (List (Fin n × α)) := do
  modify (· ++ (List.range' s (t - s)).map (⟨.read, c, ·⟩))
  M.stretch? n s t

/-- Writes an entry of column `c`. -/
def writeSlot (M : Csc α) (c : Fin n) (slot : Nat) (e : Fin n × α) : Noted n (Csc α) := do
  modify (· ++ [⟨.write, c, slot⟩])
  let nzval ← alter? M.nzval slot fun _ => e.2
  let rowval ← alter? M.rowval slot fun _ => e.1.val
  return { M with rowval := rowval, nzval := nzval }

/-- The value at a slot, which is read for column `c`. -/
def readSlot (M : Csc α) (c : Fin n) (slot : Nat) : Noted n α := do
  modify (· ++ [⟨.read, c, slot⟩])
  M.nzval[slot]?

end Csc

namespace LdlArrays

variable [Scalar α]

open Scalar

/-- Eliminates column `c` from row `k`. The entry of `L` is read back for the pivot. -/
def eliminateNoted (k : Fin n) (a : LdlArrays α n) (c : Fin n) : Noted n (LdlArrays α n) := do
  let t := a.work.get c
  let place := a.next.get c
  let first ← a.lower.colptr[c.val]?
  let column ← a.lower.readSlots c first place
  let work := column.foldl (fun y e => y.put e.1 (y.get e.1 - e.2 * t)) a.work
  let lower ← a.lower.writeSlot c place (k, t * a.Dinv.get c)
  let l ← lower.readSlot c place
  return { a with
    lower := lower
    D := a.D.put k (a.D.get k - t * l)
    next := Vec.put a.next c (place + 1)
    work := work.put c 0
    visited := Vec.put a.visited c false }

def reduceNoted (forest : Forest n) (upper : Csc α) (a : LdlArrays α n) (k : Fin n) :
    Noted n (LdlArrays α n) := do
  let entries ← upper.columnBelow? n k
  let (a, count) ← (entries.foldlM (load? forest k) (a, 0) : Option _)
  (a.pending.toList.take count).reverse.foldlM (eliminateNoted k) a

def rowsNoted (forest : Forest n) (upper : Csc α) (a : LdlArrays α n) (positive : Nat) :
    List (Fin n) → Noted n (LdlArrays α n × Except LdlError Nat)
  | [] => return (a, .ok positive)
  | k :: ks => do
    let a ← a.reduceNoted forest upper k
    let pivot := a.D.get k
    if pivot == 0 || !isFinite pivot then return (a, .error (.zeroPivot k))
    else
      rowsNoted forest upper { a with Dinv := a.Dinv.put k (Scalar.recip pivot) }
        (if 0 < pivot then positive + 1 else positive) ks

end LdlArrays

/-- Factors the current values and counts the positive pivots, with the slots that are used. -/
def LdlStorage.refactorNoted [Scalar α] (S : LdlStorage α n) :
    Noted n (LdlStorage α n × Except LdlError Nat) :=
  if S.HasRoom then do
    let starts ← slice? S.lower.colptr 0 n
    let next ← Vec.ofArray? n starts.toArray
    let (a, result) ← LdlArrays.rowsNoted S.forest S.upper (S.begin next) 0 (List.finRange n)
    return ({ S with
      toLdlArrays := a
      positive := match result with
        | .ok positive => positive
        | .error _ => S.positive
      isFactored := result.isOk }, result)
  else failure

end QuadOpt
