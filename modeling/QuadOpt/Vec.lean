/-
# Vectors

Vectors of a fixed length, with the in-place and reducing kernels that the
solver is built from. The length is part of the type, so an operation on two
vectors needs no length check; `Vec.ofArray?` is where a list of numbers from
outside is given a length, or refused.

Key definitions: `Vec`, `Vec.ofArray?`, `Vec.put`, `Vec.combine`, `Vec.dot`,
`Vec.normInf`, `Vec.addAt`, `Vec.top`, `Vec.bottom`.
-/
import QuadOpt.Scalar

namespace QuadOpt

/-- A vector of `n` numbers. -/
abbrev Vec (α : Type) (n : Nat) := Vector α n

namespace Vec

variable {α : Type} [Scalar α] {n k : Nat}

open Scalar

/-- The numbers of `a` as a vector of length `n`, if there are `n` of them. -/
def ofArray? {β : Type} (n : Nat) (a : Array β) : Option (Vector β n) :=
  if h : a.size = n then some ⟨a, h⟩ else none

/-- Every entry is `c`. -/
def fill (n : Nat) (c : α) : Vec α n := Vector.replicate n c

/-- The entry at position `i`, and zero outside of the vector. -/
def coord (v : Vec α n) (i : Nat) : α := v[i]?.getD 0

/-- The vector with `x` at position `i`. -/
def put {β : Type} (v : Vec β n) (i : Fin n) (x : β) : Vec β n := v.set i x i.isLt

theorem get_eq_getElem {β : Type} (v : Vector β n) (i : Fin n) :
    v.get i = getElem v i.val i.isLt := rfl

@[simp] theorem get_ofFn {β : Type} (f : Fin n → β) (i : Fin n) :
    (Vector.ofFn f).get i = f i := by
  simp [get_eq_getElem]

@[simp] theorem get_replicate {β : Type} (x : β) (i : Fin n) :
    (Vector.replicate n x).get i = x := by
  simp [get_eq_getElem]

@[simp] theorem get_put {β : Type} (v : Vector β n) (i : Fin n) (x : β) :
    (put v i x).get i = x := by
  simp [get_eq_getElem, put]

theorem get_put_ne {β : Type} (v : Vector β n) {i j : Fin n} (h : i ≠ j) (x : β) :
    (put v i x).get j = v.get j := by
  have : i.val ≠ j.val := fun e => h (Fin.ext e)
  simp [get_eq_getElem, put, Vector.getElem_set_ne _ _ this]

/-- Adds `t` to the entry at position `i`; a position outside of the vector is
ignored. -/
def addAt (v : Vec α n) (i : Nat) (t : α) : Vec α n :=
  if h : i < n then v.set i (v[i] + t) else v

/-- The first `n` entries. -/
def top (v : Vec α (n + k)) : Vec α n := Vector.ofFn fun j => v.get (j.castAdd k)

/-- The entries after the first `n`. -/
def bottom (v : Vec α (n + k)) : Vec α k := Vector.ofFn fun i => v.get (i.natAdd n)

/-- Entries `xᵢ c`. -/
def scale (v : Vec α n) (c : α) : Vec α n := v.map fun x => x * c

/-- Entries `1 / xᵢ`. -/
def recip (v : Vec α n) : Vec α n := v.map Scalar.recip

/-- Entries `-xᵢ`. -/
def negate (v : Vec α n) : Vec α n := v.map fun x => -x

/-- Entries `xᵢ²`. -/
def square (v : Vec α n) : Vec α n := v.map fun x => x * x

/-- Entries `xᵢ yᵢ`. Where `w` is the shorter of the two, the entries of `v`
beyond its end are kept. -/
def hadamard (v : Vec α n) (w : Vec α k) : Vec α n :=
  Vector.ofFn fun i => if h : i.val < k then v.get i * w[i.val] else v.get i

/-- Entries of `v` moved into the intervals `[lᵢ, uᵢ]`; where an interval is
empty the upper end wins. -/
def clip (v l u : Vec α n) : Vec α n :=
  Vector.ofFn fun i => minNum (maxNum (v.get i) (l.get i)) (u.get i)

/-- Entries `a xᵢ + b yᵢ`. -/
def combine (a : α) (x : Vec α n) (b : α) (y : Vec α n) : Vec α n :=
  Vector.ofFn fun i => a * x.get i + b * y.get i

/-- The sum of the products `xᵢ yᵢ`, from the first position both vectors have
to the last. -/
def dot (v : Vec α n) (w : Vec α k) : α :=
  (v.toList.zip w.toList).foldl (fun s p => s + p.1 * p.2) 0

/-- The largest magnitude of an entry, zero for the empty vector, and NaN if
there is a NaN among the entries. -/
def normInf (v : Vec α n) : α :=
  if v.toList.any isNaN then nan else v.toList.foldl (fun m x => maxNum m (abs x)) 0

/-- The largest magnitude of a product `xᵢ wᵢ`. Unlike in `normInf`, a product
that is NaN is passed over. -/
def normInfWeighted (v w : Vec α n) : α :=
  (v.toList.zip w.toList).foldl (fun m p => maxNum m (abs (p.1 * p.2))) 0

/-- The arithmetic mean, zero for the empty vector. -/
def mean (v : Vec α n) : α :=
  if n = 0 then 0 else v.toList.foldl (· + ·) 0 / ofCount n

/-- No entry is infinite or NaN. -/
def allFinite (v : Vec α n) : Bool := v.toList.all isFinite

end Vec
end QuadOpt
