/-
# Contradictions that sorting meets

Quicksort by a comparison that is not an order may still end, with the elements
in some arrangement, or may notice a contradiction. It notices one only in the
parts that are short enough to be sorted by halves, so what it notices depends
on how the elements are split up: on the choice of the pivots, and on the
arrangement in which a split leaves the elements of either side.

Key definitions: `Sorting.pivot`, `Sorting.split`, `Sorting.quickConsistent`,
`Sorting.consistent`.
-/
import QuadOpt.Sorting.Halves

namespace QuadOpt.Sorting

variable {α : Type} (lt : α → α → Bool)

/-- The one of three positions whose element is between the others. -/
def middle (less : Nat → Nat → Bool) (a b c : Nat) : Nat :=
  if less a b == less a c then
    if less b c == less a b then b else c
  else a

/-- A position among the `n` that start at `i` whose element is about in the
middle: the middle of three, each the middle of three in turn if there are many. -/
def pivot (less : Nat → Nat → Bool) (i n : Nat) : Nat :=
  let k := n / 8
  if 8 ≤ k then
    middle less (pivot less i k) (pivot less (i + 4 * k) k) (pivot less (i + 7 * k) k)
  else middle less i (i + 4 * k) (i + 7 * k)
termination_by n

/-- Brings the elements that pass a test to the front, and counts them. Each
element in turn changes places with the first one before it that failed. -/
def gather (test : α → Bool) (v : Array α) : Array α × Nat :=
  (List.range v.size).foldl (fun (w, k) j =>
    let passes := w[j]?.any test
    (w.swapIfInBounds k j, if passes then k + 1 else k)) (v, 0)

/-- The elements other than the one at `p`: those that pass a test, and those that
do not. The first element takes the place of the one at `p`, then the first of
those that are left is gathered last, and the last one that passes goes ahead of
the others. -/
def split (test : α → Bool) (v : Array α) (p : Nat) : Array α × Array α :=
  let rest := v.swapIfInBounds 0 p
  let (w, k) := gather test (rest.extract 2 rest.size ++ rest.extract 1 2)
  (w.extract (k - 1) k ++ w.extract 0 (k - 1), w.extract k w.size)

/-- Whether quicksort meets no contradiction. Parts of up to 32 elements are
sorted by halves, and a part that is left after `limit` splits in a row is sorted
in a way that notices nothing. No element is below `floor`: if the pivot is not
above it either, only the elements above the pivot are left to sort. -/
def quickConsistent : Nat → Option α → Array α → Bool
  | 0, _, v => 32 < v.size || halvesMeet lt v.toList
  | limit + 1, floor, v =>
    if v.size ≤ 32 then halvesMeet lt v.toList
    else
      let p := pivot (fun i j => v[i]?.any fun x => v[j]?.any (lt x)) 0 v.size
      match v[p]? with
      | none => true
      | some x =>
        if floor.any fun f => !lt f x then
          quickConsistent limit none (split (fun y => !lt x y) v p).2
        else
          let (left, right) := split (fun y => lt y x) v p
          quickConsistent limit floor left && quickConsistent limit (some x) right

/-- Whether a list ascends throughout, or strictly descends throughout. -/
def isRun (xs : List α) : Bool :=
  let steps := xs.zip xs.tail
  steps.all (fun s => lt s.2 s.1) || steps.all (fun s => !lt s.2 s.1)

/-- Whether sorting meets no contradiction. Up to 20 elements are sorted by
insertion alone, which notices none, and a run needs no sorting. -/
def consistent (xs : List α) : Bool :=
  xs.length ≤ 20 || isRun lt xs ||
    quickConsistent lt (2 * Nat.log2 xs.length) none xs.toArray

end QuadOpt.Sorting
