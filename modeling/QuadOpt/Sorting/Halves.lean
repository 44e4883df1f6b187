/-
# Sorting a short list in two halves

A short list is sorted by sorting its halves and merging them from both ends at
once: half of the merge is taken from the front and half from the back. If the
comparison is an order, the two ends meet and every element is used once. A
comparison that contradicts itself, as one that finds a NaN equal to all numbers
does, can make the ends pass each other, and this is how the contradiction is
noticed.

Key definitions: `Sorting.arrangeFour`, `Sorting.arrange`, `Sorting.countFront`,
`Sorting.endsMeet`, `Sorting.halvesMeet`.
Key theorems: `Sorting.arrange_perm`.
-/

namespace QuadOpt.Sorting

variable {α : Type} (lt : α → α → Bool)

/-- Puts an element into a descending list, in front of the first element that
it is not below. -/
def insertDown (x : α) : List α → List α
  | [] => [x]
  | y :: ys => if lt x y then y :: insertDown x ys else x :: y :: ys

/-- Two elements in ascending order. -/
def arrangeTwo (x y : α) : List α := if lt y x then [y, x] else [x, y]

/-- The merge of two ascending pairs: the ends first, then what is left. -/
def mergePairs (a b c d : α) : List α :=
  match lt c a, lt d b with
  | false, false => a :: arrangeTwo lt b c ++ [d]
  | false, true => a :: arrangeTwo lt c d ++ [b]
  | true, false => c :: arrangeTwo lt a b ++ [d]
  | true, true => c :: arrangeTwo lt a d ++ [b]

/-- Four elements in ascending order, by five comparisons. -/
def arrangeFour (p q r s : α) : List α :=
  match lt q p, lt s r with
  | false, false => mergePairs lt p q r s
  | false, true => mergePairs lt p q s r
  | true, false => mergePairs lt q p r s
  | true, true => mergePairs lt q p s r

/-- A list in ascending order: each element is inserted among those before it.
If `byFour` is set, the first four are arranged together. -/
def arrange (byFour : Bool) (xs : List α) : List α :=
  match byFour, xs with
  | true, p :: q :: r :: s :: rest =>
    (rest.foldl (fun sorted x => insertDown lt x sorted) (arrangeFour lt p q r s).reverse).reverse
  | _, xs => (xs.foldl (fun sorted x => insertDown lt x sorted) []).reverse

/-- How many of the first `k` elements of a merge come from its first list, which
goes first among equals. -/
def countFront : Nat → List α → List α → Nat
  | k + 1, x :: xs, y :: ys =>
    if lt y x then countFront k (x :: xs) ys else countFront k xs (y :: ys) + 1
  | k, xs, [] => min k xs.length
  | _, _, _ => 0

/-- Whether the merge of two ascending lists uses every element once if one half
of it is taken from the front and the other from the back. If the number of
elements is odd, one is left between the ends. -/
def endsMeet (xs ys : List α) : Bool :=
  let n := xs.length + ys.length
  let front := countFront lt (n / 2) xs ys
  let back := n / 2 - countFront (fun a b => lt b a) (n / 2) ys.reverse xs.reverse
  front + back == xs.length || (n % 2 == 1 && front + back + 1 == xs.length)

/-- Whether a list is sorted by its halves without a contradiction. -/
def halvesMeet (xs : List α) : Bool :=
  let byFour : Bool := 8 ≤ xs.length
  endsMeet lt (arrange lt byFour (xs.take (xs.length / 2)))
    (arrange lt byFour (xs.drop (xs.length / 2)))

theorem insertDown_perm (x : α) (ys : List α) : (insertDown lt x ys).Perm (x :: ys) := by
  induction ys with
  | nil => exact .refl _
  | cons y ys ih =>
    unfold insertDown
    split
    · exact (ih.cons y).trans (.swap x y ys)
    · exact .refl _

theorem foldl_insertDown_perm (xs ys : List α) :
    (xs.foldl (fun sorted x => insertDown lt x sorted) ys).Perm (xs.reverse ++ ys) := by
  induction xs generalizing ys with
  | nil => exact .refl _
  | cons x xs ih =>
    rw [List.foldl_cons, List.reverse_cons, List.append_assoc]
    exact (ih _).trans ((insertDown_perm lt x ys).append_left _)

theorem arrangeTwo_perm (x y : α) : (arrangeTwo lt x y).Perm [x, y] := by
  unfold arrangeTwo
  split
  · exact .swap x y []
  · exact .refl _

theorem arrangeFour_perm (p q r s : α) : (arrangeFour lt p q r s).Perm [p, q, r, s] := by
  classical
  rw [List.perm_iff_count]
  intro z
  have pairs (a b c d : α) : (mergePairs lt a b c d).count z = [a, b, c, d].count z := by
    unfold mergePairs
    split <;> simp only [List.count_append, List.count_cons, List.count_nil,
      (arrangeTwo_perm lt _ _).count_eq] <;> omega
  unfold arrangeFour
  split <;> simp only [pairs, List.count_cons] <;> omega

/-- Arranging only moves elements. -/
theorem arrange_perm (byFour : Bool) (xs : List α) : (arrange lt byFour xs).Perm xs := by
  unfold arrange
  split
  · next p q r s rest =>
    refine (List.reverse_perm _).trans ((foldl_insertDown_perm lt rest _).trans ?_)
    refine ((List.reverse_perm _).append (List.reverse_perm _)).trans ?_
    exact List.perm_append_comm.trans ((arrangeFour_perm lt p q r s).append_right rest)
  · refine (List.reverse_perm _).trans ((foldl_insertDown_perm lt xs []).trans ?_)
    rw [List.append_nil]
    exact List.reverse_perm xs

end QuadOpt.Sorting
