/-
# Elimination orders as they are given

An elimination order is given as a vector of any length. It is inverted on its own, so that it is
refused iff it is no permutation of as many indices as it has; whether these are the rows of the
matrix is not asked. A longer vector is taken for its first indices if they are the rows, in any
order; of any other the inverse leads beyond the end of an array, as no column of the matrix is
empty.

Key theorems: `Order.exists_ofArray_iff`, `Order.invert?_eq_some`, `Csc.permuteBy?_eq`,
`Csc.lt_of_permuteBy?`, `LdlStorage.analyse_given`.
-/
import QuadOpt.Proofs.Ldl.Fresh
import QuadOpt.Proofs.Ldl.StoredAnalysis

namespace QuadOpt

/-! ### Orders -/

namespace Order

variable {n : Nat} {p : Array Nat}

theorem ofArray_eq_invalidOrder_iff :
    ofArray n p = .error .invalidOrder ↔ ¬p.toList.Perm (List.range p.size) := by
  rw [← isPermutation_iff, Bool.not_eq_true]
  unfold ofArray
  cases isPermutation p with
  | false => simp
  | true =>
    simp only [Bool.not_true, Bool.false_eq_true, if_false, reduceCtorEq, iff_false]
    split_ifs <;> simp

/-- A permutation is accepted, or other rows than those of the matrix come first in it. -/
theorem exists_or_orderOutOfRange (hperm : p.toList.Perm (List.range p.size)) :
    (∃ o : Order n, ofArray n p = .ok o) ∨ ofArray n p = .error .orderOutOfRange := by
  unfold ofArray
  rw [isPermutation_iff.mpr hperm, if_neg (by simp)]
  split
  · simp only
    split
    · exact .inl ⟨_, rfl⟩
    · exact .inr rfl
  · exact .inr rfl

/-- The first steps are those of the order. -/
theorem take_of_ofArray {o : Order n} (h : ofArray n p = .ok o) :
    p.toList.take n = (List.finRange n).map fun k => (o.perm.get k).val := by
  refine List.ext_getElem? fun k => ?_
  by_cases hk : k < n
  · have hget := getElem?_of_ofArray h ⟨k, hk⟩
    simpa [List.getElem?_take, hk] using hget
  · simp [hk]

/-- A vector is accepted iff it is a permutation in which the rows come first. -/
theorem exists_ofArray_iff : (∃ o, ofArray n p = .ok o) ↔
    p.toList.Perm (List.range p.size) ∧ (p.toList.take n).Perm (List.range n) := by
  constructor
  · rintro ⟨o, ho⟩
    constructor
    · by_contra hnot
      rw [← ofArray_eq_invalidOrder_iff (n := n), ho] at hnot
      cases hnot
    · rw [take_of_ofArray ho]
      have hinj : Function.Injective fun k => (o.perm.get k).val :=
        Fin.val_injective.comp o.toEquiv.injective
      have hnodup := List.nodup_finRange n |>.map hinj
      refine (hnodup.subperm fun i hi => ?_).perm_of_length_le (by simp)
      obtain ⟨k, -, rfl⟩ := List.mem_map.mp hi
      exact List.mem_range.mpr (o.perm.get k).isLt
  · rintro ⟨hperm, htake⟩
    exact exists_ofArray_of_take hperm htake

theorem ofArray_eq_orderOutOfRange (hperm : p.toList.Perm (List.range p.size))
    (htake : ¬(p.toList.take n).Perm (List.range n)) :
    ofArray n p = .error .orderOutOfRange :=
  (exists_or_orderOutOfRange hperm).resolve_left fun h => htake (exists_ofArray_iff.mp h).2

/-! ### Inverses -/

section Enter

variable {filled : Array (Option Nat)} {es : List (Nat × Nat)}

/-- Positions of different indices are entered in empty cells, -/
theorem foldlM_enter?_eq_some (cells : Array (Option Nat)) (hnodup : (es.map Prod.fst).Nodup)
    (hempty : ∀ e ∈ es, cells[e.1]? = some none) :
    ∃ filled, es.foldlM enter? cells = some filled ∧
      (∀ e ∈ es, filled[e.1]? = some (some e.2)) ∧
      ∀ j, j ∉ es.map Prod.fst → filled[j]? = cells[j]? := by
  induction es generalizing cells with
  | nil => exact ⟨cells, rfl, by simp, by simp⟩
  | cons e es ih =>
    obtain ⟨hfirst, hempty⟩ := List.forall_mem_cons.mp hempty
    obtain ⟨hnew, hnodup⟩ := List.nodup_cons.mp hnodup
    have hlt : e.1 < cells.size := (Array.getElem?_eq_some_iff.mp hfirst).1
    obtain ⟨filled, hfilled, hentered, hkept⟩ := ih (cells.setIfInBounds e.1 (some e.2)) hnodup
      fun d hd => by
        have hne : e.1 ≠ d.1 := fun heq => hnew (heq ▸ List.mem_map_of_mem hd)
        rw [Array.getElem?_setIfInBounds_ne hne]
        exact hempty d hd
    refine ⟨filled, ?_, List.forall_mem_cons.mpr ⟨?_, hentered⟩, fun j hj => ?_⟩
    · rw [List.foldlM_cons, enter?, if_pos hfirst]
      exact hfilled
    · rw [hkept e.1 hnew, Array.getElem?_setIfInBounds_self_of_lt hlt]
    · rw [List.map_cons, List.mem_cons, not_or] at hj
      rw [hkept j hj.2, Array.getElem?_setIfInBounds_ne (Ne.symm hj.1)]

/-- and no others are entered. -/
theorem of_foldlM_enter? {cells : Array (Option Nat)} (h : es.foldlM enter? cells = some filled) :
    (es.map Prod.fst).Nodup ∧ ∀ e ∈ es, cells[e.1]? = some none := by
  induction es generalizing cells with
  | nil => simp
  | cons e es ih =>
    rw [List.foldlM_cons] at h
    obtain ⟨next, hnext, h⟩ := Option.bind_eq_some_iff.mp h
    unfold enter? at hnext
    split at hnext
    · rename_i hfirst
      cases hnext
      have hlt : e.1 < cells.size := (Array.getElem?_eq_some_iff.mp hfirst).1
      obtain ⟨hnodup, hempty⟩ := ih h
      have hne : ∀ d ∈ es, e.1 ≠ d.1 := by
        intro d hd heq
        have hcell := hempty d hd
        rw [← heq, Array.getElem?_setIfInBounds_self_of_lt hlt] at hcell
        cases hcell
      refine ⟨List.nodup_cons.mpr ⟨?_, hnodup⟩, List.forall_mem_cons.mpr ⟨hfirst, fun d hd => ?_⟩⟩
      · rw [List.mem_map]
        rintro ⟨d, hd, heq⟩
        exact hne d hd heq.symm
      · rw [← Array.getElem?_setIfInBounds_ne (hne d hd)]
        exact hempty d hd
    · cases hnext

end Enter

/-- What was entered when a vector is inverted. -/
theorem invert?_eq_some {position : Array Nat} (h : invert? p = some position) :
    p.toList.Perm (List.range p.size) ∧ ∀ i k : Nat, position[i]? = some k ↔ p[k]? = some i := by
  rw [invert?] at h
  obtain ⟨filled, hfilled, hposition⟩ := Option.bind_eq_some_iff.mp h
  obtain rfl := Option.some.inj hposition
  obtain ⟨hnodup, hempty⟩ := of_foldlM_enter? hfilled
  obtain ⟨filled', hfilled', hentered, hkept⟩ := foldlM_enter?_eq_some _ hnodup hempty
  obtain rfl := Option.some.inj (hfilled.symm.trans hfilled')
  rw [List.zipIdx_map_fst] at hnodup hkept
  have hget : ∀ {i k : Nat}, p[k]? = some i → filled[i]? = some (some k) := by
    intro i k hk
    exact hentered (i, k) (List.mk_mem_zipIdx_iff_getElem?.mpr (by simpa using hk))
  have hlt : ∀ i ∈ p.toList, i < p.size := by
    intro i hi
    obtain ⟨k, hk⟩ := List.mem_iff_getElem?.mp hi
    have hcell := hempty (i, k) (List.mk_mem_zipIdx_iff_getElem?.mpr hk)
    have := (Array.getElem?_eq_some_iff.mp hcell).1
    simpa using this
  have hperm : p.toList.Perm (List.range p.size) :=
    (hnodup.subperm fun i hi => List.mem_range.mpr (hlt i hi)).perm_of_length_le (by simp)
  refine ⟨hperm, fun i k => ?_⟩
  rw [Array.getElem?_map, Option.map_eq_some_iff]
  constructor
  · rintro ⟨cell, hcell, rfl⟩
    have hmem : i ∈ p.toList := by
      by_contra hnot
      rw [hkept i hnot] at hcell
      have hi : i < p.size := by simpa using (Array.getElem?_eq_some_iff.mp hcell).1
      exact hnot (hperm.mem_iff.mpr (List.mem_range.mpr hi))
    obtain ⟨k, hk⟩ := List.mem_iff_getElem?.mp hmem
    rw [Array.getElem?_toList] at hk
    obtain rfl := Option.some.inj (hcell.symm.trans (hget hk))
    exact hk
  · exact fun hk => ⟨some k, hget hk, rfl⟩

/-- A vector is inverted iff it is a permutation of as many indices as it has. -/
theorem exists_invert?_iff :
    (∃ position, invert? p = some position) ↔ p.toList.Perm (List.range p.size) := by
  constructor
  · rintro ⟨position, h⟩
    exact (invert?_eq_some h).1
  · intro h
    have hnodup : (p.toList.zipIdx.map Prod.fst).Nodup := by
      rw [List.zipIdx_map_fst]
      exact h.nodup_iff.mpr List.nodup_range
    obtain ⟨filled, hfilled, -⟩ := foldlM_enter?_eq_some (Array.replicate p.size none) hnodup
      fun e he => by
        have hmem : e.1 ∈ p.toList := List.fst_mem_of_mem_zipIdx he
        simp [List.mem_range.mp (h.mem_iff.mp hmem)]
    exact ⟨filled.map (·.getD 0), by rw [invert?, hfilled]; rfl⟩

end Order

/-! ### Matrices in a given order -/

section Permute

variable {α : Type} [Scalar α] {n : Nat} {A : Csc α} {p : Array Nat}

theorem Order.upperPosition_val (o : Order n) (i j : Fin n) :
    (o.upperPosition i j).1.val = min (o.position.get i).val (o.position.get j).val ∧
      (o.upperPosition i j).2.val = max (o.position.get i).val (o.position.get j).val := by
  unfold upperPosition
  split
  · rename_i h
    exact ⟨(Nat.min_eq_left h).symm, (Nat.max_eq_right h).symm⟩
  · rename_i h
    have hle : (o.position.get j).val ≤ (o.position.get i).val := Nat.le_of_not_le h
    exact ⟨(Nat.min_eq_right hle).symm, (Nat.max_eq_left hle).symm⟩

/-- The inverse of an order leads to the triangle in that order. -/
theorem Csc.permuteBy?_eq (h : A.Valid) (hm : A.m = n) (hn : A.n = n) {o : Order n}
    (ho : Order.ofArray n p = .ok o) {position : Array Nat}
    (hinvert : Order.invert? p = some position) :
    A.permuteBy? position = o.permuteStored? A := by
  have hposition : ∀ i : Fin n, position[i.val]? = some (o.position.get i).val := by
    intro i
    rw [(Order.invert?_eq_some hinvert).2, Order.getElem?_of_ofArray ho, o.perm_position]
  obtain ⟨ts, -, hentries, -⟩ := Csc.exists_numbered h hm hn
  have hmoved : (A.entries.mapM fun e => do
      let i ← position[e.1]?
      let j ← position[e.2.1]?
      return (max i j, min i j, e.2.2)) = some (ts.map fun t =>
        ((o.upperPosition t.1.1 t.1.2).2.val, (o.upperPosition t.1.1 t.1.2).1.val,
          A.nzval.getD t.2 0)) := by
    rw [hentries, List.mapM_map]
    simp only [Function.comp_def, hposition, bind, Option.bind_some, o.upperPosition_val]
    exact List.mapM_pure
  have hmoved' := o.mapM_upperPosition ts A.nzval
  rw [← hentries] at hmoved'
  rw [permuteBy?, Order.permuteStored?, hmoved, hmoved']
  simp only [bind, Option.bind_some, List.map_map, Function.comp_def, hn]

theorem exists_mem_of_mapM {β γ : Type} {f : β → Option γ} {l : List β} {l' : List γ}
    (h : l.mapM f = some l') {x : β} (hx : x ∈ l) : ∃ y ∈ l', f x = some y := by
  induction l generalizing l' with
  | nil => cases hx
  | cons z l ih =>
    rw [List.mapM_cons] at h
    obtain ⟨y, hy, h⟩ := Option.bind_eq_some_iff.mp h
    obtain ⟨ys, hys, h⟩ := Option.bind_eq_some_iff.mp h
    obtain rfl := Option.some.inj h
    rcases List.mem_cons.mp hx with rfl | hx
    · exact ⟨y, List.mem_cons_self, hy⟩
    · obtain ⟨w, hw, hfw⟩ := ih hys hx
      exact ⟨w, List.mem_cons_of_mem y hw, hfw⟩

/-- Where all positions lie inside of the arrays, those of the columns with an entry are below
the number of columns. -/
theorem Csc.lt_of_permuteBy? {position : Array Nat} {r : Csc α × Array Nat}
    (hr : A.permuteBy? position = some r) {e : Nat × Nat × α} (he : e ∈ A.entries) :
    ∃ k < A.n, position[e.2.1]? = some k := by
  rw [permuteBy?] at hr
  obtain ⟨moved, hmoved, hr⟩ := Option.bind_eq_some_iff.mp hr
  obtain ⟨counts, hcounts, -⟩ := Option.bind_eq_some_iff.mp hr
  obtain ⟨x, hx, hread⟩ := exists_mem_of_mapM hmoved he
  obtain ⟨i, hi, hread⟩ := Option.bind_eq_some_iff.mp hread
  obtain ⟨k, hk, hread⟩ := Option.bind_eq_some_iff.mp hread
  obtain rfl := Option.some.inj hread
  have hlt : max i k < A.n := lt_of_tally? hcounts _ (List.mem_map_of_mem hx)
  exact ⟨k, by omega, hk⟩

omit [Scalar α] in
/-- A column that is not empty has an entry. -/
theorem Csc.exists_mem_entries (h : A.Valid) {j : Nat} (hj : j < A.n)
    (hcolumn : A.start j < A.start (j + 1)) : ∃ e ∈ A.entries, e.2.1 = j := by
  have hrows : 0 < (A.rows j).length := by
    rw [length_rows h hj]
    omega
  obtain ⟨i, hi⟩ := List.exists_mem_of_length_pos hrows
  rw [← map_fst_column h hj] at hi
  obtain ⟨e, he, -⟩ := List.mem_map.mp hi
  exact ⟨(e.1, j, e.2), mem_entries.mpr ⟨hj, he⟩, rfl⟩

/-- A permutation leads to a triangle iff the rows come first in it. -/
theorem Csc.exists_permuteBy?_iff (h : A.Valid) (hm : A.m = n) (hn : A.n = n)
    (hcolumns : ∀ j < n, A.start j < A.start (j + 1)) {position : Array Nat}
    (hinvert : Order.invert? p = some position) :
    (∃ r, A.permuteBy? position = some r) ↔ (p.toList.take n).Perm (List.range n) := by
  obtain ⟨hperm, hinverse⟩ := Order.invert?_eq_some hinvert
  constructor
  · rintro ⟨r, hr⟩
    have hmem : ∀ j ∈ List.range n, j ∈ p.toList.take n := by
      -- the position of `j` is read for the entries of column `j`
      intro j hj
      have hj : j < n := List.mem_range.mp hj
      obtain ⟨e, he, rfl⟩ := Csc.exists_mem_entries h (hn ▸ hj) (hcolumns j hj)
      obtain ⟨k, hk, hget⟩ := Csc.lt_of_permuteBy? hr he
      refine List.mem_of_getElem? (i := k) ?_
      rw [List.getElem?_take, if_pos (hn ▸ hk), Array.getElem?_toList]
      exact (hinverse _ _).mp hget
    exact ((List.nodup_range.subperm hmem).perm_of_length_le (by simp)).symm
  · intro htake
    obtain ⟨o, ho⟩ := Order.exists_ofArray_of_take hperm htake
    obtain ⟨places, hplaced, -⟩ := o.permuteStored?_eq h hm hn
    exact ⟨_, (Csc.permuteBy?_eq h hm hn ho hinvert).trans hplaced⟩

end Permute

namespace LdlStorage

variable {α : Type} [Scalar α] {n : Nat} {A : Csc α} {p : Array Nat}

theorem analyse_of_error (hrequire : Ldl.requireUpper A n = .ok ()) {e : LdlError}
    (ho : Order.ofArray n p = .error e) (W : LdlWorkspace α n) :
    analyse A n (some p) W = .error e := by
  unfold analyse
  rw [hrequire]
  simp only [bind, Except.bind, Option.getD_some, ho]

/-- In an order that is accepted, the matrix is laid out. -/
theorem exists_analyse_of_order (hrequire : Ldl.requireUpper A n = .ok ()) {o : Order n}
    (ho : Order.ofArray n p = .ok o) (W : LdlWorkspace α n) :
    ∃ S, analyse A n (some p) W = .ok S ∧ o.permuteStored? A = some (S.upper, S.places) := by
  have hlaid : analyse A n (some p) W = (lay? A p o W).elim (.error .unreadable) .ok := by
    unfold analyse
    rw [hrequire]
    simp only [bind, Except.bind, Option.getD_some, ho]
  obtain ⟨F, hF⟩ : ∃ F, Ldl.analyse A n (some p) = .ok F := by
    unfold Ldl.analyse
    rw [hrequire]
    simp only [bind, Except.bind, Option.getD_some, ho]
    exact ⟨_, rfl⟩
  obtain ⟨S, hS, -⟩ := exists_analyse hF W
  refine ⟨S, hS, ?_⟩
  rw [hlaid] at hS
  cases hlay : lay? A p o W with
  | none =>
    rw [hlay] at hS
    cases hS
  | some T =>
    rw [hlay] at hS
    cases hS
    unfold lay? at hlay
    obtain ⟨r, hr, hlay⟩ := Option.bind_eq_some_iff.mp hlay
    obtain ⟨analysis, -, hlay⟩ := Option.bind_eq_some_iff.mp hlay
    obtain ⟨nnz, -, hlay⟩ := Option.bind_eq_some_iff.mp hlay
    cases hlay
    exact hr

/-- **Given orders.** The order of a square, well formed upper triangle without an empty column may
be given as any vector. It is refused iff it is no permutation of as many indices as it has. It is
accepted iff it is one whose first indices are the rows, so that a longer vector may be accepted.
All others, shorter ones among them, lead beyond the end of an array. -/
theorem analyse_given (h : A.validate = .ok ()) (hm : A.m = n) (hn : A.n = n)
    (hupper : A.isUpper = true) (hcolumns : ∀ j < n, A.start j < A.start (j + 1))
    (p : Array Nat) (W : LdlWorkspace α n) :
    ((∃ S, analyse A n (some p) W = .ok S) ↔
      p.toList.Perm (List.range p.size) ∧ (p.toList.take n).Perm (List.range n)) ∧
    (analyse A n (some p) W = .error .invalidOrder ↔ ¬p.toList.Perm (List.range p.size)) ∧
    (analyse A n (some p) W = .error .orderOutOfRange ↔
      p.toList.Perm (List.range p.size) ∧ ¬(p.toList.take n).Perm (List.range n)) ∧
    A.permuteGiven? p = match analyse A n (some p) W with
      | .ok S => some (.ok (S.upper, S.places))
      | .error .orderOutOfRange => none
      | .error e => some (.error e) := by
  have hvalid := Csc.valid_of_validate h
  have hrequire := Ldl.requireUpper_of_validate h hm hn hupper hcolumns
  cases hinvert : Order.invert? p with
  | none =>
    have hperm : ¬p.toList.Perm (List.range p.size) := by
      rw [← Order.exists_invert?_iff, hinvert]
      simp
    rw [analyse_of_error hrequire (Order.ofArray_eq_invalidOrder_iff.mpr hperm) W]
    simp [hperm, Csc.permuteGiven?, hinvert]
  | some position =>
    have hperm := (Order.invert?_eq_some hinvert).1
    have hgiven : A.permuteGiven? p = (A.permuteBy? position).map .ok := by
      rw [Csc.permuteGiven?, hinvert]
    by_cases htake : (p.toList.take n).Perm (List.range n)
    · obtain ⟨o, ho⟩ := Order.exists_ofArray_of_take hperm htake
      obtain ⟨S, hS, hplaced⟩ := exists_analyse_of_order hrequire ho W
      rw [hgiven, Csc.permuteBy?_eq hvalid hm hn ho hinvert, hplaced, hS]
      simp [hperm, htake]
    · have hnone : A.permuteBy? position = none := by
        rw [← Csc.exists_permuteBy?_iff hvalid hm hn hcolumns hinvert] at htake
        exact Option.eq_none_iff_forall_ne_some.mpr fun r hr => htake ⟨r, hr⟩
      rw [hgiven, hnone, analyse_of_error hrequire (Order.ofArray_eq_orderOutOfRange hperm htake) W]
      simp [hperm, htake]

/-- The matrix of one entry, -/
def loneMatrix : Csc Float := ⟨1, 1, #[0, 1], #[0], #[1.0]⟩

/-- and a workspace for it. -/
def loneWorkspace : LdlWorkspace Float 1 :=
  ⟨#v[false], #v[0], #v[0], #v[0], .fill 1 0⟩

theorem analyse_given_lone :
    loneMatrix.validate = .ok () ∧ loneMatrix.isUpper = true ∧
      (∀ j < 1, loneMatrix.start j < loneMatrix.start (j + 1)) ∧
      (∃ S, analyse loneMatrix 1 (some #[0]) loneWorkspace = .ok S) ∧
      analyse loneMatrix 1 (some #[0, 0]) loneWorkspace = .error .invalidOrder ∧
      analyse loneMatrix 1 (some #[1, 0]) loneWorkspace = .error .orderOutOfRange := by
  have hvalidate : loneMatrix.validate = .ok () := by decide
  have hupper : loneMatrix.isUpper = true := by decide
  have hcolumns : ∀ j < 1, loneMatrix.start j < loneMatrix.start (j + 1) := by decide
  have hgiven := fun p => analyse_given hvalidate rfl rfl hupper hcolumns p loneWorkspace
  refine ⟨hvalidate, hupper, hcolumns, (hgiven _).1.mpr ?_, (hgiven _).2.1.mpr ?_,
    (hgiven _).2.2.1.mpr ?_⟩
  · decide
  · decide
  · decide

/-- A vector of two indices is accepted for a matrix of one row, and one without any is neither
accepted nor refused. -/
theorem exists_accepted_longer :
    (∃ S, analyse loneMatrix 1 (some #[0, 1]) loneWorkspace = .ok S) ∧
      loneMatrix.permuteGiven? #[] = none ∧
      analyse loneMatrix 1 (some #[]) loneWorkspace = .error .orderOutOfRange := by
  have hrequire : Ldl.requireUpper loneMatrix 1 = .ok () := by decide
  obtain ⟨o, ho⟩ := Order.exists_ofArray_of_take (n := 1) (p := #[0, 1]) (by decide) (by decide)
  obtain ⟨S, hS, -⟩ := exists_analyse_of_order hrequire ho loneWorkspace
  refine ⟨⟨S, hS⟩, Option.isNone_iff_eq_none.mp (by decide +kernel), ?_⟩
  exact analyse_of_error hrequire (Order.ofArray_eq_orderOutOfRange (by decide) (by decide)) _

end LdlStorage
end QuadOpt
