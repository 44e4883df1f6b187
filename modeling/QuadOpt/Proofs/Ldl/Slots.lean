/-
# Slots that are read and written

A factorisation with notes is the factorisation. Between two of its states, the slots that are
written for a column are those from one cursor to the other, one after the other, and those
that are read lie between the start of the column and the later cursor.

Key definitions: `Noted.Repeats`, `LdlArrays.uses`, `LdlArrays.SameColumns`,
`LdlArrays.Advance`, `LdlStorage.Advanced`.
Key theorems: `Noted.Repeats.bind`, `LdlArrays.eliminateNoted_run`,
`LdlArrays.Advance.trans`, `LdlArrays.Advance.within`, `LdlArrays.rowsNoted_repeats`,
`LdlStorage.refactorNoted_erased`.
-/
import QuadOpt.Ldl.Slots
import QuadOpt.Proofs.Ldl.StoredElimination

namespace QuadOpt

variable {α β γ : Type} {n : Nat}

/-! ### Noted steps -/

namespace Noted

/-- `x` does what `y` does, and `holds` is true of the result and of what is noted for it. -/
def Repeats (x : Noted n β) (y : Option β) (holds : β → List (SlotUse n) → Prop) : Prop :=
  ∀ log, (y = none ∧ x.run log = none) ∨
    ∃ b uses, y = some b ∧ x.run log = some (b, log ++ uses) ∧ holds b uses

variable {x : Noted n β} {y : Option β} {holds : β → List (SlotUse n) → Prop}

/-- Without the notes, the steps are the plain ones. -/
theorem Repeats.erased (h : x.Repeats y holds) (log : List (SlotUse n)) :
    (x.run log).map Prod.fst = y := by
  rcases h log with ⟨hy, hx⟩ | ⟨b, uses, hy, hx, -⟩
  · rw [hx, hy]
    rfl
  · rw [hx, hy]
    rfl

theorem Repeats.bind {f : β → Noted n γ} {g : β → Option γ} {after : γ → List (SlotUse n) → Prop}
    (h : x.Repeats y holds) (hf : ∀ b uses, holds b uses →
      (f b).Repeats (g b) fun c more => after c (uses ++ more)) :
    (x >>= f).Repeats (y >>= g) after := by
  intro log
  rcases h log with ⟨hy, hx⟩ | ⟨b, uses, hy, hx, hb⟩
  · exact .inl ⟨by rw [hy]; rfl, by rw [StateT.run_bind, hx]; rfl⟩
  · have hrun : (x >>= f).run log = (f b).run (log ++ uses) := by
      rw [StateT.run_bind, hx]
      rfl
    rcases hf b uses hb (log ++ uses) with ⟨hg, hfb⟩ | ⟨c, more, hg, hfb, hc⟩
    · exact .inl ⟨by rw [hy]; exact hg, hrun.trans hfb⟩
    · exact .inr ⟨c, uses ++ more, by rw [hy]; exact hg,
        by rw [hrun, hfb, List.append_assoc], hc⟩

theorem Repeats.mono {also : β → List (SlotUse n) → Prop} (h : x.Repeats y holds)
    (himp : ∀ b uses, holds b uses → also b uses) : x.Repeats y also := by
  intro log
  rcases h log with hnone | ⟨b, uses, hy, hx, hb⟩
  · exact .inl hnone
  · exact .inr ⟨b, uses, hy, hx, himp b uses hb⟩

/-- A plain step notes nothing. -/
theorem repeats_lift {f : β → Noted n γ} {g : β → Option γ} {after : γ → List (SlotUse n) → Prop}
    (h : ∀ b, y = some b → (f b).Repeats (g b) after) :
    Repeats ((liftM y : Noted n β) >>= f) (y >>= g) after := by
  intro log
  cases y with
  | none => exact .inl ⟨rfl, rfl⟩
  | some b => exact h b rfl log

theorem repeats_pure {b : β} (h : holds b []) : Repeats (pure b : Noted n β) (some b) holds :=
  fun log => .inr ⟨b, [], rfl, by rw [List.append_nil]; rfl, h⟩

end Noted

/-! ### One column -/

theorem SlotUse.writesTo_append (c : Fin n) (uses more : List (SlotUse n)) :
    SlotUse.writesTo c (uses ++ more) = SlotUse.writesTo c uses ++ SlotUse.writesTo c more := by
  rw [SlotUse.writesTo, List.filter_append, List.map_append]
  rfl

namespace LdlArrays

/-- The slots that are used when column `c` is eliminated. -/
def uses (a : LdlArrays α n) (c : Fin n) : List (SlotUse n) :=
  (List.range' (a.lower.start c) (a.next.get c - a.lower.start c)).map (⟨.read, c, ·⟩) ++
    [⟨.write, c, a.next.get c⟩, ⟨.read, c, a.next.get c⟩]

/-- One of them is written. -/
theorem writesTo_uses (a : LdlArrays α n) (c d : Fin n) :
    SlotUse.writesTo d (a.uses c) = if d = c then [a.next.get c] else [] := by
  have hreads : SlotUse.writesTo d ((List.range' (a.lower.start c)
      (a.next.get c - a.lower.start c)).map (⟨.read, c, ·⟩)) = [] := by
    simp [SlotUse.writesTo, List.filter_map, Function.comp_def]
  rw [uses, SlotUse.writesTo_append, hreads, List.nil_append]
  by_cases hd : d = c
  · simp [SlotUse.writesTo, hd]
  · simp [SlotUse.writesTo, hd, Ne.symm hd]

/-- The columns of the factor and their cursors are the same. -/
structure SameColumns (a b : LdlArrays α n) : Prop where
  lower : b.lower = a.lower
  next : b.next = a.next

theorem SameColumns.trans {a b d : LdlArrays α n} (h : a.SameColumns b) (h' : b.SameColumns d) :
    a.SameColumns d := ⟨h'.lower.trans h.lower, h'.next.trans h.next⟩

/-- `b` is reached from `a` with the notes `uses`. -/
structure Advance (a b : LdlArrays α n) (uses : List (SlotUse n)) : Prop where
  colptr : b.lower.colptr = a.lower.colptr
  next_le : ∀ c, a.next.get c ≤ b.next.get c
  reads : ∀ u ∈ uses, u.access = .read →
    a.lower.start u.column ≤ u.slot ∧ u.slot < b.next.get u.column
  writes : ∀ c, SlotUse.writesTo c uses
    = List.range' (a.next.get c) (b.next.get c - a.next.get c)

namespace Advance

variable {a b d : LdlArrays α n}

/-- Nothing has to be noted between them. -/
theorem of_same (h : a.SameColumns b) : a.Advance b [] where
  colptr := by rw [h.lower]
  next_le c := by rw [h.next]
  reads u hu := by cases hu
  writes c := by
    rw [h.next, Nat.sub_self]
    rfl

theorem start_eq (h : a.lower.colptr = b.lower.colptr) (j : Nat) :
    a.lower.start j = b.lower.start j := by
  rw [Csc.start, Csc.start, h]

theorem trans {uses more : List (SlotUse n)} (h : a.Advance b uses) (h' : b.Advance d more) :
    a.Advance d (uses ++ more) where
  colptr := h'.colptr.trans h.colptr
  next_le c := Nat.le_trans (h.next_le c) (h'.next_le c)
  reads u hu hread := by
    rcases List.mem_append.mp hu with hu | hu
    · obtain ⟨hstart, hlt⟩ := h.reads u hu hread
      exact ⟨hstart, Nat.lt_of_lt_of_le hlt (h'.next_le _)⟩
    · rw [← start_eq h.colptr]
      exact h'.reads u hu hread
  writes c := by
    have hnext := h.next_le c
    have hnext' := h'.next_le c
    have hsum : d.next.get c - a.next.get c
        = (b.next.get c - a.next.get c) + (d.next.get c - b.next.get c) := by omega
    have hend : b.next.get c = a.next.get c + (b.next.get c - a.next.get c) := by omega
    rw [SlotUse.writesTo_append, h.writes, h'.writes, hsum, ← List.range'_append_1, ← hend]

/-- Every slot lies between the start of its column and the later cursor, if no cursor was before
its column. -/
theorem within {uses : List (SlotUse n)} (h : a.Advance b uses)
    (hstart : ∀ c : Fin n, a.lower.start c ≤ a.next.get c) {u : SlotUse n} (hu : u ∈ uses) :
    a.lower.start u.column ≤ u.slot ∧ u.slot < b.next.get u.column := by
  cases haccess : u.access with
  | read => exact h.reads u hu haccess
  | write =>
    have hmem : u.slot ∈ SlotUse.writesTo u.column uses :=
      List.mem_map.mpr ⟨u, List.mem_filter.mpr ⟨hu, by simp [haccess]⟩, rfl⟩
    rw [h.writes, List.mem_range'_1] at hmem
    have := hstart u.column
    have := h.next_le u.column
    omega

end Advance

/-! ### Columns that are met -/

/-- Columns are met without a look at those of the factor. -/
theorem climb?_same (forest : Forest n) (k i : Fin n) (a : LdlArrays α n) (length : Nat)
    {r : LdlArrays α n × Nat} (h : climb? forest k i a length = some r) :
    a.SameColumns r.1 := by
  fun_induction climb? forest k i a length with
  | case1 => cases h; exact ⟨rfl, rfl⟩
  | case2 _ _ _ _ _ _ _ _ _ ih =>
    obtain ⟨hlower, hnext⟩ := ih h
    exact ⟨hlower, hnext⟩
  | case3 => cases h
  | case4 => cases h; exact ⟨rfl, rfl⟩

theorem unwind?_same (a : LdlArrays α n) (length count : Nat) {r : LdlArrays α n × Nat}
    (h : a.unwind? length count = some r) : a.SameColumns r.1 := by
  fun_induction unwind? a length count with
  | case1 => cases h; exact ⟨rfl, rfl⟩
  | case2 _ _ _ _ ih =>
    obtain ⟨hlower, hnext⟩ := ih h
    exact ⟨hlower, hnext⟩
  | case3 => cases h

theorem load?_same {forest : Forest n} {k : Fin n} {s r : LdlArrays α n × Nat} {e : Fin n × α}
    (h : load? forest k s e = some r) : s.1.SameColumns r.1 := by
  unfold load? at h
  split at h
  · cases h
    exact ⟨rfl, rfl⟩
  · obtain ⟨m, hm, h⟩ := Option.bind_eq_some_iff.mp h
    obtain ⟨hlower, hnext⟩ := (climb?_same _ _ _ _ _ hm).trans (unwind?_same _ _ _ h)
    exact ⟨hlower, hnext⟩

theorem foldlM_load_same {forest : Forest n} {k : Fin n} (entries : List (Fin n × α))
    {s r : LdlArrays α n × Nat} (h : entries.foldlM (load? forest k) s = some r) :
    s.1.SameColumns r.1 := by
  induction entries generalizing s with
  | nil =>
    cases h
    exact ⟨rfl, rfl⟩
  | cons e entries ih =>
    rw [List.foldlM_cons] at h
    obtain ⟨m, hm, h⟩ := Option.bind_eq_some_iff.mp h
    exact (load?_same hm).trans (ih h)

/-! ### Eliminated columns -/

variable [Scalar α]

theorem eliminateNoted_run (k : Fin n) (a : LdlArrays α n) (c : Fin n) (log : List (SlotUse n)) :
    (eliminateNoted k a c).run log = (eliminate? k a c).map fun b => (b, log ++ a.uses c) := by
  unfold eliminateNoted eliminate?
  cases hfirst : a.lower.colptr[c.val]? with
  | none => rfl
  | some first =>
    have hstart : a.lower.start c = first := by
      rw [Csc.start, Array.getD_eq_getD_getElem?, hfirst]
      rfl
    cases hcolumn : a.lower.stretch? n first (a.next.get c) with
    | none => simp [Csc.readSlots, hcolumn]
    | some column =>
      cases hnzval : alter? a.lower.nzval (a.next.get c)
          (fun _ => a.work.get c * a.Dinv.get c) with
      | none => simp [Csc.readSlots, Csc.writeSlot, hnzval]
      | some nzval =>
        cases hrowval : alter? a.lower.rowval (a.next.get c) (fun _ => k.val) with
        | none => simp [Csc.readSlots, Csc.writeSlot, hnzval, hrowval]
        | some rowval =>
          simp [Csc.readSlots, Csc.writeSlot, Csc.readSlot, hcolumn, hnzval, hrowval,
            getElem?_alter_self hnzval, uses, hstart]

/-- The cursor of the column moves on by one slot, and is not before the column. -/
theorem eliminate?_eq_some {k c : Fin n} {a b : LdlArrays α n} (h : eliminate? k a c = some b) :
    b.lower.colptr = a.lower.colptr ∧ b.next = Vec.put a.next c (a.next.get c + 1) ∧
      a.lower.start c ≤ a.next.get c := by
  obtain ⟨first, hfirst, h⟩ := Option.bind_eq_some_iff.mp h
  obtain ⟨column, hcolumn, h⟩ := Option.bind_eq_some_iff.mp h
  obtain ⟨nzval, -, h⟩ := Option.bind_eq_some_iff.mp h
  obtain ⟨rowval, -, h⟩ := Option.bind_eq_some_iff.mp h
  obtain ⟨rows, hrows, -⟩ := Option.bind_eq_some_iff.mp hcolumn
  cases h
  refine ⟨rfl, rfl, ?_⟩
  rw [Csc.start, Array.getD_eq_getD_getElem?, hfirst, Option.getD_some]
  unfold slice? at hrows
  split at hrows
  · rename_i hle
    exact hle.1
  · cases hrows

/-- One step of elimination. -/
theorem Advance.of_eliminate {k c : Fin n} {a b : LdlArrays α n}
    (h : eliminate? k a c = some b) : a.Advance b (a.uses c) := by
  obtain ⟨hcolptr, hnext, hle⟩ := eliminate?_eq_some h
  have hget : ∀ d, b.next.get d = if d = c then a.next.get c + 1 else a.next.get d := by
    intro d
    rw [hnext, Vec.get_put_eq]
  refine ⟨hcolptr, fun d => ?_, fun u hu hread => ?_, fun d => ?_⟩
  · rw [hget]
    split
    · rename_i hd
      rw [hd]
      exact Nat.le_succ _
    · exact Nat.le_refl _
  · have hslot : u.column = c ∧ a.lower.start c ≤ u.slot ∧ u.slot ≤ a.next.get c := by
      rcases List.mem_append.mp hu with hu | hu
      · obtain ⟨slot, hslot, rfl⟩ := List.mem_map.mp hu
        rw [List.mem_range'_1] at hslot
        exact ⟨rfl, hslot.1, show slot ≤ a.next.get c by omega⟩
      · rcases List.mem_pair.mp hu with rfl | rfl
        · cases hread
        · exact ⟨rfl, hle, Nat.le_refl _⟩
    rw [hget, if_pos hslot.1, hslot.1]
    exact ⟨hslot.2.1, Nat.lt_succ_of_le hslot.2.2⟩
  · rw [writesTo_uses, hget]
    split
    · rename_i hd
      rw [hd, Nat.add_sub_cancel_left]
      rfl
    · rw [Nat.sub_self]
      rfl

theorem eliminateNoted_repeats (k : Fin n) (a : LdlArrays α n) (c : Fin n) :
    (eliminateNoted k a c).Repeats (eliminate? k a c) a.Advance := by
  intro log
  rw [eliminateNoted_run]
  cases h : eliminate? k a c with
  | none => exact .inl ⟨rfl, rfl⟩
  | some b => exact .inr ⟨b, a.uses c, rfl, rfl, Advance.of_eliminate h⟩

/-! ### All rows -/

theorem foldlM_eliminateNoted_repeats (k : Fin n) (l : List (Fin n)) (a : LdlArrays α n) :
    Noted.Repeats (l.foldlM (eliminateNoted k) a) (l.foldlM (eliminate? k) a) a.Advance := by
  induction l generalizing a with
  | nil => exact Noted.repeats_pure (.of_same ⟨rfl, rfl⟩)
  | cons c l ih =>
    rw [List.foldlM_cons, List.foldlM_cons]
    exact (eliminateNoted_repeats k a c).bind fun b uses h =>
      (ih b).mono fun d more h' => h.trans h'

theorem reduceNoted_repeats (forest : Forest n) (upper : Csc α) (a : LdlArrays α n) (k : Fin n) :
    (a.reduceNoted forest upper k).Repeats (a.reduce? forest upper k) a.Advance := by
  unfold reduceNoted reduce?
  refine Noted.repeats_lift fun entries _ => Noted.repeats_lift fun r hr => ?_
  have hmet : a.Advance r.1 [] := .of_same (foldlM_load_same entries hr)
  exact (foldlM_eliminateNoted_repeats k _ r.1).mono fun b uses h => hmet.trans h

/-- The rows are eliminated as without notes. -/
theorem rowsNoted_repeats (forest : Forest n) (upper : Csc α) (ks : List (Fin n))
    (a : LdlArrays α n) (positive : Nat) : (rowsNoted forest upper a positive ks).Repeats
      (rows? forest upper a positive ks) fun r uses => a.Advance r.1 uses := by
  induction ks generalizing a positive with
  | nil => exact Noted.repeats_pure (.of_same ⟨rfl, rfl⟩)
  | cons k ks ih =>
    rw [rowsNoted, rows?]
    refine (reduceNoted_repeats forest upper a k).bind fun b uses h => ?_
    simp only
    split
    · exact Noted.repeats_pure (h.trans (.of_same ⟨rfl, rfl⟩))
    · refine (ih _ _).mono fun r more h' => h.trans ?_
      have hb : b.Advance { b with Dinv := b.Dinv.put k (Scalar.recip (b.D.get k)) } [] :=
        .of_same ⟨rfl, rfl⟩
      exact hb.trans h'

end LdlArrays

/-! ### The object -/

namespace LdlStorage

variable [Scalar α]

/-- The notes of a factorisation. -/
def Advanced (S : LdlStorage α n) (r : LdlStorage α n × Except LdlError Nat)
    (uses : List (SlotUse n)) : Prop :=
  ∃ next : Vector Nat n, (∀ c, next.get c = S.lower.start c) ∧
    (S.begin next).Advance r.1.toLdlArrays uses

theorem refactorNoted_repeats (S : LdlStorage α n) :
    S.refactorNoted.Repeats S.refactor? S.Advanced := by
  unfold refactorNoted refactor?
  by_cases hroom : S.HasRoom
  · rw [if_pos hroom, if_pos hroom]
    refine Noted.repeats_lift fun starts hstarts => Noted.repeats_lift fun next hnext => ?_
    refine (LdlArrays.rowsNoted_repeats _ _ _ _ _).bind fun r uses h => ?_
    refine Noted.repeats_pure ⟨next, next_eq_start hstarts hnext, ?_⟩
    rwa [List.append_nil]
  · rw [if_neg hroom, if_neg hroom]
    exact fun log => .inl ⟨rfl, rfl⟩

/-- Without its notes, a factorisation with notes is the factorisation. -/
theorem refactorNoted_erased (S : LdlStorage α n) :
    (S.refactorNoted.run []).map Prod.fst = S.refactor? := S.refactorNoted_repeats.erased []

end LdlStorage
end QuadOpt
