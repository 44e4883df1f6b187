/-
# Elimination in place

Row by row, elimination in place computes what elimination on lists computes: the
columns of the factor are filled from their beginnings by cursors that never leave
them, the marks are cleared again, and nothing that an earlier factorisation or a
solve left in the workspace is read.

Key definitions: `LdlArrays.Tracks`, `LdlArrays.Follows`, `LdlStorage.after`,
`LdlStorage.Prepared`.
Key theorems: `LdlArrays.Tracks.load`, `LdlArrays.Tracks.eliminate`,
`LdlArrays.Tracks.reduce`, `LdlArrays.rows?_follows`, `LdlStorage.Prepared.refactor`,
`LdlStorage.Represents.refactor`.
-/
import QuadOpt.Proofs.Ldl.Elimination
import QuadOpt.Proofs.Ldl.StoredAnalysis
import QuadOpt.Proofs.Ldl.StoredWalks

namespace QuadOpt

variable {α : Type} {n : Nat}

/-! ### Columns filled from their beginnings -/

namespace Ldl

variable {F : Ldl α n} {lower : Vector (List (Fin n × α)) n}

theorem length_store (h : ∀ c, (lower.get c).length ≤ (F.lower.get c).length) (c : Fin n) :
    ((F.store lower).get c).length = (F.lower.get c).length := by
  have := h c
  rw [store, Vec.get_ofFn, List.length_append, List.length_drop]
  omega

theorem offset_store (h : ∀ c, (lower.get c).length ≤ (F.lower.get c).length) (c : Nat) :
    offset (F.store lower).toList c = offset F.lower.toList c := by
  apply offset_congr
  rw [Vec.toList_eq_map_get, Vec.toList_eq_map_get, List.map_map, List.map_map]
  exact List.map_congr_left fun c _ => length_store h c

/-- The computed beginning of a column. -/
theorem take_store (lower : Vector (List (Fin n × α)) n) (c : Fin n) :
    ((F.store lower).get c).take (lower.get c).length = lower.get c := by
  rw [store, Vec.get_ofFn, List.take_left]

/-- One more entry behind the beginning of a column. -/
theorem store_push {c : Fin n} (h : (lower.get c).length < (F.lower.get c).length)
    (e : Fin n × α) : F.store (Vec.put lower c (lower.get c ++ [e]))
      = Vec.put (F.store lower) c (((F.store lower).get c).set (lower.get c).length e) := by
  apply Vec.ext_get
  intro d
  by_cases hd : d = c
  · subst hd
    rw [Vec.get_put, store, store, Vec.get_ofFn, Vec.get_ofFn, Vec.get_put, set_beginning _ _ h]
  · rw [Vec.get_put_ne _ (Ne.symm hd), store, store, Vec.get_ofFn, Vec.get_ofFn,
      Vec.get_put_ne _ (Ne.symm hd)]

theorem store_nil (F : Ldl α n) : F.store (Vector.replicate n []) = F.lower := by
  apply Vec.ext_get
  intro c
  rw [store, Vec.get_ofFn, Vec.get_replicate]
  rfl

end Ldl

/-! ### One row -/

namespace LdlArrays

/-- The first `k` rows of `f` are stored over the factors of `F`. -/
structure Tracks (F : Ldl α n) (f : Factors α n) (k : Nat) (a : LdlArrays α n) : Prop where
  lower : a.lower = storedColumns (F.store f.lower)
  next : ∀ c, a.next.get c = offset F.lower.toList c.val + (f.lower.get c).length
  D : a.D = f.D
  Dinv : ∀ c, a.Dinv.get c = if c.val < k then f.Dinv.get c else F.Dinv.get c
  work : a.work = f.rest

namespace Tracks

variable {F : Ldl α n} {f : Factors α n} {k : Fin n} {a : LdlArrays α n} {forest : Forest n}

theorem load_eq (f : Factors α n) (k : Fin n) (e : Fin n × α) : Factors.load k f e
    = if e.1 = k then { f with D := f.D.put k e.2 } else { f with rest := f.rest.put e.1 e.2 } := by
  rfl

/-- An entry of the column is taken in. -/
theorem load (h : a.Tracks F f k.val) {count : Nat} {seen rows : List (Fin n)}
    (hpending : a.Pending count seen) (hpattern : forest.IsPattern k rows seen)
    (e : Fin n × α) : ∃ b, load? forest k (a, count) e
        = some (b, (forest.path (stops k seen) e.1 ++ seen).length) ∧
      b.Tracks F (Factors.load k f e) k.val ∧
      b.Pending (forest.path (stops k seen) e.1 ++ seen).length
        (forest.path (stops k seen) e.1 ++ seen) := by
  rw [load_eq]
  by_cases he : e.1 = k
  · have hstop : stops k seen e.1 = true := by simp [stops, he]
    rw [load?, if_pos he, if_pos he, Forest.path_of_stop hstop, List.nil_append,
      ← hpending.count_eq]
    exact ⟨_, rfl, { h with D := by rw [h.D] }, { hpending with }⟩
  · obtain ⟨visited, pending, path, hrun, hnext⟩ := Pending.path
      (a := { a with work := a.work.put e.1 e.2 }) { hpending with } hpattern e.1
    rw [load?, if_neg he, if_neg he]
    exact ⟨_, hrun, { h with work := by rw [h.work] }, hnext⟩

/-- The pattern of the row is pending when its column has been taken in. -/
theorem foldlM_load (forest : Forest n) (h : a.Tracks F f k.val)
    (hidle : ∀ c, a.visited.get c = false) (entries : List (Fin n × α)) : ∃ b count, entries.foldlM (load? forest k) (a, 0)
        = some (b, count) ∧ b.Tracks F (entries.foldl (Factors.load k) f) k.val ∧
      b.Pending count (forest.rowPattern k (entries.map Prod.fst)) := by
  have hrun : ∀ (entries : List (Fin n × α)) (f : Factors α n) (a : LdlArrays α n) (count : Nat)
      (seen rows : List (Fin n)), a.Tracks F f k.val → a.Pending count seen →
      forest.IsPattern k rows seen → ∃ b count', entries.foldlM (load? forest k) (a, count)
        = some (b, count') ∧ b.Tracks F (entries.foldl (Factors.load k) f) k.val ∧
        b.Pending count' ((entries.map Prod.fst).foldl
          (fun seen i => forest.path (stops k seen) i ++ seen) seen) := by
    intro entries
    induction entries with
    | nil => exact fun f a count seen rows h hpending _ => ⟨a, count, rfl, h, hpending⟩
    | cons e entries ih =>
      intro f a count seen rows h hpending hpattern
      obtain ⟨b, hb, hload, hnext⟩ := h.load hpending hpattern e
      obtain ⟨c, count', hc, hall, hlast⟩ := ih _ b _ _ _ hload hnext (hpattern.append_path e.1)
      exact ⟨c, count', by rw [List.foldlM_cons, hb]; exact hc, hall, hlast⟩
  exact hrun entries f a 0 [] [] h ⟨fun c => by simp [hidle c], rfl, by simp⟩
    (Forest.isPattern_nil forest k)

/-- An accepted pivot is stored. -/
theorem accept (h : a.Tracks F f k.val) (x : α) (positive : Nat) :
    Tracks F { f with Dinv := f.Dinv.put k x, positive := positive } (k.val + 1)
      { a with Dinv := a.Dinv.put k x } :=
  { h with
    Dinv := fun c => by
      rw [Vec.get_put_eq, Vec.get_put_eq, h.Dinv]
      by_cases hc : c = k
      · simp [hc]
      · have hiff : c.val < k.val + 1 ↔ c.val < k.val := by
          have : c.val ≠ k.val := fun heq => hc (Fin.ext heq)
          omega
        simp [hc, hiff] }

variable [Scalar α]

theorem eliminate_eq (f : Factors α n) (k c : Fin n) : Factors.eliminate k f c = { f with
    lower := Vec.put f.lower c (f.lower.get c ++ [(k, f.rest.get c * f.Dinv.get c)])
    D := f.D.put k (f.D.get k - f.rest.get c * (f.rest.get c * f.Dinv.get c))
    rest := ((f.lower.get c).foldl (fun y e => y.put e.1 (y.get e.1 - e.2 * f.rest.get c))
      f.rest).put c 0 } := rfl

/-- A column is eliminated, and its entry is appended. -/
theorem eliminate (h : a.Tracks F f k.val) {c : Fin n} (hc : c < k)
    (hfits : ∀ d, (f.lower.get d).length ≤ (F.lower.get d).length)
    (hroom : (f.lower.get c).length < (F.lower.get c).length) :
    ∃ b, eliminate? k a c = some b ∧ b.Tracks F (Factors.eliminate k f c) k.val ∧
      b.visited = Vec.put a.visited c false := by
  have hDinv : a.Dinv.get c = f.Dinv.get c := (h.Dinv c).trans (if_pos hc)
  have hfirst : a.lower.colptr[c.val]? = some (offset F.lower.toList c.val) := by
    rw [h.lower, getElem?_colptr_storedColumns (Nat.le_of_lt c.isLt), Ldl.offset_store hfits]
  have hcolumn : a.lower.stretch? n (offset F.lower.toList c.val)
      (offset F.lower.toList c.val + (f.lower.get c).length) = some (f.lower.get c) := by
    have := stretch?_storedColumns (L := F.store f.lower) c (t := (f.lower.get c).length)
      (by rw [Ldl.length_store hfits]; exact hfits c)
    rwa [Ldl.offset_store hfits, Ldl.take_store, ← h.lower] at this
  obtain ⟨nzval, rowval, hnzval, hrowval, hlower⟩ := alter?_storedColumns (F.store f.lower) c
    (t := (f.lower.get c).length) (by rwa [Ldl.length_store hfits])
    (k, f.rest.get c * f.Dinv.get c)
  rw [Ldl.offset_store hfits, ← h.lower] at hnzval hrowval
  rw [← h.lower] at hlower
  unfold eliminate?
  simp only [h.next, hfirst, hcolumn, hDinv, h.work, hnzval, hrowval, bind, Option.bind_some, pure]
  refine ⟨_, rfl, ?_, rfl⟩
  rw [eliminate_eq]
  exact {
    lower := hlower.trans (congrArg storedColumns (Ldl.store_push hroom _).symm)
    next := fun d => by
      by_cases hd : d = c
      · subst hd
        simp [Nat.add_assoc]
      · simp only [Vec.get_put_ne _ (Ne.symm hd), h.next]
    D := by simp only [h.D]
    Dinv := h.Dinv
    work := rfl }

/-- The columns of the pattern are eliminated one after the other, and their marks are
cleared. -/
theorem foldlM_eliminate {l : List (Fin n)} (h : a.Tracks F f k.val) (hlt : ∀ c ∈ l, c < k)
    (hnodup : l.Nodup) (hmarked : ∀ c, a.visited.get c = true ↔ c ∈ l)
    (hroom : ∀ d, ((l.foldl (Factors.eliminate k) f).lower.get d).length
      ≤ (F.lower.get d).length) :
    ∃ b, l.foldlM (eliminate? k) a = some b ∧
      b.Tracks F (l.foldl (Factors.eliminate k) f) k.val ∧ ∀ c, b.visited.get c = false := by
  induction l generalizing f a with
  | nil => exact ⟨a, rfl, h, fun c => by simpa using hmarked c⟩
  | cons c l ih =>
    obtain ⟨hc, hl⟩ := List.nodup_cons.mp hnodup
    -- Every column grows by one entry if it is still to be eliminated.
    have hgrown : ∀ d, (f.lower.get d).length + (if d ∈ c :: l then 1 else 0)
        ≤ (F.lower.get d).length := by
      intro d
      have hmap := congrArg List.length (Factors.map_fst_foldl_eliminate k d hnodup f)
      have := hroom d
      rw [List.length_map, List.length_append, List.length_map] at hmap
      by_cases hd : d ∈ c :: l
      · rw [if_pos hd, List.length_singleton] at hmap
        rw [if_pos hd]
        omega
      · rw [if_neg hd, List.length_nil] at hmap
        rw [if_neg hd]
        omega
    have hnew := hgrown c
    rw [if_pos List.mem_cons_self] at hnew
    obtain ⟨b, hb, htracks, hvisited⟩ := h.eliminate (hlt c List.mem_cons_self)
      (fun d => Nat.le_of_add_right_le (hgrown d)) hnew
    obtain ⟨b', hb', hall, hidle⟩ := ih htracks (fun d hd => hlt d (List.mem_cons_of_mem _ hd)) hl
      (fun d => by
        rw [hvisited, Vec.get_put_eq]
        by_cases hd : d = c
        · subst hd
          simp [hc]
        · simp [hd, hmarked d]) hroom
    exact ⟨b', by rw [List.foldlM_cons, hb]; exact hb', hall, hidle⟩

/-- A row is reduced as on lists, if there is room for its entries. -/
theorem reduce (h : a.Tracks F f k.val) (hidle : ∀ c, a.visited.get c = false)
    (upper : Vector (List (Fin n × α)) n)
    (hroom : ∀ d, ((Factors.reduce forest upper f k).lower.get d).length
      ≤ (F.lower.get d).length) :
    ∃ b, a.reduce? forest (storedColumns upper) k = some b ∧
      b.Tracks F (Factors.reduce forest upper f k) k.val ∧ ∀ c, b.visited.get c = false := by
  obtain ⟨b, count, hb, hload, hpending⟩ := h.foldlM_load forest hidle (upper.get k)
  have hpattern := Forest.isPattern_rowPattern forest k ((upper.get k).map Prod.fst)
  have hlisted : (b.pending.toList.take count).reverse = Factors.pattern forest upper k := by
    rw [hpending.listed, List.reverse_reverse]
    rfl
  rw [reduce?, columnBelow?_storedColumns]
  simp only [bind, Option.bind_some, hb, hlisted]
  exact hload.foldlM_eliminate (fun c hc => ((hpattern.mem_iff c).mp hc).1) hpattern.nodup
    hpending.visited hroom

end Tracks

/-! ### All rows -/

variable [Scalar α] {F : Ldl α n} {forest : Forest n} {upper : Vector (List (Fin n × α)) n}

/-- Pivots are counted when they are accepted. -/
theorem reduce_positive (f : Factors α n) (k : Fin n) :
    (Factors.reduce forest upper f k).positive = f.positive := by
  have heliminate : ∀ (l : List (Fin n)) (f : Factors α n),
      (l.foldl (Factors.eliminate k) f).positive = f.positive := by
    intro l
    induction l with
    | nil => exact fun _ => rfl
    | cons c l ih => exact fun f => ih (Factors.eliminate k f c)
  rw [Factors.reduce, heliminate]
  exact (Factors.foldl_load_recip k (upper.get k) f).2

/-- What elimination in place leaves, for what elimination on lists does. -/
def Follows (F : Ldl α n) (run : Option (LdlArrays α n × Except LdlError Nat)) :
    Except (Fin n × Factors α n) (Factors α n) → Prop
  | .ok f => ∃ b, run = some (b, .ok f.positive) ∧ b.Tracks F f n
  | .error e => ∃ b, run = some (b, .error (.zeroPivot e.1)) ∧ b.Tracks F e.2 e.1.val

/-- The rows from one on are eliminated as on lists. -/
theorem rows?_follows (hroom : ∀ (j : Nat) (f : Factors α n), f.Shaped forest upper j →
      ∀ d, (f.lower.get d).length ≤ (F.lower.get d).length)
    (ks : List (Fin n)) {j : Nat} (hks : ks = (List.finRange n).drop j) (hj : j ≤ n)
    {f : Factors α n} {a : LdlArrays α n} (h : a.Tracks F f j)
    (hidle : ∀ c, a.visited.get c = false) (hshaped : f.Shaped forest upper j) {positive : Nat}
    (hpositive : f.positive = positive) :
    Follows F (rows? forest (storedColumns upper) a positive ks)
      (ks.foldlM (Factors.row forest upper) f) := by
  induction ks generalizing j f a positive with
  | nil =>
    have hn : n ≤ j := by simpa using List.drop_eq_nil_iff.mp hks.symm
    obtain rfl : j = n := by omega
    exact ⟨a, by rw [rows?, hpositive], h⟩
  | cons k ks ih =>
    have hjn : j < n := by
      by_contra hge
      rw [List.drop_of_length_le (by simpa using hge)] at hks
      cases hks
    obtain ⟨rfl, rfl⟩ := List.cons.inj (hks.trans (drop_finRange ⟨j, hjn⟩))
    have hreduce := hshaped.reduce (k := ⟨j, hjn⟩)
    obtain ⟨b, hb, hreduced, hclear⟩ := h.reduce (k := ⟨j, hjn⟩) hidle upper (hroom _ _ hreduce)
    have hpivot : b.D.get ⟨j, hjn⟩ = (Factors.reduce forest upper f ⟨j, hjn⟩).D.get ⟨j, hjn⟩ :=
      congrArg (Vector.get · _) hreduced.D
    rw [rows?, hb, List.foldlM_cons, Factors.row_eq, Factors.accept_eq]
    simp only [bind, Option.bind_some, hpivot]
    split
    · exact ⟨b, rfl, hreduced⟩
    · refine ih rfl hjn (hreduced.accept _ _) hclear (hreduce.of_lower_eq rfl) ?_
      rw [reduce_positive, hpositive]

end LdlArrays

/-! ### The object -/

namespace LdlStorage

/-- The cursors start where the columns start. -/
theorem next_eq_start {S : LdlStorage α n} {starts : List Nat} {next : Vector Nat n}
    (hstarts : slice? S.lower.colptr 0 n = some starts)
    (hnext : Vec.ofArray? n starts.toArray = some next) (c : Fin n) :
    next.get c = S.lower.start c := by
  unfold slice? at hstarts
  split at hstarts
  · cases hstarts
    unfold Vec.ofArray? at hnext
    split at hnext
    · rename_i hsize hcount
      cases hnext
      have hc : c.val < S.lower.colptr.size := by omega
      simp [Vec.get_eq_getElem, Csc.start, hc]
    · cases hnext
  · cases hstarts

/-- The object with what elimination has left, and the result. -/
def after (S : LdlStorage α n) (r : LdlArrays α n × Except LdlError Nat) :
    LdlStorage α n × Except LdlError Nat :=
  ({ S with
    toLdlArrays := r.1
    positive := match r.2 with
      | .ok positive => positive
      | .error _ => S.positive
    isFactored := r.2.isOk }, r.2)

/-- `S` holds a triangle with its forest, and the columns of `F` have room for the entries that
the analysis has counted. -/
structure Prepared (S : LdlStorage α n) (triangle : Vector (List (Fin n × α)) n)
    (F : Ldl α n) : Prop where
  upper : S.upper = storedColumns triangle
  forest : S.forest = (Analysis.run (Factors.rowsOf triangle)).forest
  counts : S.counts = (Analysis.run (Factors.rowsOf triangle)).counts
  lower : S.lower = storedColumns F.lower
  Dinv : S.Dinv = F.Dinv
  lengths : ∀ c, (F.lower.get c).length = S.counts.get c

namespace Prepared

variable {S : LdlStorage α n} {triangle : Vector (List (Fin n × α)) n} {F : Ldl α n}

theorem start_eq (h : S.Prepared triangle F) {j : Nat} (hj : j ≤ n) :
    S.lower.start j = offset F.lower.toList j := by
  rw [h.lower, start_storedColumns hj]

theorem hasRoom (h : S.Prepared triangle F) : S.HasRoom := by
  intro c
  rw [h.start_eq (Nat.succ_le_of_lt c.isLt), h.start_eq (Nat.le_of_lt c.isLt),
    offset_storedColumns_succ, h.lengths]

theorem exists_next (h : S.Prepared triangle F) : ∃ (starts : List Nat) (next : Vector Nat n),
    slice? S.lower.colptr 0 n = some starts ∧ Vec.ofArray? n starts.toArray = some next ∧
      ∀ c, next.get c = offset F.lower.toList c.val := by
  have hsize : n < S.lower.colptr.size := by
    have := getElem?_colptr_storedColumns (L := F.lower) (Nat.le_refl n)
    rw [h.lower]
    exact (Array.getElem?_eq_some_iff.mp this).1
  have hcount : (S.lower.colptr.extract 0 n).toList.toArray.size = n := by simp; omega
  have hstarts : slice? S.lower.colptr 0 n = some (S.lower.colptr.extract 0 n).toList :=
    if_pos ⟨Nat.zero_le n, by omega⟩
  refine ⟨_, _, hstarts, dif_pos hcount, fun c => ?_⟩
  rw [next_eq_start hstarts (dif_pos hcount), h.start_eq (Nat.le_of_lt c.isLt)]

/-- A column has room for what any number of rows have stored in it. -/
theorem length_le (h : S.Prepared triangle F) {k : Nat} {f : Factors α n}
    (hf : f.Shaped S.forest triangle k) (c : Fin n) :
    (f.lower.get c).length ≤ (F.lower.get c).length := by
  rw [h.lengths, h.counts]
  rw [h.forest] at hf
  exact hf.length_le_counts c

/-- All rows together fill it. -/
theorem length_eq (h : S.Prepared triangle F) {f : Factors α n}
    (hf : f.Shaped S.forest triangle n) (c : Fin n) :
    (f.lower.get c).length = S.counts.get c := by
  rw [h.counts]
  rw [h.forest] at hf
  exact hf.length_eq_counts c

variable [Scalar α]

/-- No row has been stored when elimination starts. -/
theorem begin_tracks (h : S.Prepared triangle F) {next : Vector Nat n}
    (hnext : ∀ c, next.get c = offset F.lower.toList c.val) :
    (S.begin next).Tracks F (Factors.start α n) 0 where
  lower := by
    rw [Factors.start, Ldl.store_nil]
    exact h.lower
  next c := by
    rw [Factors.start, Vec.get_replicate]
    exact hnext c
  D := rfl
  Dinv c := by
    rw [if_neg (Nat.not_lt_zero _)]
    exact congrArg (Vector.get · c) h.Dinv
  work := rfl

/-- Elimination follows that on lists, whatever is in the workspace. -/
theorem rows_follow (h : S.Prepared triangle F) {next : Vector Nat n}
    (hnext : ∀ c, next.get c = offset F.lower.toList c.val) :
    LdlArrays.Follows F
      (LdlArrays.rows? S.forest S.upper (S.begin next) 0 (List.finRange n))
      (Factors.compute S.forest triangle) := by
  rw [h.upper]
  exact LdlArrays.rows?_follows (fun j f hf => h.length_le hf) (List.finRange n) rfl
    (Nat.zero_le n) (h.begin_tracks hnext) (fun c => Vec.get_replicate _ _)
    (fun c => by simp [Factors.start]) rfl

/-- Factoring in place follows factoring on lists. -/
theorem refactor (h : S.Prepared triangle F) : ∃ run, S.refactor? = run.map S.after ∧
    LdlArrays.Follows F run (Factors.compute S.forest triangle) := by
  obtain ⟨starts, next, hstarts, hnext, hget⟩ := h.exists_next
  refine ⟨_, ?_, h.rows_follow hget⟩
  rw [refactor?, if_pos h.hasRoom, hstarts]
  simp only [bind, Option.bind_some, hnext]
  cases LdlArrays.rows? S.forest S.upper (S.begin next) 0 (List.finRange n) <;> rfl

/-- What a factorisation leaves in the columns of the factor. -/
theorem exists_tracks (h : S.Prepared triangle F) :
    ∃ T result f k j, S.refactor? = some (T, result) ∧ T.toLdlArrays.Tracks F f k ∧
      f.Shaped S.forest triangle j ∧ ∀ p, result = .ok p → j = n := by
  obtain ⟨run, hrefactor, hrun⟩ := h.refactor
  have hshaped := Factors.compute_shaped S.forest triangle
  rw [hrefactor]
  cases hcompute : Factors.compute S.forest triangle with
  | ok f =>
    rw [hcompute] at hrun
    obtain ⟨b, rfl, htracks⟩ := hrun
    exact ⟨_, _, f, n, n, rfl, htracks, hshaped.1 f hcompute, fun _ _ => rfl⟩
  | error e =>
    rw [hcompute] at hrun
    obtain ⟨b, rfl, htracks⟩ := hrun
    exact ⟨_, _, e.2, _, _, rfl, htracks, hshaped.2 e hcompute, fun p hp => by cases hp⟩

end Prepared

namespace Represents

variable [Scalar α] {S : LdlStorage α n} {F : Ldl α n} {A : Csc α}

theorem prepared (h : S.Represents F) (hF : F.Analysed A) : S.Prepared F.upperValues F where
  upper := h.upper
  forest := h.forest.trans hF.forest_eq
  counts := h.counts.trans hF.counts_eq
  lower := h.lower
  Dinv := h.Dinv
  lengths c := by rw [hF.lengths, h.counts]

/-- Factoring in place is factoring. -/
theorem refactor (h : S.Represents F) (hF : F.Analysed A) :
    ∃ T, S.refactor? = some (T, F.factor.2) ∧ T.Represents F.factor.1 := by
  obtain ⟨run, hrefactor, hrun⟩ := (h.prepared hF).refactor
  rw [h.forest] at hrun
  unfold Ldl.factor
  rw [hrefactor]
  cases hcompute : Factors.compute F.forest F.upperValues with
  | ok f =>
    rw [hcompute] at hrun
    obtain ⟨b, rfl, htracks⟩ := hrun
    exact ⟨_, rfl, { h with
      lower := htracks.lower
      D := htracks.D
      Dinv := Vec.ext_get fun c => (htracks.Dinv c).trans (if_pos c.isLt)
      positive := rfl
      isFactored := rfl }⟩
  | error e =>
    obtain ⟨k, f⟩ := e
    rw [hcompute] at hrun
    obtain ⟨b, rfl, htracks⟩ := hrun
    exact ⟨_, rfl, { h with
      lower := htracks.lower
      D := htracks.D
      Dinv := Vec.ext_get fun c => by
        rw [Vec.get_ofFn]
        exact htracks.Dinv c
      isFactored := rfl }⟩

end Represents
end LdlStorage
end QuadOpt
