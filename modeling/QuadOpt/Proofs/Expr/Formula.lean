/-
# What an expression means

A formula is made of numbers and variables by operators. Each operator makes an operand of
the kind that its operands require, or is not there for them, and what it makes has the
value that the operator gives their values. So the expression that is built by the operators
of a formula evaluates to the value of the formula, at each point that has a coordinate for
its variables.

Key definitions: `Kind`, `UnaryOp`, `BinaryOp`, `Formula`, `Formula.build?`,
`Formula.value`.
Key theorems: `BinaryOp.kind_result?`, `BinaryOp.fits_of_result?`, `BinaryOp.value_of_result?`,
`Formula.build_evaluates`.
-/
import QuadOpt.Expr.Operand
import QuadOpt.Proofs.Expr.Value
import QuadOpt.Proofs.Expr.Variables

namespace QuadOpt

/-! ### Kinds -/

/-- The kinds of operands. -/
inductive Kind where
  | number
  | var
  | affine
  | quadratic
  deriving DecidableEq, Repr

/-- The kind of a multiple by a number. -/
def Kind.scaled? : Kind → Option Kind
  | number => none
  | var | affine => some affine
  | quadratic => some quadratic

section Operands

variable {α : Type} [Scalar α]

namespace Operand

def kind : Operand α → Kind
  | number _ => .number
  | var _ => .var
  | affine _ => .affine
  | quadratic _ => .quadratic

/-- The value at a point. -/
def value (o : Operand α) (x : Variable → α) : α :=
  match o with
  | number c => c
  | var v => x v
  | affine e => e.value x
  | quadratic e => e.value x

/-- The variables are among the first `n`. -/
def fits (o : Operand α) (n : Nat) : Bool :=
  match o with
  | number _ => true
  | var v => v.index < n
  | affine e => e.fits n
  | quadratic e => e.fits n

/-- The value at a point that is given by its coordinates, if it has one for each variable. -/
def evaluate? (o : Operand α) (x : Array α) : Option α :=
  match o with
  | number c => some c
  | var v => x[v.index]?
  | affine e => e.evaluate? x
  | quadratic e => e.evaluate? x

/-- The keys of the quadratic terms. -/
def pairs : Operand α → List VarPair
  | quadratic e => e.quadratic.keys
  | _ => []

theorem evaluate?_of_fits {o : Operand α} {x : Array α} (h : o.fits x.size = true) :
    o.evaluate? x = some (o.value fun v => x.getD v.index 0) := by
  cases o with
  | number c => rfl
  | var v =>
    have hv : v.index < x.size := by simpa [fits] using h
    simp [evaluate?, value, hv]
  | affine e | quadratic e => exact if_pos h

end Operand

/-! ### Operators -/

/-- What is made of one operand. -/
inductive UnaryOp (α : Type) where
  | neg
  /-- a conversion to an affine expression -/
  | toAffine
  /-- a conversion to a quadratic expression -/
  | toQuadratic
  /-- an affine expression, after a term was added to it -/
  | addTerm (v : Variable) (c : α)
  /-- a quadratic expression, after a term was added to it -/
  | addProduct (v w : Variable) (c : α)

/-- How two operands are combined. Methods that copy an expression do what the operators do
for two of one kind, and those that change one in place do what the assigning operators do: an
expression is increased or decreased by a number, a variable or an expression, and rescaled by
a number. -/
inductive BinaryOp where
  | add
  | sub
  | mul
  /-- the first operand, after the second was added to it -/
  | increase
  /-- the first operand, after the second was subtracted from it -/
  | decrease
  /-- the first operand, after it was multiplied by the second -/
  | rescale
  deriving DecidableEq, Repr

namespace UnaryOp

def result? (op : UnaryOp α) (a : Operand α) : Option (Operand α) :=
  match op, a with
  | neg, a => a.neg?
  | toAffine, a => a.toLinExpr?.map .affine
  | toQuadratic, a => some (.quadratic a.toQuadExpr)
  | addTerm v c, .affine e => some (.affine (e.addTerm v c))
  | addProduct v w c, .quadratic e => some (.quadratic (e.addProduct v w c))
  | _, _ => none

/-- The kind of what is made of an operand, if the operator is there for it. -/
def kind? (op : UnaryOp α) (k : Kind) : Option Kind :=
  match op, k with
  | neg, k => k.scaled?
  | toAffine, .quadratic => none
  | toAffine, _ => some .affine
  | toQuadratic, _ => some .quadratic
  | addTerm .., .affine => some .affine
  | addProduct .., .quadratic => some .quadratic
  | _, _ => none

/-- The variables that the operator brings in. -/
def vars : UnaryOp α → List Variable
  | addTerm v _ => [v]
  | addProduct v w _ => [v, w]
  | _ => []

/-- What the operator does to a value. -/
def value (op : UnaryOp α) (x : Variable → α) (a : α) : α :=
  match op with
  | neg => -a
  | toAffine | toQuadratic => a
  | addTerm v c => a + c * x v
  | addProduct v w c => a + c * x v * x w

end UnaryOp

namespace BinaryOp

def result? (op : BinaryOp) (a b : Operand α) : Option (Operand α) :=
  match op with
  | add => a.add? b
  | sub => a.sub? b
  | mul => a.mul? b
  | increase => a.increase? b
  | decrease => a.decrease? b
  | rescale => a.rescale? b

/-- The kind of what two operands are combined to, if the operator is there for them. -/
def kind? (op : BinaryOp) (k l : Kind) : Option Kind :=
  match op, k, l with
  | add, .number, .number | sub, .number, .number => none
  | add, k, l | sub, k, l =>
    some (if k = .quadratic ∨ l = .quadratic then .quadratic else .affine)
  | mul, k, .number => k.scaled?
  | mul, .number, l => l.scaled?
  | mul, k, l => if k = .quadratic ∨ l = .quadratic then none else some .quadratic
  | increase, .affine, l | decrease, .affine, l =>
    if l = .quadratic then none else some .affine
  | increase, .quadratic, _ | decrease, .quadratic, _ => some .quadratic
  | rescale, .affine, .number => some .affine
  | rescale, .quadratic, .number => some .quadratic
  | _, _, _ => none

/-- What the operator does to two values. -/
def value : BinaryOp → α → α → α
  | add, a, b | increase, a, b => a + b
  | sub, a, b | decrease, a, b => a - b
  | mul, a, b | rescale, a, b => a * b

end BinaryOp

theorem Operand.kind_scale? (a : Operand α) (k : α) :
    (a.scale? k).map kind = a.kind.scaled? := by
  cases a <;> rfl

theorem UnaryOp.kind_result? (op : UnaryOp α) (a : Operand α) :
    (op.result? a).map Operand.kind = op.kind? a.kind := by
  cases op with
  | neg => exact a.kind_scale? (-1)
  | toAffine | toQuadratic | addTerm | addProduct => cases a <;> rfl

/-- An operator is there for operands of certain kinds. -/
theorem BinaryOp.kind_result? (op : BinaryOp) (a b : Operand α) :
    (op.result? a b).map Operand.kind = op.kind? a.kind b.kind := by
  cases op <;> cases a <;> cases b <;> rfl

/-! ### What operators make of operands -/

namespace Operand

variable {a b o : Operand α} {n : Nat}

/-- Operands are combined as affine expressions, or as quadratic ones. -/
theorem combine?_cases {lin : LinExpr α → LinExpr α → LinExpr α}
    {quad : QuadExpr α → QuadExpr α → QuadExpr α} (h : combine? lin quad a b = some o) :
    (∃ e f, a.toLinExpr? = some e ∧ b.toLinExpr? = some f ∧ o = affine (lin e f)) ∨
      o = quadratic (quad a.toQuadExpr b.toQuadExpr) := by
  cases a <;> cases b <;> cases h
  all_goals first
    | exact .inr rfl
    | exact .inl ⟨_, _, rfl, rfl, rfl⟩

/-- One factor is a number, or both are affine. -/
theorem mul?_cases (h : a.mul? b = some o) :
    (∃ k, b = number k ∧ a.scale? k = some o) ∨ (∃ k, a = number k ∧ b.scale? k = some o) ∨
      ∃ e f, a.toLinExpr? = some e ∧ b.toLinExpr? = some f ∧ o = quadratic (e.product f) := by
  cases b with
  | number k => exact .inl ⟨k, rfl, by cases a <;> exact h⟩
  | var | affine | quadratic =>
    cases a with
    | number k => exact .inr (.inl ⟨k, rfl, h⟩)
    | var | affine | quadratic =>
      cases h <;> exact .inr (.inr ⟨_, _, rfl, rfl, rfl⟩)

/-- An operand that is not quadratic, as a change of affine expressions. -/
def increment? : Operand α → Option (LinExpr α → LinExpr α)
  | number c => some (·.addConstant c)
  | var v => some (·.addVariable v)
  | affine f => some (· + f)
  | quadratic _ => none

/-- The opposite change. -/
def decrement? : Operand α → Option (LinExpr α → LinExpr α)
  | number c => some (·.subtractConstant c)
  | var v => some (·.subtractVariable v)
  | affine f => some (· - f)
  | quadratic _ => none

/-- A quadratic operand changes quadratic expressions, and any other one the affine part of an
expression. -/
theorem increase?_cases (h : a.increase? b = some o) :
    (∃ e f, a = quadratic e ∧ b = quadratic f ∧ o = quadratic (e + f)) ∨
      ∃ g, b.increment? = some g ∧ ((∃ e, a = affine e ∧ o = affine (g e)) ∨
        ∃ e, a = quadratic e ∧ o = quadratic (e.mapLinear g)) := by
  cases a <;> cases b <;> cases h
  all_goals first
    | exact .inl ⟨_, _, rfl, rfl, rfl⟩
    | exact .inr ⟨_, rfl, .inl ⟨_, rfl, rfl⟩⟩
    | exact .inr ⟨_, rfl, .inr ⟨_, rfl, rfl⟩⟩

theorem decrease?_cases (h : a.decrease? b = some o) :
    (∃ e f, a = quadratic e ∧ b = quadratic f ∧ o = quadratic (e - f)) ∨
      ∃ g, b.decrement? = some g ∧ ((∃ e, a = affine e ∧ o = affine (g e)) ∨
        ∃ e, a = quadratic e ∧ o = quadratic (e.mapLinear g)) := by
  cases a <;> cases b <;> cases h
  all_goals first
    | exact .inl ⟨_, _, rfl, rfl, rfl⟩
    | exact .inr ⟨_, rfl, .inl ⟨_, rfl, rfl⟩⟩
    | exact .inr ⟨_, rfl, .inr ⟨_, rfl, rfl⟩⟩

theorem rescale?_cases (h : a.rescale? b = some o) : ∃ k, b = number k ∧ a.scale? k = some o := by
  cases a <;> cases b <;> cases h <;> exact ⟨_, rfl, rfl⟩

/-! ### Variables -/

theorem fits_toLinExpr? {e : LinExpr α} (h : a.toLinExpr? = some e) (ha : a.fits n = true) :
    e.fits n = true := by
  cases a with
  | number c => cases h; rfl
  | var v => cases h; exact LinExpr.fits_ofVariable (by simpa [fits] using ha)
  | affine e => cases h; exact ha
  | quadratic e => cases h

theorem fits_toQuadExpr (ha : a.fits n = true) : a.toQuadExpr.fits n = true := by
  cases a with
  | number c => rfl
  | var v => exact LinExpr.fits_ofVariable (by simpa [fits] using ha)
  | affine e | quadratic e => exact ha

theorem fits_of_scale? {k : α} (h : a.scale? k = some o) (ha : a.fits n = true) :
    o.fits n = true := by
  cases a with
  | number c => cases h
  | var v =>
    cases h
    exact LinExpr.fits_scale (LinExpr.fits_ofVariable (by simpa [fits] using ha)) k
  | affine e => cases h; exact LinExpr.fits_scale ha k
  | quadratic e => cases h; exact QuadExpr.fits_scale ha k

theorem fits_of_increment? {g : LinExpr α → LinExpr α}
    (h : a.increment? = some g ∨ a.decrement? = some g) (ha : a.fits n = true) {e : LinExpr α}
    (he : e.fits n = true) : (g e).fits n = true := by
  cases a with
  | number c => rcases h with h | h <;> cases h <;> exact he
  | var v =>
    have hv : v.index < n := by simpa [fits] using ha
    rcases h with h | h
    · cases h; exact LinExpr.fits_addTerm he hv 1
    · cases h; exact LinExpr.fits_addTerm he hv (-1)
  | affine f =>
    rcases h with h | h
    · cases h; exact LinExpr.fits_add he ha
    · cases h; exact LinExpr.fits_sub he ha
  | quadratic f => rcases h with h | h <;> cases h

end Operand

open Operand

theorem UnaryOp.fits_of_result? {op : UnaryOp α} {a o : Operand α} {n : Nat}
    (h : op.result? a = some o) (ha : a.fits n = true) (hop : ∀ v ∈ op.vars, v.index < n) :
    o.fits n = true := by
  cases op with
  | neg => exact fits_of_scale? h ha
  | toAffine =>
    obtain ⟨e, he, rfl⟩ := Option.map_eq_some_iff.mp h
    exact fits_toLinExpr? he ha
  | toQuadratic =>
    cases h
    exact fits_toQuadExpr ha
  | addTerm v c =>
    cases a with
    | affine e => cases h; exact LinExpr.fits_addTerm ha (hop v (by simp [vars])) c
    | number | var | quadratic => cases h
  | addProduct v w c =>
    cases a with
    | quadratic e =>
      cases h
      exact QuadExpr.fits_addProduct ha (hop v (by simp [vars])) (hop w (by simp [vars])) c
    | number | var | affine => cases h

/-- An operator brings in no variables of its own. -/
theorem BinaryOp.fits_of_result? {op : BinaryOp} {a b o : Operand α} {n : Nat}
    (h : op.result? a b = some o) (ha : a.fits n = true) (hb : b.fits n = true) :
    o.fits n = true := by
  cases op with
  | add =>
    rcases combine?_cases h with ⟨e, f, he, hf, rfl⟩ | rfl
    · exact LinExpr.fits_add (fits_toLinExpr? he ha) (fits_toLinExpr? hf hb)
    · exact QuadExpr.fits_add (fits_toQuadExpr ha) (fits_toQuadExpr hb)
  | sub =>
    rcases combine?_cases h with ⟨e, f, he, hf, rfl⟩ | rfl
    · exact LinExpr.fits_sub (fits_toLinExpr? he ha) (fits_toLinExpr? hf hb)
    · exact QuadExpr.fits_sub (fits_toQuadExpr ha) (fits_toQuadExpr hb)
  | mul =>
    rcases mul?_cases h with ⟨k, rfl, hk⟩ | ⟨k, rfl, hk⟩ | ⟨e, f, he, hf, rfl⟩
    · exact fits_of_scale? hk ha
    · exact fits_of_scale? hk hb
    · exact LinExpr.fits_product (fits_toLinExpr? he ha) (fits_toLinExpr? hf hb)
  | increase =>
    rcases increase?_cases h with
      ⟨e, f, rfl, rfl, rfl⟩ | ⟨g, hg, ⟨e, rfl, rfl⟩ | ⟨e, rfl, rfl⟩⟩
    · exact QuadExpr.fits_add ha hb
    · exact fits_of_increment? (.inl hg) hb ha
    · exact QuadExpr.fits_mapLinear (fits_of_increment? (.inl hg) hb) ha
  | decrease =>
    rcases decrease?_cases h with
      ⟨e, f, rfl, rfl, rfl⟩ | ⟨g, hg, ⟨e, rfl, rfl⟩ | ⟨e, rfl, rfl⟩⟩
    · exact QuadExpr.fits_sub ha hb
    · exact fits_of_increment? (.inr hg) hb ha
    · exact QuadExpr.fits_mapLinear (fits_of_increment? (.inr hg) hb) ha
  | rescale =>
    obtain ⟨k, rfl, hk⟩ := rescale?_cases h
    exact fits_of_scale? hk ha

end Operands

/-! ### Values -/

section Value

variable {K : Type} [Field K] [LinearOrder K] [ExactScalar K] {x : Variable → K}

namespace Operand

variable {a o : Operand K}

theorem value_toLinExpr? {e : LinExpr K} (h : a.toLinExpr? = some e) : e.value x = a.value x := by
  cases a with
  | number c => cases h; exact LinExpr.value_ofConstant c x
  | var v => cases h; exact LinExpr.value_ofVariable v x
  | affine e => cases h; rfl
  | quadratic e => cases h

theorem value_toQuadExpr (a : Operand K) : a.toQuadExpr.value x = a.value x := by
  cases a with
  | number c => exact LinExpr.value_ofConstant c x
  | var v => exact LinExpr.value_ofVariable v x
  | affine e | quadratic e => rfl

theorem value_of_scale? {k : K} (h : a.scale? k = some o) : o.value x = a.value x * k := by
  cases a with
  | number c => cases h
  | var v =>
    cases h
    show ((LinExpr.ofVariable v).scale k).value x = _
    rw [LinExpr.value_scale, LinExpr.value_ofVariable]
    rfl
  | affine e => cases h; exact LinExpr.value_scale e k x
  | quadratic e => cases h; exact QuadExpr.value_scale e k x

theorem value_of_increment? {g : LinExpr K → LinExpr K} (h : a.increment? = some g)
    (e : LinExpr K) : (g e).value x = e.value x + a.value x := by
  cases a with
  | number c => cases h; exact LinExpr.value_addConstant e c x
  | var v => cases h; exact LinExpr.value_addVariable e v x
  | affine f => cases h; exact LinExpr.value_add e f x
  | quadratic f => cases h

theorem value_of_decrement? {g : LinExpr K → LinExpr K} (h : a.decrement? = some g)
    (e : LinExpr K) : (g e).value x = e.value x - a.value x := by
  cases a with
  | number c => cases h; exact LinExpr.value_subtractConstant e c x
  | var v => cases h; exact LinExpr.value_subtractVariable e v x
  | affine f => cases h; exact LinExpr.value_sub e f x
  | quadratic f => cases h

end Operand

open Operand

theorem UnaryOp.value_of_result? {op : UnaryOp K} {a o : Operand K} (h : op.result? a = some o) :
    o.value x = op.value x (a.value x) := by
  cases op with
  | neg =>
    rw [value_of_scale? h]
    exact mul_neg_one _
  | toAffine =>
    obtain ⟨e, he, rfl⟩ := Option.map_eq_some_iff.mp h
    exact value_toLinExpr? he
  | toQuadratic =>
    cases h
    exact value_toQuadExpr a
  | addTerm v c =>
    cases a with
    | affine e => cases h; exact LinExpr.value_addTerm e v c x
    | number | var | quadratic => cases h
  | addProduct v w c =>
    cases a with
    | quadratic e => cases h; exact QuadExpr.value_addProduct e v w c x
    | number | var | affine => cases h

/-- What an operator makes of operands has the value that it gives their values. -/
theorem BinaryOp.value_of_result? {op : BinaryOp} {a b o : Operand K}
    (h : op.result? a b = some o) : o.value x = op.value (a.value x) (b.value x) := by
  cases op with
  | add =>
    rcases combine?_cases h with ⟨e, f, he, hf, rfl⟩ | rfl
    · rw [Operand.value, LinExpr.value_add, value_toLinExpr? he, value_toLinExpr? hf]
      rfl
    · rw [Operand.value, QuadExpr.value_add, value_toQuadExpr, value_toQuadExpr]
      rfl
  | sub =>
    rcases combine?_cases h with ⟨e, f, he, hf, rfl⟩ | rfl
    · rw [Operand.value, LinExpr.value_sub, value_toLinExpr? he, value_toLinExpr? hf]
      rfl
    · rw [Operand.value, QuadExpr.value_sub, value_toQuadExpr, value_toQuadExpr]
      rfl
  | mul =>
    rcases mul?_cases h with ⟨k, rfl, hk⟩ | ⟨k, rfl, hk⟩ | ⟨e, f, he, hf, rfl⟩
    · exact value_of_scale? hk
    · rw [value_of_scale? hk]
      exact mul_comm _ _
    · rw [Operand.value, LinExpr.value_product, value_toLinExpr? he, value_toLinExpr? hf]
      rfl
  | increase =>
    rcases increase?_cases h with
      ⟨e, f, rfl, rfl, rfl⟩ | ⟨g, hg, ⟨e, rfl, rfl⟩ | ⟨e, rfl, rfl⟩⟩
    · exact QuadExpr.value_add e f x
    · exact value_of_increment? hg e
    · exact QuadExpr.value_mapLinear e x (value_of_increment? hg e.linear)
  | decrease =>
    rcases decrease?_cases h with
      ⟨e, f, rfl, rfl, rfl⟩ | ⟨g, hg, ⟨e, rfl, rfl⟩ | ⟨e, rfl, rfl⟩⟩
    · exact QuadExpr.value_sub e f x
    · exact value_of_decrement? hg e
    · have hlinear := value_of_decrement? (x := x) hg e.linear
      rw [sub_eq_add_neg] at hlinear
      rw [Operand.value, QuadExpr.value_mapLinear e x hlinear, ← sub_eq_add_neg]
      rfl
  | rescale =>
    obtain ⟨k, rfl, hk⟩ := rescale?_cases h
    exact value_of_scale? hk

end Value

/-! ### Formulas -/

/-- A nesting of operators over numbers and variables. -/
inductive Formula (α : Type) where
  | number (c : α)
  | var (v : Variable)
  | unary (op : UnaryOp α) (f : Formula α)
  | binary (op : BinaryOp) (f g : Formula α)

namespace Formula

section Build

variable {α : Type} [Scalar α]

/-- What the operators of a formula make of its numbers and variables, one after the other. -/
def build? : Formula α → Option (Operand α)
  | number c => some (.number c)
  | var v => some (.var v)
  | unary op f => f.build?.bind op.result?
  | binary op f g => f.build?.bind fun a => g.build?.bind (op.result? a)

/-- The kind of a formula, if all of its operators are there for the kinds of their operands. -/
def kind? : Formula α → Option Kind
  | number _ => some .number
  | var _ => some .var
  | unary op f => f.kind?.bind op.kind?
  | binary op f g => f.kind?.bind fun k => g.kind?.bind (op.kind? k)

/-- All variables that a formula mentions. -/
def vars : Formula α → List Variable
  | number _ => []
  | var v => [v]
  | unary op f => f.vars ++ op.vars
  | binary _ f g => f.vars ++ g.vars

/-- The value of a formula at a point. -/
def value (x : Variable → α) : Formula α → α
  | number c => c
  | var v => x v
  | unary op f => op.value x (f.value x)
  | binary op f g => op.value (f.value x) (g.value x)

/-- An expression is built iff the formula has a kind, and is of this kind. -/
theorem kind_build? (f : Formula α) : f.build?.map Operand.kind = f.kind? := by
  induction f with
  | number c => rfl
  | var v => rfl
  | unary op f ih =>
    rw [build?, kind?, ← ih]
    cases f.build? with
    | none => rfl
    | some a => exact op.kind_result? a
  | binary op f g ihf ihg =>
    rw [build?, kind?, ← ihf, ← ihg]
    cases f.build? with
    | none => rfl
    | some a =>
      cases g.build? with
      | none => rfl
      | some b => exact op.kind_result? a b

theorem fits_of_build? {f : Formula α} {o : Operand α} {n : Nat} (h : f.build? = some o)
    (hvars : ∀ v ∈ f.vars, v.index < n) : o.fits n = true := by
  induction f generalizing o with
  | number c => cases h; rfl
  | var v => cases h; exact decide_eq_true (hvars v (by simp [vars]))
  | unary op f ih =>
    obtain ⟨a, ha, hop⟩ := Option.bind_eq_some_iff.mp h
    rw [vars, List.forall_mem_append] at hvars
    exact UnaryOp.fits_of_result? hop (ih ha hvars.1) hvars.2
  | binary op f g ihf ihg =>
    obtain ⟨a, ha, hrest⟩ := Option.bind_eq_some_iff.mp h
    obtain ⟨b, hb, hop⟩ := Option.bind_eq_some_iff.mp hrest
    rw [vars, List.forall_mem_append] at hvars
    exact BinaryOp.fits_of_result? hop (ihf ha hvars.1) (ihg hb hvars.2)

end Build

variable {K : Type} [Field K] [LinearOrder K] [ExactScalar K]

theorem value_of_build? {f : Formula K} {o : Operand K} {x : Variable → K}
    (h : f.build? = some o) : o.value x = f.value x := by
  induction f generalizing o with
  | number c => cases h; rfl
  | var v => cases h; rfl
  | unary op f ih =>
    obtain ⟨a, ha, hop⟩ := Option.bind_eq_some_iff.mp h
    rw [UnaryOp.value_of_result? hop, ih ha]
    rfl
  | binary op f g ihf ihg =>
    obtain ⟨a, ha, hrest⟩ := Option.bind_eq_some_iff.mp h
    obtain ⟨b, hb, hop⟩ := Option.bind_eq_some_iff.mp hrest
    rw [BinaryOp.value_of_result? hop, ihf ha, ihg hb]
    rfl

/-- A formula whose operators are there for their operands builds an expression. It evaluates to
the value of the formula at every point with a coordinate for each variable, and names each
product of variables with the smaller index first. -/
theorem build_evaluates {f : Formula K} {k : Kind} (hkind : f.kind? = some k) :
    ∃ o, f.build? = some o ∧ o.kind = k ∧
      (∀ x : Array K, (∀ v ∈ f.vars, v.index < x.size) →
        o.evaluate? x = some (f.value fun v => x.getD v.index 0)) ∧
      ∀ p ∈ o.pairs, p.first.index ≤ p.second.index := by
  obtain ⟨o, ho, hok⟩ := Option.map_eq_some_iff.mp ((kind_build? f).trans hkind)
  refine ⟨o, ho, hok, fun x hx => ?_, fun p _ => p.ordered⟩
  rw [Operand.evaluate?_of_fits (fits_of_build? ho hx), value_of_build? ho]

/-- The formula `(x + 2) (3 y - 1)`, which is then increased by `-x`. -/
def bilinear : Formula ℚ :=
  .binary .increase
    (.binary .mul (.binary .add (.var ⟨0⟩) (.number 2))
      (.binary .sub (.binary .mul (.number 3) (.var ⟨1⟩)) (.number 1)))
    (.unary .neg (.var ⟨0⟩))

theorem build_evaluates_bilinear : bilinear.kind? = some .quadratic ∧
    ∃ o, bilinear.build? = some o ∧ o.evaluate? #[1, 2] = some 14 := by
  obtain ⟨o, ho, -, hevaluate, -⟩ := build_evaluates (f := bilinear) (k := .quadratic) rfl
  refine ⟨rfl, o, ho, (hevaluate #[1, 2] (by decide)).trans ?_⟩
  decide +kernel

end Formula
end QuadOpt
