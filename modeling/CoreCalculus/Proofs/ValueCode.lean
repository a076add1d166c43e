/-
  CoreCalculus/Proofs/ValueCode.lean
  ==================================
  **The code of values.**

  A value is an abstraction, a constant with arguments, or stuck (`Evaluated.cases`).  This is
  seen on its code: the code of an abstraction is a combinator that lacks exactly one
  argument, and no other term has such code (`isFunction_code_iff`); a constant stays a constant with
  as many arguments; and the code of a stuck value is headed by the operator it is stuck on.

  Data and its image are the same tree (`Images`), so operations that look at data as a
  whole agree on both sides.
-/
import CoreCalculus.Proofs.BigStep
import CoreCalculus.Proofs.Compilation
import CoreCalculus.Proofs.Stability

namespace CoreCalculus

open Code

/-! ### Values -/

namespace Term

/-- A literal or a constructor. -/
inductive IsConstant : Term → Prop
  | lit (l : Literal) : IsConstant (.lit l)
  | ctor (name : String) : IsConstant (.ctor name)

/-- An operator on operands that it has no result for, possibly with arguments. -/
inductive Stuck : Term → Prop
  | binary {op : BinaryOp} {a b : Term} : op.onTerms a b = .ok none → Stuck (.binary op a b)
  | not {a : Term} : (∀ b, a ≠ .lit (.bool b)) → Stuck (.not a)
  | cond {a : Term} (b e : Term) : (∀ b, a ≠ .lit (.bool b)) → Stuck (.cond a b e)
  | app {f : Term} (a : Term) : Stuck f → Stuck (.app f a)

theorem apply_append (head : Term) (args rest : List Term) :
    head.apply (args ++ rest) = (head.apply args).apply rest := by
  rw [apply, List.foldl_append]
  rfl

theorem spine_apply (head : Term) (args : List Term) :
    (head.apply args).spine = (head.spine.1, head.spine.2 ++ args) := by
  induction args generalizing head with
  | nil => simp [apply]
  | cons a args ih =>
    have hcons : head.apply (a :: args) = (head.app a).apply args := rfl
    rw [hcons, ih, spine, List.append_assoc]
    rfl

/-- Data is a literal, or a constructor with data for its arguments. -/
theorem isData_cases {v : Term} (h : v.isData) :
    (∃ l, v = .lit l) ∨ ∃ name args, v = (Term.ctor name).apply args ∧ ∀ a ∈ args, a.isData := by
  induction v using induct with
  | lit l => exact .inl ⟨l, rfl⟩
  | ctor name => exact .inr ⟨name, [], rfl, List.forall_mem_nil _⟩
  | app f a ihf _ =>
    rw [isData, Bool.and_eq_true, Bool.and_eq_true] at h
    obtain ⟨⟨hliteral, hf⟩, ha⟩ := h
    rcases ihf hf with ⟨l, rfl⟩ | ⟨name, args, rfl, hargs⟩
    · cases hliteral
    · refine .inr ⟨name, args ++ [a], (apply_append (.ctor name) args [a]).symm, ?_⟩
      rw [List.forall_mem_append, List.forall_mem_singleton]
      exact ⟨hargs, ha⟩
  | _ => cases h

/-- Data is a constant with arguments. -/
theorem exists_apply_of_isData {v : Term} (h : v.isData) :
    ∃ (k : Term) (vs : List Term), k.IsConstant ∧ v = k.apply vs := by
  rcases isData_cases h with ⟨l, rfl⟩ | ⟨name, args, rfl, -⟩
  · exact ⟨.lit l, [], .lit l, rfl⟩
  · exact ⟨.ctor name, args, .ctor name, rfl⟩

theorem eq_lit_of_literal? {v : Term} {l : Literal} (h : v.literal? = some l) : v = .lit l := by
  cases v <;> cases h
  rfl

theorem IsConstant.spine_apply {k : Term} (hk : k.IsConstant) (args : List Term) :
    (k.apply args).spine = (k, args) := by
  rw [Term.spine_apply]
  cases hk <;> rfl

theorem literal?_apply_ctor (name : String) (args : List Term) :
    ((Term.ctor name).apply args).literal? = none := by
  refine Option.eq_none_iff_forall_ne_some.2 fun l hl => ?_
  have hspine := (IsConstant.ctor name).spine_apply args
  rw [eq_lit_of_literal? hl] at hspine
  cases hspine

/-- A value is an abstraction, a constant with arguments, or stuck. -/
theorem Evaluated.cases {v : Term} (hv : v.Evaluated) :
    (∃ x t, v = .abs x t) ∨
    (∃ (k : Term) (vs : List Term), k.IsConstant ∧ v = k.apply vs ∧ ∀ u ∈ vs, u.Evaluated) ∨
    v.Stuck := by
  induction hv with
  | lit l => exact .inr (.inl ⟨.lit l, [], .lit l, rfl, by simp⟩)
  | abs x t => exact .inl ⟨x, t, rfl⟩
  | ctor name => exact .inr (.inl ⟨.ctor name, [], .ctor name, rfl, by simp⟩)
  | @app f a _ ha hneutral ihf _ =>
    rcases ihf with ⟨x, t, rfl⟩ | ⟨k, vs, hk, rfl, hvs⟩ | hstuck
    · exact absurd rfl (hneutral x t)
    · refine .inr (.inl ⟨k, vs ++ [a], hk, (apply_append k vs [a]).symm, ?_⟩)
      simpa [or_imp, forall_and] using ⟨hvs, ha⟩
    · exact .inr (.inr (.app a hstuck))
  | binary _ _ hnone => exact .inr (.inr (.binary hnone))
  | not _ hneutral => exact .inr (.inr (.not hneutral))
  | cond b e _ hneutral => exact .inr (.inr (.cond b e hneutral))

/-! ### Their code -/

variable {optimize : Bool}

theorem code_apply (head : Term) (args : List Term) :
    (head.apply args).code optimize =
      (head.code optimize).apply (args.map fun a => a.code optimize) := by
  induction args generalizing head with
  | nil => rfl
  | cons a args ih => exact ih (head.app a)

theorem IsConstant.spine_code {k : Term} (hk : k.IsConstant) (optimize : Bool) :
    (k.code optimize).spine = (k.code optimize, []) := by
  cases hk <;> rfl

end Term

namespace Code

/-- A function from bracket abstraction: a combinator that lacks one argument. -/
def IsFunction (c : Code) : Prop :=
  ∃ combinator, combinator ≠ .y ∧ c.spine.1 = .comb combinator ∧
    c.spine.2.length + 1 = combinator.arity

/-- It lets no rule apply. -/
theorem IsFunction.waits {c : Code} (h : c.IsFunction) :
    c.spine.1.Waits c.spine.2.length := by
  obtain ⟨combinator, -, hhead, hlength⟩ := h
  rw [hhead]
  exact Nat.lt_of_succ_le (Nat.le_of_eq hlength)

theorem isFunction_abstract (optimize : Bool) (x : String) (c : Code) :
    (c.abstract optimize x).IsFunction := by
  have hk : ∀ d : Code, (Code.app (.comb .k) d).IsFunction := fun d => ⟨.k, by decide, rfl, rfl⟩
  cases c with
  | var y =>
    rw [abstract]
    split
    · exact ⟨.i, by decide, rfl, rfl⟩
    · exact hk _
  | const constant => exact hk _
  | comb combinator => exact hk _
  | app f a =>
    rw [abstract]
    split_ifs
    · exact hk _
    · exact ⟨.s, by decide, rfl, rfl⟩
    · exact ⟨.c, by decide, rfl, rfl⟩
    · exact ⟨.b, by decide, rfl, rfl⟩

end Code

namespace Term

variable {optimize : Bool}

/-- No term has code that lacks more than one argument. -/
theorem arity_le_of_code {t : Term} {combinator : Combinator} (hy : combinator ≠ .y)
    (h : (t.code optimize).spine.1 = .comb combinator) :
    combinator.arity ≤ (t.code optimize).spine.2.length + 1 := by
  induction t using induct with
  | app f a ihf _ =>
    refine (ihf h).trans ?_
    rw [code_app, Code.spine, List.length_append]
    omega
  | abs x b _ =>
    obtain ⟨combinator', -, hhead, hlength⟩ := isFunction_abstract optimize x (b.code optimize)
    rw [code_abs, hhead] at h
    cases h
    rw [code_abs, hlength]
  | fix x b _ => exact absurd (Code.comb.inj h).symm hy
  | select a cases _ _ =>
    rw [code_select, spine_apply_of_leaf rfl] at h
    cases h
  | _ => cases h

/-- The code of abstractions, and of no other terms, is a function. -/
theorem isFunction_code_iff {t : Term} :
    (t.code optimize).IsFunction ↔ ∃ x b, t = .abs x b := by
  constructor
  · rintro ⟨combinator, hy, hhead, hlength⟩
    cases t with
    | abs x b => exact ⟨x, b, rfl⟩
    | app f a =>
      have hle := arity_le_of_code hy (t := f) hhead
      rw [code_app, Code.spine, List.length_append, List.length_singleton] at hlength
      omega
    | fix x b => exact absurd (Code.comb.inj hhead).symm hy
    | select a cases =>
      rw [code_select, spine_apply_of_leaf rfl] at hhead
      cases hhead
    | _ => cases hhead
  · rintro ⟨x, b, rfl⟩
    exact isFunction_abstract optimize x _

/-- An abstraction, or a constant with arguments, lets no rule apply. -/
theorem waits_code {v : Term} (h : (∃ x t, v = .abs x t) ∨
    ∃ (k : Term) (vs : List Term), k.IsConstant ∧ v = k.apply vs) :
    (v.code optimize).spine.1.Waits (v.code optimize).spine.2.length := by
  rcases h with ⟨x, t, rfl⟩ | ⟨k, vs, hk, rfl⟩
  · rw [code_abs]
    exact (isFunction_abstract optimize x _).waits
  · rw [code_apply, spine_apply_of_leaf (hk.spine_code optimize)]
    cases hk <;> trivial

end Term

/-! ### Data -/

namespace Code

/-- Headed by a literal or by a constructor. -/
def Plain (w : Code) : Prop := ∃ k : Term, Images k w.spine.1

theorem plain_apply_iff {head : Code} {args : List Code} :
    (head.apply args).Plain ↔ head.Plain := by
  rw [Plain, Plain, spine_apply]

theorem not_plain_comb {w : Code} {combinator : Combinator} (h : w.spine.1 = .comb combinator) :
    ¬ w.Plain := by
  rintro ⟨k, hk⟩
  rw [h] at hk
  cases hk

theorem not_plain_prim {op : Primitive} : ¬ Plain (.const (.prim op)) := by
  rintro ⟨k, hk⟩
  cases hk

theorem plain_of_spine_lit {w : Code} {l : Literal} {args : List Code}
    (h : w.spine = (.const (.lit l), args)) : w.Plain := ⟨.lit l, by rw [h]; exact .lit l⟩

theorem plain_of_spine_ctor {w : Code} {name : String} {args : List Code}
    (h : w.spine = (.const (.ctor name), args)) : w.Plain :=
  ⟨.ctor name, by rw [h]; exact .ctor name⟩

theorem plain_of_literal? {w : Code} {l : Literal} (h : w.literal? = some l) : w.Plain :=
  plain_of_spine_lit (literal?_eq_some_iff.1 h)

/-- Data is a constant applied to data. -/
theorem plain_of_isData {d : Code} (h : d.isData) : d.Plain ∧ ∀ a ∈ d.spine.2, a.isData := by
  induction d with
  | const k =>
    refine ⟨?_, by simp [spine]⟩
    cases k with
    | lit l => exact ⟨.lit l, .lit l⟩
    | ctor name => exact ⟨.ctor name, .ctor name⟩
    | _ => cases h
  | app f a ihf _ =>
    rw [isData, Bool.and_eq_true, Bool.and_eq_true] at h
    obtain ⟨hplain, hargs⟩ := ihf h.1.2
    refine ⟨hplain, ?_⟩
    simpa [spine, or_imp, forall_and] using ⟨hargs, h.2⟩
  | _ => cases h

end Code

theorem Term.IsConstant.images {k : Term} (hk : k.IsConstant) (optimize : Bool) :
    Images k (k.code optimize) := by
  cases hk with
  | lit l => exact .lit l
  | ctor name => exact .ctor name

namespace Images

theorem eq_code {v : Term} {c : Code} (h : Images v c) (optimize : Bool) :
    c = v.code optimize := by
  induction h with
  | lit l => rfl
  | ctor name => rfl
  | app _ _ ihf iha => rw [Term.code_app, ihf, iha]

theorem apply {v : Term} {c : Code} {vs : List Term} {cs : List Code} (h : Images v c)
    (hs : List.Forall₂ Images vs cs) : Images (v.apply vs) (c.apply cs) := by
  induction hs generalizing v c with
  | nil => exact h
  | cons ha _ ih => exact ih (.app h ha)

theorem literal?_eq {v : Term} {c : Code} (h : Images v c) : c.literal? = v.literal? := by
  cases h <;> rfl

theorem isData_eq {v : Term} {c : Code} (h : Images v c) : c.isData = v.isData := by
  induction h with
  | lit l => rfl
  | ctor name => rfl
  | app hf ha ihf iha => rw [Code.isData, Term.isData, ihf, iha, hf.literal?_eq]

theorem eq_iff {v w : Term} {c d : Code} (hv : Images v c) (hw : Images w d) : c = d ↔ v = w := by
  constructor
  · rintro rfl
    induction hv generalizing w with
    | lit l =>
      cases hw
      rfl
    | ctor name =>
      cases hw
      rfl
    | app _ _ ihf iha =>
      cases hw with
      | app hf ha => rw [ihf hf, iha ha]
  · rintro rfl
    rw [hv.eq_code false, hw.eq_code false]

end Images

/-- A constant with arguments is a literal on both sides or on neither. -/
theorem Term.IsConstant.literal?_apply {k : Term} (hk : k.IsConstant) (optimize : Bool)
    {vs : List Term} {cs : List Code} (hlength : cs.length = vs.length) :
    ((k.code optimize).apply cs).literal? = (k.apply vs).literal? := by
  refine Option.ext fun l => ?_
  rw [literal?_eq_some_iff, spine_apply_of_leaf (hk.spine_code optimize), Prod.mk.injEq,
    ← List.length_eq_zero_iff, hlength, List.length_eq_zero_iff]
  constructor
  · rintro ⟨hhead, rfl⟩
    cases hk <;> cases hhead
    rfl
  · intro hl
    have hspine := hk.spine_apply vs
    rw [eq_lit_of_literal? hl] at hspine
    obtain ⟨rfl, rfl⟩ := Prod.mk.inj hspine
    exact ⟨rfl, rfl⟩

end CoreCalculus
