/-
  CoreCalculus/Proofs/OptimizedSize.lean
  ======================================
  **The optimization never makes code longer.**

  At one application `B` or `C` saves the `K` that plain abstraction puts in front of the
  part without the variable.  But the results are abstracted again by the binders further
  out, and every application on the way to a variable gets a leaf of its own; so what is
  saved cannot be counted where it is saved.

  The two codes of a term are compared as trees.  `Pads n o u`: `u` is `o` with `S` for
  some of the `B` and `C`, and with closed functions put in front of some parts; there are
  at least `n` more of these than of the replaced leaves.  A closed function `W` in front
  of a part is still there after abstraction, as `S (K W)`, so abstraction of both trees
  keeps `n` (`Pads.abstract`).  Hence each `B` and each `C` saves a leaf, and code without
  them is the plain code.
-/
import CoreCalculus.Proofs.Twins

namespace CoreCalculus

namespace Code

/-! ### Counting `B` and `C` -/

/-- How many leaves are `B` or `C`. -/
def shortcuts : Code → Nat
  | .comb .b => 1
  | .comb .c => 1
  | .app f a => f.shortcuts + a.shortcuts
  | _ => 0

theorem shortcuts_apply_eq_zero_iff {head : Code} {args : List Code} :
    (head.apply args).shortcuts = 0 ↔ head.shortcuts = 0 ∧ ∀ a ∈ args, a.shortcuts = 0 := by
  induction args generalizing head with
  | nil => simp [apply]
  | cons a args ih =>
    have hcons : head.apply (a :: args) = (head.app a).apply args := rfl
    rw [hcons, ih, shortcuts, Nat.add_eq_zero_iff, List.forall_mem_cons, and_assoc]

theorem size_pos (c : Code) : 0 < c.size := by
  induction c with
  | app f a ihf _ => exact Nat.add_pos_left ihf _
  | _ => exact Nat.one_pos

section

variable {x : String}

/-- Plain abstraction goes into both parts of an application. -/
theorem abstract_false_app {f a : Code} (h : x ∈ f.free ∨ x ∈ a.free) :
    (app f a).abstract false x =
      .app (.app (.comb .s) (f.abstract false x)) (a.abstract false x) := by
  rw [abstract, if_neg (by rwa [← not_or, not_not]), if_pos (.inr rfl)]

/-- Abstraction keeps all leaves of a body but its variable. -/
theorem shortcuts_le_abstract (optimize : Bool) (c : Code) :
    c.shortcuts ≤ (c.abstract optimize x).shortcuts := by
  induction c with
  | var y => exact Nat.zero_le _
  | const constant => exact Nat.zero_le _
  | comb combinator => exact Nat.le_add_left _ _
  | app f a ihf iha =>
    rw [abstract]
    split_ifs <;> simp only [shortcuts] <;> omega

/-- Plain abstraction uses neither `B` nor `C`. -/
theorem shortcuts_abstract_false (c : Code) : (c.abstract false x).shortcuts = c.shortcuts := by
  induction c with
  | var y =>
    rw [abstract]
    split <;> rfl
  | const constant => rfl
  | comb combinator => exact Nat.zero_add _
  | app f a ihf iha =>
    by_cases hx : x ∈ f.free ∨ x ∈ a.free
    · rw [abstract_false_app hx]
      simp only [shortcuts, Nat.zero_add, ihf, iha]
    · rw [abstract_of_not_mem false (by rwa [free, List.mem_append])]
      exact Nat.zero_add _

/-- Abstraction that has used neither `B` nor `C` is plain abstraction. -/
theorem abstract_eq_of_shortcuts {c : Code} (h : (c.abstract true x).shortcuts = c.shortcuts) :
    c.abstract true x = c.abstract false x := by
  induction c with
  | var y => rfl
  | const constant => rfl
  | comb combinator => rfl
  | app f a ihf iha =>
    have hf := shortcuts_le_abstract (x := x) true f
    have ha := shortcuts_le_abstract (x := x) true a
    rw [abstract] at h ⊢
    split_ifs at h ⊢ with hneither hboth hfunc <;> simp only [shortcuts] at h
    · rw [abstract_of_not_mem false (by simpa [free] using hneither)]
    · have hx : x ∈ f.free ∨ x ∈ a.free := of_not_not fun hx => hneither (not_or.1 hx)
      rw [abstract_false_app hx, ihf (by omega), iha (by omega)]
    · omega
    · omega

end

/-! ### Padding -/

/-- `u` is `o` with `S` for some of the `B` and `C`, and with closed functions in front of
    some parts: at least `n` more of them than of the replaced leaves. -/
inductive Pads : Int → Code → Code → Prop
  | var (y : String) : Pads 0 (.var y) (.var y)
  | const (constant : Constant) : Pads 0 (.const constant) (.const constant)
  | comb (combinator : Combinator) : Pads 0 (.comb combinator) (.comb combinator)
  | b : Pads (-1) (.comb .b) (.comb .s)
  | c : Pads (-1) (.comb .c) (.comb .s)
  | app {m n : Int} {f f' a a' : Code} : Pads m f f' → Pads n a a' →
      Pads (m + n) (.app f a) (.app f' a')
  | pad {n : Int} {w o u : Code} : w.free = [] → Pads n o u → Pads (n + 1) o (.app w u)
  | le {m n : Int} {o u : Code} : Pads n o u → m ≤ n → Pads m o u

namespace Pads

variable {n : Int} {o u : Code} {x : String}

theorem mem_free_iff (h : Pads n o u) : x ∈ o.free ↔ x ∈ u.free := by
  induction h with
  | app _ _ ihf iha => rw [free, free, List.mem_append, List.mem_append, ihf, iha]
  | pad hw _ ih => rw [free, hw, List.nil_append, ih]
  | le _ _ ih => exact ih
  | _ => rfl

/-- A closed function is a leaf at least. -/
theorem size_add_shortcuts_le (h : Pads n o u) :
    o.size + o.shortcuts + n ≤ u.size + u.shortcuts := by
  induction h with
  | app _ _ ihf iha =>
    simp only [size, shortcuts]
    omega
  | @pad _ w _ _ _ _ ih =>
    have hw := w.size_pos
    simp only [size, shortcuts]
    omega
  | le _ _ ih => omega
  | _ => simp [size, shortcuts]

theorem abstract (h : Pads n o u) : Pads n (o.abstract true x) (u.abstract false x) := by
  have hconst : ∀ {n : Int} {o u : Code}, Pads n o u → x ∉ o.free →
      Pads n (o.abstract true x) (u.abstract false x) := by
    intro n o u h hx
    rw [abstract_of_not_mem true hx, abstract_of_not_mem false (h.mem_free_iff.not.1 hx)]
    exact (app (.comb .k) h).le (by omega)
  induction h with
  | var y =>
    rw [Code.abstract, Code.abstract]
    split
    · exact .comb .i
    · exact app (.comb .k) (.var y)
  | const constant => exact hconst (.const constant) List.not_mem_nil
  | comb combinator => exact hconst (.comb combinator) List.not_mem_nil
  | b => exact hconst .b List.not_mem_nil
  | c => exact hconst .c List.not_mem_nil
  | @app m n f f' a a' hf ha ihf iha =>
    by_cases hx : x ∈ f.free ∨ x ∈ a.free
    swap
    · exact hconst (.app hf ha) (by rwa [free, List.mem_append])
    have hneither : ¬ (x ∉ f.free ∧ x ∉ a.free) := by rwa [← not_or, not_not]
    rw [abstract_false_app (hx.imp hf.mem_free_iff.1 ha.mem_free_iff.1), Code.abstract,
      if_neg hneither]
    split_ifs with hboth hfunc
    · exact (app (app (.comb .s) ihf) iha).le (by omega)
    · -- `C` for `S`, and `K` in front of the argument
      have hxa : x ∉ a'.free := fun hxa => hboth (.inl ⟨hfunc, ha.mem_free_iff.2 hxa⟩)
      rw [abstract_of_not_mem false hxa]
      exact (app (app .c ihf) (pad (w := .comb .k) rfl ha)).le (by omega)
    · -- `B` for `S`, and `K` in front of the function
      rw [abstract_of_not_mem false (hf.mem_free_iff.not.1 hfunc)]
      exact (app (app .b (pad (w := .comb .k) rfl hf)) iha).le (by omega)
  | @pad n w o u hw hu ih =>
    by_cases hx : x ∈ o.free
    · -- the closed function stays closed, and in front of the abstraction
      have hxw : x ∉ w.free := by simp [hw]
      rw [abstract_false_app (.inr (hu.mem_free_iff.1 hx)), abstract_of_not_mem false hxw]
      exact pad (by simp [free, hw]) ih
    · exact hconst (.pad hw hu) hx
  | le _ hle ih => exact ih.le hle

end Pads

/-! ### The two codes of a term -/

namespace Siblings

variable {o u : Code}

/-- The plain code pads the optimized one. -/
theorem pads (h : Siblings true false o u) : Pads 0 o u := by
  induction h with
  | var y => exact .var y
  | const constant => exact .const constant
  | comb combinator => exact .comb combinator
  | app _ _ ihf iha => exact .app ihf iha
  | abstract x _ ih => exact ih.abstract

/-- The optimized code has at least as many `B` and `C`, and with as many it is the plain code. -/
theorem shortcuts_le (h : Siblings true false o u) :
    u.shortcuts ≤ o.shortcuts ∧ (u.shortcuts = o.shortcuts → o = u) := by
  induction h with
  | app _ _ ihf iha =>
    simp only [shortcuts]
    refine ⟨Nat.add_le_add ihf.1 iha.1, fun heq => ?_⟩
    rw [ihf.2 (by omega), iha.2 (by omega)]
  | @abstract b b' x _ ih =>
    have hle := shortcuts_le_abstract (x := x) true b
    rw [shortcuts_abstract_false]
    refine ⟨ih.1.trans hle, fun heq => ?_⟩
    obtain rfl := ih.2 (by omega)
    exact abstract_eq_of_shortcuts heq.symm
  | _ => exact ⟨Nat.le_refl _, fun _ => rfl⟩

end Siblings

/-- Plain code has neither `B` nor `C`. -/
theorem shortcuts_code_false (t : Term) : (t.code false).shortcuts = 0 := by
  have habstractAll : ∀ (xs : List String) (c : Code),
      (c.abstractAll false xs).shortcuts = c.shortcuts := by
    intro xs c
    induction xs with
    | nil => rfl
    | cons x xs ih => exact (shortcuts_abstract_false _).trans ih
  induction t using Term.induct with
  | app f a ihf iha => rw [Term.code_app, shortcuts, ihf, iha]
  | abs x t ih => rw [Term.code_abs, shortcuts_abstract_false, ih]
  | fix x t ih => simp [Term.code_fix, shortcuts, shortcuts_abstract_false, ih]
  | binary op a b iha ihb =>
    rw [Term.code_binary, shortcuts_apply_eq_zero_iff]
    simp [shortcuts, iha, ihb]
  | not a ih =>
    rw [Term.code_not, shortcuts_apply_eq_zero_iff]
    simp [shortcuts, ih]
  | cond a b e iha ihb ihe =>
    rw [Term.code_cond, shortcuts_apply_eq_zero_iff]
    simp [shortcuts, iha, ihb, ihe]
  | select a cases iha ihc =>
    rw [Term.code_select, shortcuts_apply_eq_zero_iff, List.forall_mem_cons, List.forall_mem_map]
    refine ⟨rfl, iha, fun c hc => ?_⟩
    rw [Term.caseCode, habstractAll, ihc c hc]
  | _ => rfl

end Code

namespace Term

/-- Each `B` and each `C` saves a leaf. -/
theorem size_add_shortcuts_le (t : Term) :
    (t.code true).size + (t.code true).shortcuts ≤ (t.code false).size := by
  have hle := (Code.siblings_code true false t).pads.size_add_shortcuts_le
  rw [Code.shortcuts_code_false] at hle
  omega

/-- **The optimization never makes code longer.**  The optimized code is the plain code, and then it
    has neither `B` nor `C`, or it is shorter. -/
theorem optimized_size (t : Term) :
    ∃ o u, t.compile true = .ok o ∧ t.compile false = .ok u ∧ o.size ≤ u.size ∧
      (o.size = u.size ↔ o = u) ∧ (o = u ↔ o.shortcuts = 0) ∧ (o ≠ u → o.size < u.size) := by
  have hsize := t.size_add_shortcuts_le
  have hplain := Code.shortcuts_code_false t
  have hsame : (t.code true).shortcuts = 0 → t.code true = t.code false := fun hnone =>
    (Code.siblings_code true false t).shortcuts_le.2 (hplain.trans hnone.symm)
  refine ⟨t.code true, t.code false, compile_eq true t, compile_eq false t, by omega,
    ⟨fun heq => hsame (by omega), fun heq => heq ▸ rfl⟩,
    ⟨fun heq => heq ▸ hplain, hsame⟩, fun hne => ?_⟩
  have hsome : (t.code true).shortcuts ≠ 0 := fun hnone => hne (hsame hnone)
  omega

end Term

end CoreCalculus
