/-
  CoreCalculus/Proofs/Compilation.lean
  ====================================
  **What a term compiles to.**

  Bracket abstraction never fails on code, so compilation is a total function on terms,
  defined along their structure: `Term.code`.  The code of a binder has no trace of the
  name it binds, and every other free name stays: a term and its code have the same free
  names (`Term.compilation_total`).

  Which rule abstraction uses at an application depends on where the variable is free.
  Substitution that does not capture the variable leaves that as it is; so abstraction
  commutes with it, and with renaming the variable (`Code.abstract_subst`).  With the
  substitution lemma of terms, compilation commutes with substitution
  (`Term.code_substMany`), whatever fresh names were made up.
-/
import Mathlib.Logic.Function.Basic
import CoreCalculus.Mixed.Bracket
import CoreCalculus.Proofs.Closed

namespace CoreCalculus

/-! ### Abstraction of code -/

namespace Code

/-- Replace the names, all at once. -/
def subst (σ : String → Code) : Code → Code
  | .var x => σ x
  | .const constant => .const constant
  | .comb combinator => .comb combinator
  | .app f a => .app (f.subst σ) (a.subst σ)

/-- Code that behaves as a function of `x`. -/
def abstract (optimize : Bool) (x : String) : Code → Code
  | .var y => if y = x then .comb .i else .app (.comb .k) (.var y)
  | .const constant => .app (.comb .k) (.const constant)
  | .comb combinator => .app (.comb .k) (.comb combinator)
  | .app f a =>
    if x ∉ f.free ∧ x ∉ a.free then .app (.comb .k) (.app f a)
    else if (x ∈ f.free ∧ x ∈ a.free) ∨ !optimize then
      .app (.app (.comb .s) (f.abstract optimize x)) (a.abstract optimize x)
    else if x ∈ f.free then .app (.app (.comb .c) (f.abstract optimize x)) a
    else .app (.app (.comb .b) f) (a.abstract optimize x)

/-- Abstract several variables, the last one innermost. -/
def abstractAll (optimize : Bool) (xs : List String) (c : Code) : Code :=
  xs.foldr (abstract optimize) c

/-- Bind names one after another: a later piece of code for a name wins. -/
def bindAll (σ : String → Code) (pairs : List (String × Code)) : String → Code :=
  pairs.foldl (fun σ e => Function.update σ e.1 e.2) σ

/-! ### Substitution -/

theorem subst_congr {σ σ' : String → Code} {c : Code} (h : ∀ x ∈ c.free, σ x = σ' x) :
    c.subst σ = c.subst σ' := by
  induction c with
  | var x => exact h x (by simp [free])
  | const constant => rfl
  | comb combinator => rfl
  | app f a ihf iha =>
    simp only [free, List.mem_append, or_imp, forall_and] at h
    rw [subst, subst, ihf h.1, iha h.2]

theorem subst_var (c : Code) : c.subst .var = c := by
  induction c with
  | var x => rfl
  | const constant => rfl
  | comb combinator => rfl
  | app f a ihf iha => rw [subst, ihf, iha]

/-- What is put in for a name that is not free plays no part. -/
theorem subst_update_eq {x : String} {c : Code} (hx : x ∉ c.free) (σ : String → Code) (a : Code) :
    c.subst (Function.update σ x a) = c.subst σ :=
  subst_congr fun y hy => Function.update_of_ne (fun heq : y = x => hx (heq ▸ hy)) _ _

/-- Replacing names that are not free changes nothing. -/
theorem subst_eq_self {σ : String → Code} {c : Code} (h : ∀ x ∈ c.free, σ x = .var x) :
    c.subst σ = c := by
  rw [subst_congr h, subst_var]

theorem subst_update_of_not_mem {x : String} {c : Code} (hx : x ∉ c.free) (a : Code) :
    c.subst (Function.update .var x a) = c := by
  rw [subst_update_eq hx, subst_var]

theorem mem_free_subst {σ : String → Code} {c : Code} {y : String} :
    y ∈ (c.subst σ).free ↔ ∃ x ∈ c.free, y ∈ (σ x).free := by
  induction c with
  | var x => simp [subst, free]
  | const constant => simp [subst, free]
  | comb combinator => simp [subst, free]
  | app f a ihf iha =>
    simp only [subst, free, List.mem_append, ihf, iha, or_and_right, exists_or]

theorem subst_apply (σ : String → Code) (head : Code) (args : List Code) :
    (head.apply args).subst σ = (head.subst σ).apply (args.map (subst σ)) := by
  induction args generalizing head with
  | nil => rfl
  | cons a args ih => exact ih (head.app a)

theorem mem_free_apply {head : Code} {args : List Code} {x : String} :
    x ∈ (head.apply args).free ↔ x ∈ head.free ∨ ∃ a ∈ args, x ∈ a.free := by
  induction args generalizing head with
  | nil => simp [apply]
  | cons a args ih =>
    have hcons : head.apply (a :: args) = (head.app a).apply args := rfl
    rw [hcons, ih, free, List.mem_append, or_assoc]
    simp only [List.mem_cons, exists_eq_or_imp]

/-! ### Abstraction -/

variable (optimize : Bool)

/-- A constant function. -/
theorem abstract_of_not_mem {x : String} {c : Code} (h : x ∉ c.free) :
    c.abstract optimize x = .app (.comb .k) c := by
  cases c with
  | var y =>
    have hyx : y ≠ x := fun heq => h (by simp [free, heq])
    rw [abstract, if_neg hyx]
  | const constant => rfl
  | comb combinator => rfl
  | app f a =>
    rw [free, List.mem_append, not_or] at h
    rw [abstract, if_pos h]

theorem mem_free_abstract {x y : String} {c : Code} :
    y ∈ (c.abstract optimize x).free ↔ y ∈ c.free ∧ y ≠ x := by
  induction c with
  | var z =>
    rw [abstract]
    split
    · rename_i hz
      simp [free, hz]
    · rename_i hz
      simp only [free, List.nil_append, List.mem_singleton]
      exact ⟨fun h => ⟨h, h ▸ hz⟩, fun h => h.1⟩
  | const constant => simp [abstract, free]
  | comb combinator => simp [abstract, free]
  | app f a ihf iha =>
    rw [abstract]
    split_ifs with h₁ h₂ h₃
    · simp only [free, List.nil_append, List.mem_append]
      grind
    · simp only [free, List.nil_append, List.mem_append, ihf, iha, or_and_right]
    · simp only [free, List.nil_append, List.mem_append, ihf]
      grind
    · simp only [free, List.nil_append, List.mem_append, iha]
      grind

theorem mem_free_abstractAll {xs : List String} {y : String} {c : Code} :
    y ∈ (c.abstractAll optimize xs).free ↔ y ∈ c.free ∧ y ∉ xs := by
  induction xs with
  | nil => simp [abstractAll]
  | cons x xs ih =>
    have hcons : c.abstractAll optimize (x :: xs) =
        (c.abstractAll optimize xs).abstract optimize x := rfl
    rw [hcons, mem_free_abstract, ih, List.mem_cons, not_or, and_assoc]
    exact and_congr_right fun _ => and_comm

/-- Abstraction of `z`, which stands for `x`, in a body where nothing else that is put in
    mentions `z`: the same rules apply, as they did for `x`. -/
theorem abstract_subst {x z : String} {σ : String → Code} {c : Code}
    (h : ∀ y ∈ c.free, y ≠ x → z ∉ (σ y).free) :
    (c.subst (Function.update σ x (.var z))).abstract optimize z =
      (c.abstract optimize x).subst σ := by
  have hmem : ∀ c : Code, (∀ y ∈ c.free, y ≠ x → z ∉ (σ y).free) →
      (z ∈ (c.subst (Function.update σ x (.var z))).free ↔ x ∈ c.free) := by
    intro c h
    rw [mem_free_subst]
    constructor
    · rintro ⟨y, hy, hz⟩
      by_cases hyx : y = x
      · exact hyx ▸ hy
      · rw [Function.update_of_ne hyx] at hz
        exact absurd hz (h y hy hyx)
    · exact fun hx => ⟨x, hx, by simp [free]⟩
  induction c with
  | var y =>
    by_cases hyx : y = x
    · subst hyx
      simp [subst, abstract]
    · have hzy : z ∉ (σ y).free := h y (by simp [free]) hyx
      rw [subst, Function.update_of_ne hyx, abstract_of_not_mem optimize hzy, abstract,
        if_neg hyx]
      rfl
  | const constant => rfl
  | comb combinator => rfl
  | app f a ihf iha =>
    simp only [free, List.mem_append, or_imp, forall_and] at h
    obtain ⟨hf, ha⟩ := h
    simp only [subst, abstract, hmem f hf, hmem a ha, ihf hf, iha ha]
    split_ifs with h₁ h₂ h₃
    · rw [subst_update_eq h₁.1, subst_update_eq h₁.2]
      rfl
    · rfl
    · have hxa : x ∉ a.free := fun hxa => h₂ (.inl ⟨h₃, hxa⟩)
      rw [subst_update_eq hxa]
      rfl
    · rw [subst_update_eq h₃]
      rfl

theorem update_var_eq {σ : String → Code} {x : String} (h : σ x = .var x) :
    Function.update σ x (.var x) = σ := by
  rw [← h, Function.update_eq_self]

/-- Below variables that are not replaced, and that no replacement mentions. -/
theorem abstractAll_subst {xs : List String} {σ : String → Code} {c : Code}
    (hself : ∀ x ∈ xs, σ x = .var x) (h : ∀ y ∈ c.free, y ∉ xs → ∀ x ∈ xs, x ∉ (σ y).free) :
    (c.subst σ).abstractAll optimize xs = (c.abstractAll optimize xs).subst σ := by
  induction xs with
  | nil => rfl
  | cons x xs ih =>
    rw [List.forall_mem_cons] at hself
    have hxs : ∀ y ∈ c.free, y ∉ xs → ∀ w ∈ xs, w ∉ (σ y).free := by
      intro y hy hyxs w hw
      by_cases hyx : y = x
      · rw [hyx, hself.1, free, List.mem_singleton]
        exact fun hwx => hyxs (hyx ▸ hwx ▸ hw)
      · exact h y hy (by simp [hyx, hyxs]) w (List.mem_cons_of_mem x hw)
    have hcons : ∀ c : Code, c.abstractAll optimize (x :: xs) =
        (c.abstractAll optimize xs).abstract optimize x := fun _ => rfl
    rw [hcons, hcons, ih hself.2 hxs]
    nth_rewrite 1 [← update_var_eq hself.1]
    refine abstract_subst optimize fun y hy hyx => ?_
    rw [mem_free_abstractAll] at hy
    exact h y hy.1 (by simp [hyx, hy.2]) x List.mem_cons_self

/-- One of the variables is renamed to a new name. -/
theorem abstractAll_rename {x z : String} {xs : List String} {c : Code} (hxs : z ∉ xs)
    (hc : z ∉ c.free) :
    (c.subst (Function.update .var x (.var z))).abstractAll optimize
        (xs.map fun y => if y = x then z else y) =
      (c.abstractAll optimize xs).subst (Function.update .var x (.var z)) := by
  induction xs with
  | nil => rfl
  | cons y xs ih =>
    rw [List.mem_cons, not_or] at hxs
    have hz : z ∉ (c.abstractAll optimize xs).free := by
      rw [mem_free_abstractAll]
      exact fun h => hc h.1
    have hcons : ∀ (c : Code) (y : String) (xs : List String), c.abstractAll optimize (y :: xs) =
        (c.abstractAll optimize xs).abstract optimize y := fun _ _ _ => rfl
    rw [List.map_cons, hcons, hcons, ih hxs.2]
    split
    · rename_i hyx
      subst hyx
      have hgone : y ∉ ((c.abstractAll optimize xs).abstract optimize y).free := by
        simp [mem_free_abstract]
      rw [abstract_subst optimize, subst_var, subst_update_of_not_mem hgone]
      intro w hw _ hzw
      rw [free, List.mem_singleton] at hzw
      exact hz (hzw ▸ hw)
    · rename_i hyx
      nth_rewrite 1 [← update_var_eq (x := y) (Function.update_of_ne hyx (.var z) Code.var)]
      refine abstract_subst optimize fun w hw hwy => ?_
      by_cases hwx : w = x
      · rw [hwx, Function.update_self, free, List.mem_singleton]
        exact Ne.symm hxs.1
      · rw [Function.update_of_ne hwx, free, List.mem_singleton]
        exact Ne.symm hwy

end Code

/-! ### Compilation is total -/

namespace Mixed

/-- Code as a mixed tree. -/
def ofCode : Code → Mixed
  | .var x => .var x
  | .const constant => .const constant
  | .comb combinator => .comb combinator
  | .app f a => .app (ofCode f) (ofCode a)

theorem isApplicative_ofCode (c : Code) : (ofCode c).isApplicative := by
  induction c with
  | app f a ihf iha => rw [ofCode, isApplicative, ihf, iha]; rfl
  | _ => rfl

theorem free_ofCode (c : Code) : (ofCode c).free = c.free := by
  induction c with
  | app f a ihf iha => rw [ofCode, free, Code.free, ihf, iha]
  | _ => rfl

theorem toCode_ofCode (c : Code) : (ofCode c).toCode = .ok c := by
  induction c with
  | app f a ihf iha => rw [ofCode, toCode, ihf, iha]; rfl
  | _ => rfl

theorem ofCode_apply (head : Code) (args : List Code) :
    ofCode (head.apply args) = (args.map ofCode).foldl .app (ofCode head) := by
  induction args generalizing head with
  | nil => rfl
  | cons a args ih => exact ih (head.app a)

section

variable (optimize : Bool)

theorem abstractVar_ofCode (x : String) (c : Code) :
    abstractVar optimize x (ofCode c) = .ok (ofCode (c.abstract optimize x)) := by
  induction c with
  | var y =>
    rw [ofCode, abstractVar, Code.abstract]
    split <;> rfl
  | const constant => rfl
  | comb combinator => rfl
  | app f a ihf iha =>
    have happlicative : ¬ (!((ofCode f).isApplicative && (ofCode a).isApplicative)) = true := by
      simp [isApplicative_ofCode]
    rw [ofCode, abstractVar, if_neg happlicative, free_ofCode, free_ofCode, ihf, iha,
      Code.abstract]
    split_ifs <;> rfl

theorem abstractVars_ofCode (xs : List String) (c : Code) :
    abstractVars optimize xs (ofCode c) = .ok (ofCode (c.abstractAll optimize xs)) := by
  induction xs with
  | nil => rfl
  | cons x xs ih =>
    rw [abstractVars, ih]
    exact abstractVar_ofCode optimize x _

mutual

/-- The code that elimination leaves. -/
def code : Mixed → Code
  | .var x => .var x
  | .const constant => .const constant
  | .comb combinator => .comb combinator
  | .app f a => .app f.code a.code
  | .abs x body => body.code.abstract optimize x
  | .binary op a b => Code.apply (.const (.prim (.binary op))) [a.code, b.code]
  | .not a => Code.apply (.const (.prim .not)) [a.code]
  | .cond a b c => Code.apply (.const (.prim .cond)) [a.code, b.code, c.code]
  | .fix x body => .app (.comb .y) (body.code.abstract optimize x)
  | .select subject cases =>
    Code.apply (.const (.case (cases.map fun c => Shape.ofPattern c.1)))
      (subject.code :: codeCases cases)

/-- The functions of the cases. -/
def codeCases : List (Pattern × Mixed) → List Code
  | [] => []
  | (p, body) :: cases => body.code.abstractAll optimize p.vars :: codeCases cases

end

/-- Elimination never fails. -/
theorem eliminate_eq (m : Mixed) : m.eliminate optimize = .ok (ofCode (m.code optimize)) := by
  induction m using induct with
  | var x => rfl
  | const constant => rfl
  | comb combinator => rfl
  | app f a ihf iha => rw [eliminate, ihf, iha, code]; rfl
  | abs x body ih =>
    rw [eliminate, ih, code]
    exact abstractVar_ofCode optimize x _
  | binary op a b iha ihb => rw [eliminate, iha, ihb, code]; rfl
  | not a ih => rw [eliminate, ih, code]; rfl
  | cond a b c iha ihb ihc => rw [eliminate, iha, ihb, ihc, code]; rfl
  | fix x body ih =>
    have habstract := abstractVar_ofCode optimize x (body.code optimize)
    rw [eliminate, ih, code]
    simp only [bind, Except.bind, habstract]
    rfl
  | select subject cases ihs ihc =>
    have hcases : eliminateCases optimize cases = .ok ((codeCases optimize cases).map ofCode) := by
      clear ihs
      induction cases with
      | nil => rfl
      | cons c cases ih =>
        rw [List.forall_mem_cons] at ihc
        have habstract := abstractVars_ofCode optimize c.1.vars (c.2.code optimize)
        rw [eliminateCases, ihc.1, ih ihc.2, codeCases]
        simp only [bind, Except.bind, habstract]
        rfl
    rw [eliminate, ihs, hcases, code]
    exact congrArg Except.ok
      (ofCode_apply (.app (.const (.case _)) (subject.code optimize)) _).symm

/-- Elimination neither frees a name nor loses a free one. -/
theorem mem_free_code {m : Mixed} {x : String} : x ∈ (m.code optimize).free ↔ x ∈ m.free := by
  induction m using induct with
  | var y => rfl
  | const constant => rfl
  | comb combinator => rfl
  | app f a ihf iha => rw [code, Code.free, free, List.mem_append, List.mem_append, ihf, iha]
  | abs y t ih => rw [code, Code.mem_free_abstract, ih, free, List.mem_filter, decide_eq_true_iff]
  | fix y t ih => simp [code, Code.free, Code.mem_free_abstract, ih, free]
  | binary op a b iha ihb => simp [code, Code.apply, Code.free, free, iha, ihb]
  | not a ih => simp [code, Code.apply, Code.free, free, ih]
  | cond a b e iha ihb ihe => simp [code, Code.apply, Code.free, free, iha, ihb, ihe]
  | select a cases iha ihc =>
    have hcases : (∃ c ∈ codeCases optimize cases, x ∈ c.free) ↔ x ∈ freeCases cases := by
      clear iha
      induction cases with
      | nil => simp [codeCases, freeCases]
      | cons c cases ih =>
        rw [List.forall_mem_cons] at ihc
        simp only [codeCases, freeCases, List.mem_cons, exists_eq_or_imp, ih ihc.2,
          Code.mem_free_abstractAll, ihc.1, List.mem_append, List.mem_filter, decide_eq_true_iff]
    rw [code, Code.mem_free_apply]
    simp only [Code.free, List.not_mem_nil, false_or, List.mem_cons, exists_eq_or_imp, iha, hcases,
      free, List.mem_append]

end

end Mixed

namespace Term

variable (optimize : Bool)

/-- The code of a term. -/
def code (t : Term) : Code := (Mixed.ofTerm t).code optimize

/-- Compilation never fails. -/
theorem compile_eq (t : Term) : t.compile optimize = .ok (t.code optimize) := by
  rw [compile, Mixed.eliminate_eq]
  exact Mixed.toCode_ofCode _

theorem code_app (f a : Term) :
    (Term.app f a).code optimize = .app (f.code optimize) (a.code optimize) := rfl

theorem code_abs (x : String) (t : Term) :
    (Term.abs x t).code optimize = (t.code optimize).abstract optimize x := rfl

theorem code_fix (x : String) (t : Term) :
    (Term.fix x t).code optimize = .app (.comb .y) ((t.code optimize).abstract optimize x) := rfl

theorem code_binary (op : BinaryOp) (a b : Term) : (Term.binary op a b).code optimize =
    Code.apply (.const (.prim (.binary op))) [a.code optimize, b.code optimize] := rfl

theorem code_not (a : Term) :
    (Term.not a).code optimize = Code.apply (.const (.prim .not)) [a.code optimize] := rfl

theorem code_cond (a b e : Term) : (Term.cond a b e).code optimize =
    Code.apply (.const (.prim .cond)) [a.code optimize, b.code optimize, e.code optimize] := rfl

/-- The function of a case. -/
def caseCode (c : Pattern × Term) : Code := (c.2.code optimize).abstractAll optimize c.1.vars

theorem codeCases_ofCases (cases : List (Pattern × Term)) :
    Mixed.codeCases optimize (Mixed.ofCases cases) = cases.map (caseCode optimize) := by
  induction cases with
  | nil => rfl
  | cons c cases ih =>
    rw [Mixed.ofCases, Mixed.codeCases, ih]
    rfl

theorem code_select (a : Term) (cases : List (Pattern × Term)) :
    (Term.select a cases).code optimize =
      Code.apply (.const (.case (cases.map fun c => Shape.ofPattern c.1)))
        (a.code optimize :: cases.map (caseCode optimize)) := by
  have hshapes : (Mixed.ofCases cases).map (fun c => Shape.ofPattern c.1) =
      cases.map fun c => Shape.ofPattern c.1 := by
    induction cases with
    | nil => rfl
    | cons c cases ih => rw [Mixed.ofCases, List.map_cons, ih, List.map_cons]
  rw [code, Mixed.ofTerm, Mixed.code, hshapes, codeCases_ofCases]
  rfl

/-- The names free in the code of a term are those free in the term. -/
theorem mem_free_code {t : Term} {x : String} : x ∈ (t.code optimize).free ↔ x ∈ t.free := by
  rw [code, Mixed.mem_free_code, Mixed.free_ofTerm]

/-- **Compilation is total and keeps the free names.**  Elimination ends on every mixed tree, one
    that has constants and combinators already included, and what it leaves is applicative and is
    read as code; no free name is lost or added.  So a term always compiles, to code with the free
    names of the term. -/
theorem compilation_total :
    (∀ m : Mixed, ∃ m' c, m.eliminate optimize = .ok m' ∧ m'.isApplicative ∧ m'.toCode = .ok c ∧
      (∀ x, x ∈ m'.free ↔ x ∈ m.free) ∧ ∀ x, x ∈ c.free ↔ x ∈ m.free) ∧
    ∀ t : Term, ∃ c, t.compile optimize = .ok c ∧ ∀ x, x ∈ c.free ↔ x ∈ t.free := by
  refine ⟨fun m => ?_, fun t => ?_⟩
  · refine ⟨Mixed.ofCode (m.code optimize), m.code optimize, Mixed.eliminate_eq optimize m,
      Mixed.isApplicative_ofCode _, Mixed.toCode_ofCode _, fun x => ?_, fun x => ?_⟩
    · rw [Mixed.free_ofCode, Mixed.mem_free_code]
    · exact Mixed.mem_free_code optimize
  · exact ⟨t.code optimize, compile_eq optimize t, fun x => mem_free_code optimize⟩

/-! ### Renaming -/

theorem mem_free_caseCode {c : Pattern × Term} {x : String} :
    x ∈ (caseCode optimize c).free ↔ x ∈ c.2.free ∧ x ∉ c.1.vars := by
  rw [caseCode, Code.mem_free_abstractAll, mem_free_code]

/-- A case in which `x` becomes `z`, unless its pattern binds `x`. -/
theorem caseCode_rename {x z : String} {c : Pattern × Term} (hvars : z ∉ c.1.vars)
    (ih : (c.2.rename x z).code optimize =
      (c.2.code optimize).subst (Function.update .var x (.var z))) :
    caseCode optimize (c.1, if x ∈ c.1.vars then c.2 else c.2.rename x z) =
      (caseCode optimize c).subst (Function.update .var x (.var z)) := by
  split
  · rename_i hx
    have hgone : x ∉ (caseCode optimize c).free := fun h =>
      ((mem_free_caseCode optimize).1 h).2 hx
    exact (Code.subst_update_of_not_mem hgone _).symm
  · rename_i hx
    rw [caseCode, ih]
    refine Code.abstractAll_subst optimize (fun y hy => ?_) (fun y _ hyvars w hw => ?_)
    · exact Function.update_of_ne (fun heq : y = x => hx (heq ▸ hy)) _ _
    · by_cases hyx : y = x
      · rw [hyx, Function.update_self, Code.free, List.mem_singleton]
        exact fun heq => hvars (heq ▸ hw)
      · rw [Function.update_of_ne hyx, Code.free, List.mem_singleton]
        exact fun heq => hyvars (heq ▸ hw)

/-- A binder is the pattern of a bare variable. -/
theorem abstract_rename {x y z : String} {t : Term} (hzy : z ≠ y)
    (ih : (t.rename x z).code optimize =
      (t.code optimize).subst (Function.update .var x (.var z))) :
    ((if y = x then t else t.rename x z).code optimize).abstract optimize y =
      ((t.code optimize).abstract optimize y).subst (Function.update .var x (.var z)) := by
  have h := caseCode_rename optimize (c := (.var y, t)) (x := x) (by simpa [Pattern.vars] using hzy) ih
  simp only [Pattern.vars, List.mem_singleton, eq_comm (a := x)] at h
  exact h

theorem code_rename {x z : String} {t : Term} (hz : z ∉ t.names) :
    (t.rename x z).code optimize =
      (t.code optimize).subst (Function.update .var x (.var z)) := by
  induction t using induct with
  | var y =>
    change Code.var _ = Function.update Code.var x (.var z) y
    rw [Function.update_apply]
    split <;> rfl
  | lit l => rfl
  | ctor name => rfl
  | app f a ihf iha =>
    rw [names, List.mem_append, not_or] at hz
    rw [rename, code_app, code_app, Code.subst, ihf hz.1, iha hz.2]
  | abs y t ih =>
    rw [names, List.mem_cons, not_or] at hz
    exact abstract_rename optimize hz.1 (ih hz.2)
  | fix y t ih =>
    rw [names, List.mem_cons, not_or] at hz
    exact congrArg (Code.app _) (abstract_rename optimize hz.1 (ih hz.2))
  | binary op a b iha ihb =>
    rw [names, List.mem_append, not_or] at hz
    rw [rename, code_binary, code_binary, Code.subst_apply, iha hz.1, ihb hz.2]
    rfl
  | not a ih =>
    rw [names] at hz
    rw [rename, code_not, code_not, Code.subst_apply, ih hz]
    rfl
  | cond a b e iha ihb ihe =>
    simp only [names, List.mem_append, not_or] at hz
    rw [rename, code_cond, code_cond, Code.subst_apply, iha hz.1.1, ihb hz.1.2, ihe hz.2]
    rfl
  | select a cases iha ihc =>
    simp only [names, List.mem_append, not_or, namesCases_eq_flatMap, List.mem_flatMap,
      not_exists, not_and] at hz
    have hcases : (renameCases x z cases).map (caseCode optimize) =
        (cases.map (caseCode optimize)).map (Code.subst (Function.update .var x (.var z))) := by
      rw [renameCases_eq_map, List.map_map, List.map_map]
      exact List.map_congr_left fun c hc =>
        caseCode_rename optimize (hz.2 c hc).1 (ihc c hc (hz.2 c hc).2)
    have hshapes : (renameCases x z cases).map (fun c => Shape.ofPattern c.1) =
        cases.map fun c => Shape.ofPattern c.1 := by
      rw [renameCases_eq_map, List.map_map]
      rfl
    rw [rename, code_select, code_select, Code.subst_apply, iha hz.1, hshapes, hcases]
    rfl

/-! ### Prepared cases -/

/-- Renaming the variables of a case leaves no trace in its code. -/
theorem RenameStep.caseCode_eq {c c' : Pattern × Term} (h : RenameStep c c') :
    caseCode optimize c' = caseCode optimize c := by
  cases h with
  | @rename x z p b hvars hnames hx =>
    have hz : z ∉ (b.code optimize).free := fun h =>
      hnames (mem_names_of_mem_free ((mem_free_code optimize).1 h))
    have hgone : x ∉ (caseCode optimize (p, b)).free := fun h =>
      ((mem_free_caseCode optimize).1 h).2 (hx ((mem_free_caseCode optimize).1 h).1)
    have hrename := Code.abstractAll_rename optimize (x := x) hvars hz
    rw [caseCode, code_rename optimize hnames, Pattern.vars_rename]
    rw [hrename]
    exact Code.subst_update_of_not_mem hgone _

theorem Prepared.caseCode_eq {live : Replacements} {c c' : Pattern × Term}
    (h : Prepared live c c') : caseCode optimize c' = caseCode optimize c := by
  obtain ⟨hrenamed, -, -⟩ := h
  induction hrenamed with
  | refl => rfl
  | tail _ hstep ih => exact (hstep.caseCode_eq optimize).trans ih

/-! ### Substitution -/

/-- The code of what stands for a name under replacements. -/
def standInCode (r : Replacements) (x : String) : Code := (r.standIn x).code optimize

theorem standInCode_of_none {r : Replacements} {x : String} (h : r.get? x = none) :
    standInCode optimize r x = .var x := by
  rw [standInCode, Replacements.standIn, h]
  rfl

/-- The code of the result is the code of the term, with the codes of the values put in. -/
def CodeCommutes (r : Replacements) (t t' : Term) : Prop :=
  t'.code optimize = (t.code optimize).subst (standInCode optimize r)

theorem SubstCase.caseCode_eq {r : Replacements} {c c' : Pattern × Term}
    (h : SubstCase (CodeCommutes optimize) r c c') :
    caseCode optimize c' = (caseCode optimize c).subst (standInCode optimize r) := by
  rcases h with ⟨hempty, rfl⟩ | ⟨b, hprepared, hb⟩
  · refine (Code.subst_eq_self fun x hx => ?_).symm
    obtain ⟨hfree, hvars⟩ := (mem_free_caseCode optimize).1 hx
    exact standInCode_of_none optimize (Replacements.get?_of_live_isEmpty hempty hvars hfree)
  · have hself : ∀ y ∈ c'.1.vars,
        standInCode optimize (r.live c.1.vars c.2) y = .var y := fun y hy =>
      standInCode_of_none optimize (hprepared.get?_eq_none y hy)
    rw [caseCode, hb, Code.abstractAll_subst optimize hself fun y _ hy w hw => ?_]
    · change (caseCode optimize (c'.1, b)).subst _ = _
      rw [hprepared.caseCode_eq optimize]
      refine Code.subst_congr fun x hx => ?_
      obtain ⟨hfree, hvars⟩ := (mem_free_caseCode optimize).1 hx
      rw [standInCode, standInCode, Replacements.standIn, Replacements.standIn,
        Replacements.get?_live, if_pos ⟨hvars, hfree⟩]
    · -- a variable of the prepared pattern is free in no value that is put in
      rcases hget : (r.live c.1.vars c.2).get? y with _ | v
      · rw [standInCode_of_none optimize hget, Code.free, List.mem_singleton]
        exact fun heq => hy (heq ▸ hw)
      · rw [standInCode, Replacements.standIn, hget, Option.getD_some, mem_free_code]
        intro hv
        exact hprepared.not_captured w hw (Replacements.mem_captured.2 ⟨y, v, hget, hv⟩)

theorem codeCommutes_closed : SubstClosed (CodeCommutes optimize) where
  var _ _ := rfl
  lit _ _ := rfl
  ctor _ _ := rfl
  app hf ha := by rw [CodeCommutes, code_app, code_app, Code.subst, hf, ha]
  abs h := h.caseCode_eq optimize
  fix h := congrArg (Code.app _) (h.caseCode_eq optimize)
  binary op ha hb := by
    rw [CodeCommutes, code_binary, code_binary, Code.subst_apply, ha, hb]
    rfl
  not ha := by
    rw [CodeCommutes, code_not, code_not, Code.subst_apply, ha]
    rfl
  cond ha hb hc := by
    rw [CodeCommutes, code_cond, code_cond, Code.subst_apply, ha, hb, hc]
    rfl
  select {r s s' cs cs'} hs hcases := by
    have hshapes : cs'.map (fun c => Shape.ofPattern c.1) = cs.map fun c => Shape.ofPattern c.1 := by
      clear hs
      induction hcases with
      | nil => rfl
      | cons hc _ ih => rw [List.map_cons, ih, hc.shape_eq, List.map_cons]
    have hcodes : cs'.map (caseCode optimize) =
        (cs.map (caseCode optimize)).map (Code.subst (standInCode optimize r)) := by
      clear hs hshapes
      induction hcases with
      | nil => rfl
      | cons hc _ ih => rw [List.map_cons, ih, hc.caseCode_eq optimize, List.map_cons, List.map_cons]
    rw [CodeCommutes, code_select, code_select, Code.subst_apply, hs, hshapes, hcodes]
    rfl

/-- **Compilation commutes with substitution.** -/
theorem code_substMany (r : Replacements) (t : Term) (supply : Supply) :
    (t.substMany r supply).1.code optimize =
      (t.code optimize).subst (standInCode optimize r) :=
  substMany_induct (codeCommutes_closed optimize) r t supply

theorem standInCode_empty : standInCode optimize .empty = .var := rfl

theorem standInCode_insert (r : Replacements) (x : String) (v : Term) :
    standInCode optimize (r.insert x v) =
      Function.update (standInCode optimize r) x (v.code optimize) := by
  funext y
  rw [standInCode, Replacements.standIn, Table.get?_insert, Function.update_apply]
  split <;> rfl

theorem standInCode_insertAll (r : Replacements) (pairs : List (String × Term)) :
    standInCode optimize (r.insertAll pairs) =
      Code.bindAll (standInCode optimize r) (pairs.map fun e => (e.1, e.2.code optimize)) := by
  induction pairs generalizing r with
  | nil => rfl
  | cons e pairs ih =>
    have hstep : r.insertAll (e :: pairs) = (r.insert e.1 e.2).insertAll pairs := rfl
    rw [hstep, ih, standInCode_insert]
    rfl

/-- The code of a body with a value put in for its binder. -/
theorem code_subst (t : Term) (x : String) (v : Term) (supply : Supply) :
    (t.subst x v supply).1.code optimize =
      (t.code optimize).subst (Function.update .var x (v.code optimize)) := by
  rw [subst, code_substMany, Table.ofList, standInCode_insertAll, standInCode_empty]
  rfl

/-- The code of a body with what its pattern captures put in. -/
theorem code_substMany_zip (t : Term) (xs : List String) (vs : List Term) (supply : Supply) :
    (t.substMany (Table.ofList (xs.zip vs)) supply).1.code optimize =
      (t.code optimize).subst
        (Code.bindAll .var (xs.zip (vs.map fun v => v.code optimize))) := by
  rw [code_substMany, Table.ofList, standInCode_insertAll, standInCode_empty, List.zip_map_right]
  rfl

end Term

/-! ### Images of data -/

/-- The code of data: its literals and constructors as constants, applied in the same way. -/
inductive Images : Term → Code → Prop
  | lit (l : Literal) : Images (.lit l) (.const (.lit l))
  | ctor (name : String) : Images (.ctor name) (.const (.ctor name))
  | app {f a : Term} {c d : Code} : Images f c → Images a d → Images (.app f a) (.app c d)

theorem Term.images_code (optimize : Bool) {v : Term} (h : v.isData) :
    Images v (v.code optimize) := by
  induction v using Term.induct with
  | lit l => exact .lit l
  | ctor name => exact .ctor name
  | app f a ihf iha =>
    rw [isData, Bool.and_eq_true, Bool.and_eq_true] at h
    exact .app (ihf h.1.2) (iha h.2)
  | _ => cases h

end CoreCalculus
