/-
  CoreCalculus/Proofs/AlphaCompilation.lean
  =========================================
  **Compilation forgets bound names.**

  Code has no binders, so what a binder was called can show in it only where
  abstraction left a trace of the name.  To see that it leaves none, put code in for
  the free names of two alpha-equivalent terms, the same for corresponding names:
  the results are the same.  At a binder, both sides are abstracted over one new name
  instead (`Code.abstract_subst`), which then corresponds to itself.
-/
import CoreCalculus.Proofs.AlphaEquivalence
import CoreCalculus.Proofs.Compilation

namespace CoreCalculus

variable {xs ys : List String} {σ σ' : String → Code} (optimize : Bool)

/-- Abstraction over one binder on each side. -/
theorem Code.abstract_subst_eq {x y : String} {c c' : Code}
    (hσ : Scope.Aligned (· = ·) xs ys σ σ')
    (h : ∀ τ τ', Scope.Aligned (· = ·) (x :: xs) (y :: ys) τ τ' → c.subst τ = c'.subst τ') :
    (c.abstract optimize x).subst σ = (c'.abstract optimize y).subst σ' := by
  -- a name that occurs in nothing that is put in
  let avoid := c.free.flatMap (fun w => (σ w).free) ++ c'.free.flatMap fun w => (σ' w).free
  obtain ⟨z, hz⟩ : ∃ z, z ∉ avoid := ⟨_, Supply.freshName_not_mem ⟨0⟩ "x" avoid⟩
  rw [List.mem_append, not_or, List.mem_flatMap, List.mem_flatMap] at hz
  have hleft := @abstract_subst optimize x z σ c
    fun w hw _ hmem => hz.1 ⟨w, hw, hmem⟩
  have hright := @abstract_subst optimize y z σ' c'
    fun w hw _ hmem => hz.2 ⟨w, hw, hmem⟩
  rw [← hleft, ← hright, h _ _ (hσ.cons x y rfl)]

/-- Abstraction over the variables of two patterns. -/
theorem Code.abstractAll_subst_eq {ps qs : List String} {c c' : Code}
    (hlength : ps.length = qs.length) (hσ : Scope.Aligned (· = ·) xs ys σ σ')
    (h : ∀ τ τ', Scope.Aligned (· = ·) (ps.reverse ++ xs) (qs.reverse ++ ys) τ τ' →
      c.subst τ = c'.subst τ') :
    (c.abstractAll optimize ps).subst σ = (c'.abstractAll optimize qs).subst σ' := by
  induction ps generalizing qs xs ys σ σ' with
  | nil =>
    rw [List.length_eq_zero_iff.1 hlength.symm] at h ⊢
    exact h σ σ' hσ
  | cons p ps ih =>
    obtain ⟨q, qs, rfl⟩ := List.exists_cons_of_length_eq_add_one hlength.symm
    refine abstract_subst_eq optimize hσ fun τ τ' hτ => ?_
    refine ih (Nat.succ.inj hlength) hτ fun ρ ρ' hρ => h ρ ρ' ?_
    rwa [List.reverse_cons, List.append_assoc, List.reverse_cons, List.append_assoc]

namespace Term

/-- The same code put in for corresponding names gives the same code. -/
theorem code_subst_eq {t t' : Term} (h : t.nameless xs = t'.nameless ys)
    (hσ : Scope.Aligned (· = ·) xs ys σ σ') :
    (t.code optimize).subst σ = (t'.code optimize).subst σ' := by
  induction t using induct generalizing t' xs ys σ σ' with
  | var x =>
    cases SameLayer.of_nameless_eq h with
    | @var _ y hxy => exact hσ x y hxy
  | lit l =>
    cases SameLayer.of_nameless_eq h
    rfl
  | ctor name =>
    cases SameLayer.of_nameless_eq h
    rfl
  | app f a ihf iha =>
    cases SameLayer.of_nameless_eq h with
    | app hf ha => rw [code_app, code_app, Code.subst, Code.subst, ihf hf hσ, iha ha hσ]
  | abs x t ih =>
    cases SameLayer.of_nameless_eq h with
    | abs ht => exact Code.abstract_subst_eq optimize hσ fun τ τ' hτ => ih ht hτ
  | fix x t ih =>
    cases SameLayer.of_nameless_eq h with
    | fix ht =>
      exact congrArg (Code.app _) (Code.abstract_subst_eq optimize hσ fun τ τ' hτ => ih ht hτ)
  | binary op a b iha ihb =>
    cases SameLayer.of_nameless_eq h with
    | binary _ ha hb =>
      rw [code_binary, code_binary, Code.subst_apply, Code.subst_apply]
      simp only [List.map, iha ha hσ, ihb hb hσ, Code.subst]
  | not a ih =>
    cases SameLayer.of_nameless_eq h with
    | not ha =>
      rw [code_not, code_not, Code.subst_apply, Code.subst_apply]
      simp only [List.map, ih ha hσ, Code.subst]
  | cond a b c iha ihb ihc =>
    cases SameLayer.of_nameless_eq h with
    | cond ha hb hc =>
      rw [code_cond, code_cond, Code.subst_apply, Code.subst_apply]
      simp only [List.map, iha ha hσ, ihb hb hσ, ihc hc hσ, Code.subst]
  | select s cs ihs ihc =>
    cases SameLayer.of_nameless_eq h with
    | @select _ s' _ cs' hs hcs =>
      have hcases : cs.map (fun c => Shape.ofPattern c.1) = cs'.map (fun c => Shape.ofPattern c.1) ∧
          (cs.map (caseCode optimize)).map (Code.subst σ) =
            (cs'.map (caseCode optimize)).map (Code.subst σ') := by
        clear hs ihs h
        induction hcs with
        | nil => exact ⟨rfl, rfl⟩
        | @cons c c' cs cs' hc _ ih =>
          rw [List.forall_mem_cons] at ihc
          obtain ⟨hshapes, hcodes⟩ := ih ihc.2
          have hcode : (caseCode optimize c).subst σ = (caseCode optimize c').subst σ' :=
            Code.abstractAll_subst_eq optimize (Pattern.length_vars_eq hc.1) hσ
              fun τ τ' hτ => ihc.1 hc.2 hτ
          simp only [List.map_cons, hc.1, hshapes, hcode, hcodes, and_self]
      rw [code_select, code_select, Code.subst_apply, Code.subst_apply, List.map_cons,
        List.map_cons, ihs hs hσ, hcases.1, hcases.2]
      rfl

theorem AlphaEq.code_eq {t t' : Term} (h : t.AlphaEq t') : t.code optimize = t'.code optimize := by
  rw [← Code.subst_var (t.code optimize), ← Code.subst_var (t'.code optimize)]
  exact code_subst_eq optimize h (.nil fun _ => rfl)

/-- **Compilation commutes with substitution and forgets bound names.**  Substituting in a term
    is replacing names by code in what the term compiles to, whatever names the substitution
    makes up; and alpha-equivalent terms compile to the same code. -/
theorem compile_substMany (t : Term) :
    (∀ (r : Replacements) (supply : Supply), ∃ c σ, t.compile optimize = .ok c ∧
      (∀ x v, r.get? x = some v → v.compile optimize = .ok (σ x)) ∧
      (∀ x, r.get? x = none → σ x = .var x) ∧
      (t.substMany r supply).1.compile optimize = .ok (c.subst σ)) ∧
    ∀ t', t.AlphaEq t' → t.compile optimize = t'.compile optimize := by
  refine ⟨fun r supply => ?_, fun t' h => ?_⟩
  · refine ⟨t.code optimize, standInCode optimize r, compile_eq optimize t, fun x v hx => ?_,
      fun x hx => standInCode_of_none optimize hx, ?_⟩
    · rw [compile_eq, standInCode, Replacements.standIn, hx, Option.getD_some]
    · rw [compile_eq, code_substMany]
  · rw [compile_eq, compile_eq, h.code_eq optimize]

end Term

end CoreCalculus
