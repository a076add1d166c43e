/-
  CoreCalculus/Proofs/TextProperty.lean
  =====================================
  **Properties of the text of a term** that evaluation keeps.

  A property is textual when it passes from a term to its parts, back to the nodes that
  evaluation rebuilds from evaluated parts, and from the replaced and the replacing terms to
  the result of a substitution.  Evaluation does nothing else to a term, so the value has
  the property, and so has every term that is evaluated on the way.
-/
import CoreCalculus.Proofs.Closed
import CoreCalculus.Proofs.Failure

namespace CoreCalculus

structure Term.Textual (P : Term → Prop) : Prop where
  lit (l : Literal) : P (.lit l)
  app {f a : Term} : P (.app f a) ↔ P f ∧ P a
  abs {x : String} {t : Term} : P (.abs x t) → P t
  fix {x : String} {t : Term} : P (.fix x t) → P t
  binary {op : BinaryOp} {a b : Term} : P (.binary op a b) ↔ P a ∧ P b
  not {a : Term} : P (.not a) ↔ P a
  cond {a b e : Term} : P (.cond a b e) ↔ P a ∧ P b ∧ P e
  select {a : Term} {cases : List (Pattern × Term)} :
    P (.select a cases) → P a ∧ ∀ c ∈ cases, P c.2
  substMany {r : Replacements} {t : Term} (s : Supply) :
    (∀ x v, r.get? x = some v → P v) → P t → P (t.substMany r s).1

namespace Term.Textual

variable {P : Term → Prop} {scope : Scope} {t u v : Term}

theorem of_mem_spine (hP : Textual P) (hv : P v) : ∀ a ∈ v.spine.2, P a := by
  induction v using induct with
  | app f a ihf _ =>
    obtain ⟨hf, ha⟩ := hP.app.1 hv
    rw [spine, List.forall_mem_append, List.forall_mem_singleton]
    exact ⟨ihf hf, ha⟩
  | _ => exact List.forall_mem_nil _

theorem subst (hP : Textual P) (ht : P t) (x : String) (hv : P v) (s : Supply) :
    P (t.subst x v s).1 := by
  refine hP.substMany s (fun y w hy => ?_) ht
  obtain ⟨-, rfl⟩ := Prod.mk.inj (List.mem_singleton.1 (Table.mem_of_get?_ofList hy))
  exact hv

/-- The body of the case that is taken. -/
theorem firstMatch (hP : Textual P) {cases : List (Pattern × Term)}
    {bindings : Table String Term} (h : v.firstMatch cases = some (bindings, t)) (hv : P v)
    (hcases : ∀ c ∈ cases, P c.2) (s : Supply) : P (t.substMany bindings s).1 := by
  obtain ⟨p, vs, hp, hvs, rfl⟩ := firstMatch_eq_some h
  refine hP.substMany s (fun x w hx => ?_) (hcases _ hp)
  exact Pattern.forall_of_capture? (fun _ => hP.of_mem_spine) hvs hv w
    (List.of_mem_zip (Table.mem_of_get?_ofList hx)).2

theorem evaluates (hP : Textual P) (hscope : ∀ x t, scope.get? x = some t → P t)
    {seen : List Observation} (h : Evaluates scope t v seen) (ht : P t) : P v := by
  induction h with
  | var hx _ ih => exact ih (hscope _ _ hx)
  | lit l => exact ht
  | abs x t => exact ht
  | ctor name => exact ht
  | beta s _ _ _ ihf iha ih =>
    obtain ⟨hf, ha⟩ := hP.app.1 ht
    exact ih (hP.subst (hP.abs (ihf hf)) _ (iha ha) s)
  | app _ _ _ ihf iha =>
    obtain ⟨hf, ha⟩ := hP.app.1 ht
    exact hP.app.2 ⟨ihf hf, iha ha⟩
  | fix s _ ih => exact ih (hP.subst (hP.fix ht) _ ht s)
  | computed => exact hP.lit _
  | binary _ _ _ iha ihb =>
    obtain ⟨ha, hb⟩ := hP.binary.1 ht
    exact hP.binary.2 ⟨iha ha, ihb hb⟩
  | negated => exact hP.lit _
  | not _ _ ih => exact hP.not.2 (ih (hP.not.1 ht))
  | branch choice _ _ _ ih =>
    obtain ⟨-, hb, he⟩ := hP.cond.1 ht
    cases choice with
    | true => exact ih hb
    | false => exact ih he
  | cond _ _ ih =>
    obtain ⟨ha, hb, he⟩ := hP.cond.1 ht
    exact hP.cond.2 ⟨ih ha, hb, he⟩
  | select s _ hmatch _ iha ih =>
    obtain ⟨ha, hcases⟩ := hP.select ht
    exact ih (hP.firstMatch hmatch (iha ha) hcases s)

theorem demands (hP : Textual P) (hscope : ∀ x t, scope.get? x = some t → P t)
    (h : Demands scope t u) (ht : P t) : P u := by
  cases h with
  | var hx => exact hscope _ _ hx
  | func f a => exact (hP.app.1 ht).1
  | arg _ => exact (hP.app.1 ht).2
  | beta s hf ha =>
    obtain ⟨htf, hta⟩ := hP.app.1 ht
    exact hP.subst (hP.abs (hP.evaluates hscope hf htf)) _ (hP.evaluates hscope ha hta) s
  | fix x t s => exact hP.subst (hP.fix ht) _ ht s
  | left op a b => exact (hP.binary.1 ht).1
  | right _ => exact (hP.binary.1 ht).2
  | not a => exact hP.not.1 ht
  | test a b e => exact (hP.cond.1 ht).1
  | branch choice _ =>
    obtain ⟨-, hb, he⟩ := hP.cond.1 ht
    cases choice with
    | true => exact hb
    | false => exact he
  | subject a cases => exact (hP.select ht).1
  | body s ha hmatch =>
    obtain ⟨hta, hcases⟩ := hP.select ht
    exact hP.firstMatch hmatch (hP.evaluates hscope ha hta) hcases s

end Term.Textual

end CoreCalculus
