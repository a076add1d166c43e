/-
  CoreCalculus/Proofs/Simulation.lean
  ===================================
  **Evaluation, seen by the reducer.**

  A term evaluates strictly; its code is reduced on demand.  So while the evaluator goes
  from a term to its value, nothing need happen to the code: code that delays the term
  delays its value (`Reading.Lawful.simulation`), by induction on the evaluation.
  Application is bracket abstraction at work on delayed arguments, a recursion is a fixed point
  that has not been unfolded yet, and a node that stays has delayed parts.

  What is left are the nodes that a rule applies to: operators, conditionals and matches.  What
  the reducer makes of these on delayed operands depends on what is expected of it, and so
  does what may be in its way; a `Reading` fixes that, and it is `Lawful` when it gets
  the four kinds of node right.
-/
import CoreCalculus.Proofs.BigStep
import CoreCalculus.Proofs.Delay

namespace CoreCalculus

open Code

/-- How code is taken to delay terms, and what may be observed when they are evaluated. -/
structure Reading where
  optimize : Bool
  idle : Code → Prop
  folded : Code → Prop
  allowed : Observation → Prop

namespace Reading

/-- The code delays the code of the term. -/
def Lags (m : Reading) (c : Code) (t : Term) : Prop := Delays m.idle m.folded c (t.code m.optimize)

/-- The reducer does on delayed operands what the evaluator does. -/
structure Lawful (m : Reading) : Prop where
  idles : Idles m.idle
  function : ∀ {t v : Term} {seen : List Observation}, Evaluates .empty t v seen →
    m.folded (t.code m.optimize) → m.folded (v.code m.optimize)
  recursion : ∀ {v : Term}, m.allowed (.unfolded v) → m.folded (v.code m.optimize)
  computed : ∀ {op : BinaryOp} {a b : Term} {l : Literal} {ca cb : Code}, a.Evaluated →
    b.Evaluated → op.onTerms a b = .ok (some l) → m.Lags ca a → m.Lags cb b →
    m.Lags (apply (.const (.prim (.binary op))) [ca, cb]) (.lit l)
  negated : ∀ {b : Bool} {c : Code}, m.Lags c (.lit (.bool b)) →
    m.Lags (apply (.const (.prim .not)) [c]) (.lit (.bool !b))
  branch : ∀ {choice : Bool} {c yes no : Code} {v : Term}, m.Lags c (.lit (.bool choice)) →
    m.Lags (if choice then yes else no) v →
    m.Lags (apply (.const (.prim .cond)) [c, yes, no]) v
  select : ∀ {a t : Term} {cases : List (Pattern × Term)} {bindings : Table String Term}
    {c : Code} {functions : List Code} (s : Supply), a.Evaluated → m.allowed (.matched a) →
    (∀ e ∈ a.testsOfCases cases, m.allowed (.tested e.1 e.2)) →
    a.firstMatch cases = some (bindings, t) → m.Lags c a →
    List.Forall₂ (Delays m.idle m.folded) functions (cases.map (Term.caseCode m.optimize)) →
    m.Lags (apply (.const (.case (cases.map fun e => Shape.ofPattern e.1))) (c :: functions))
      (t.substMany bindings s).1

variable {m : Reading}

theorem forall₂_lags_iff {cs : List Code} {vs : List Term} : List.Forall₂ m.Lags cs vs ↔
    List.Forall₂ (Delays m.idle m.folded) cs (vs.map fun v => v.code m.optimize) := by
  rw [List.forall₂_map_right_iff]
  rfl

/-- The function of a case, applied to what delays the values that its pattern captures. -/
theorem lags_caseCode (hidle : Idles m.idle) {p : Pattern} {t v : Term} {vs : List Term}
    {function : Code} {bindings : List Code} (hcapture : p.capture? v = some vs)
    (hfunction : Delays m.idle m.folded function (Term.caseCode m.optimize (p, t)))
    (hbindings : List.Forall₂ m.Lags bindings vs) (s : Supply) :
    m.Lags (function.apply bindings) (t.substMany (Table.ofList (p.vars.zip vs)) s).1 := by
  rw [Lags, Term.code_substMany_zip]
  rw [← subst_var (Term.caseCode m.optimize (p, t))] at hfunction
  refine Delays.beta_all hidle hfunction (forall₂_lags_iff.1 hbindings) ?_
  rw [List.length_map]
  exact Pattern.length_of_capture? hcapture

/-- Matching delayed code has the outcome that matching the value has. -/
inductive Agrees (m : Reading) : ShapeMatch → Option (List Term) → Prop
  | matched {bindings : List Code} {vs : List Term} : List.Forall₂ m.Lags bindings vs →
      Agrees m (.matched bindings) (some vs)
  | failed : Agrees m .failed none

theorem Agrees.prepend {bindings : List Code} {vs : List Term} {r : ShapeMatch}
    {captured : Option (List Term)} (hbindings : List.Forall₂ m.Lags bindings vs)
    (h : m.Agrees r captured) :
    m.Agrees (r.prepend bindings) (captured.bind fun others => some (vs ++ others)) := by
  cases h with
  | matched hothers => exact .matched (List.rel_append hbindings hothers)
  | failed => exact .failed

/-- The code of a node is an operator with operands: it delays the value of the node when the
    operator does, on whatever delays the operands. -/
theorem Lawful.operator (hm : m.Lawful) {t v : Term} {seen : List Observation}
    (h : Evaluates .empty t v seen) {k : Constant} {e : Code} {es : List Code}
    (hcode : t.code m.optimize = apply (.const k) (e :: es))
    (hoperands : ∀ cs, List.Forall₂ (Delays m.idle m.folded) cs (e :: es) →
      m.Lags (apply (.const k) cs) v) {c : Code} (hc : m.Lags c t) : m.Lags c v := by
  have hfolded := hm.function h
  rw [Lags, hcode] at hc
  rw [hcode] at hfolded
  exact Delays.elim_spine hm.idles rfl (List.cons_ne_nil _ _) (Delays.survives hm.idles hfolded)
    hoperands hc

/-- **Simulation.**  What delays a term delays its value. -/
theorem Lawful.simulation (hm : m.Lawful) {t v : Term} {seen : List Observation}
    (h : Evaluates .empty t v seen) (hallowed : ∀ o ∈ seen, m.allowed o) {c : Code}
    (hc : m.Lags c t) : m.Lags c v := by
  have hidle := hm.idles
  induction h generalizing c with
  | var hx _ _ => cases hx
  | lit l => exact hc
  | abs x t => exact hc
  | ctor name => exact hc
  | beta s hf ha ht ihf iha iht =>
    simp only [List.forall_mem_append] at hallowed
    refine Delays.elim_app
      (Delays.survives hidle (hm.function (.beta s hf ha ht))) (fun cf ca hcf hca => ?_) hc
    refine iht hallowed.2.2 ?_
    rw [Lags, Term.code_subst]
    have hfunction := ihf hallowed.1 hcf
    rw [Lags, Term.code_abs, ← subst_var (abstract _ _ _)] at hfunction
    exact Delays.beta hidle hfunction (iha hallowed.2.1 hca)
  | app hf ha hneutral ihf iha =>
    simp only [List.forall_mem_append] at hallowed
    exact Delays.elim_app (Delays.survives hidle (hm.function (.app hf ha hneutral)))
      (fun cf ca hcf hca => .app (.refl _) (ihf hallowed.1 hcf) (iha hallowed.2.1 hca)) hc
  | @fix x t v seen s ht iht =>
    rw [List.forall_mem_append] at hallowed
    refine Delays.elim_app
      (Delays.survives hidle (hm.function (.fix s ht))) (fun cy cf hcy hcf => ?_) hc
    rcases hcy.applied hidle cf [] with ⟨cs, hreduces, hcs⟩ | hcy
    · cases hcs
      refine .unfold hreduces ?_ (hm.recursion (hallowed.2 _ List.mem_cons_self))
      refine iht hallowed.1 ?_
      rw [Lags, Term.code_subst]
      have hfunction := hcf
      rw [← subst_var (abstract _ _ _)] at hfunction
      exact Delays.beta hidle hfunction (.app (.refl _) (.refl _) hcf)
    · exact .idle hcy
  | computed ha hb hop iha ihb =>
    simp only [List.forall_mem_append] at hallowed
    refine hm.operator (.computed ha hb hop) (Term.code_binary _ _ _ _) (fun cs hcs => ?_) hc
    obtain _ | ⟨hca, _ | ⟨hcb, _ | _⟩⟩ := hcs
    exact hm.computed ha.evaluated hb.evaluated hop (iha hallowed.1 hca) (ihb hallowed.2.1 hcb)
  | binary ha hb hop iha ihb =>
    simp only [List.forall_mem_append] at hallowed
    refine hm.operator (.binary ha hb hop) (Term.code_binary _ _ _ _) (fun cs hcs => ?_) hc
    obtain _ | ⟨hca, _ | ⟨hcb, _ | _⟩⟩ := hcs
    exact Delays.apply (.refl _) (.cons (iha hallowed.1 hca) (.cons (ihb hallowed.2.1 hcb) .nil))
  | negated ha iha =>
    refine hm.operator (.negated ha) (Term.code_not _ _) (fun cs hcs => ?_) hc
    obtain _ | ⟨hca, _ | _⟩ := hcs
    exact hm.negated (iha hallowed hca)
  | not ha hneutral iha =>
    refine hm.operator (.not ha hneutral) (Term.code_not _ _) (fun cs hcs => ?_) hc
    obtain _ | ⟨hca, _ | _⟩ := hcs
    exact Delays.apply (.refl _) (.cons (iha hallowed hca) .nil)
  | branch choice ha hb iha ihb =>
    rw [List.forall_mem_append] at hallowed
    refine hm.operator (.branch choice ha hb) (Term.code_cond _ _ _ _) (fun cs hcs => ?_) hc
    obtain _ | ⟨hca, _ | ⟨hyes, _ | ⟨hno, _ | _⟩⟩⟩ := hcs
    refine hm.branch (iha hallowed.1 hca) (ihb hallowed.2 ?_)
    cases choice
    · exact hno
    · exact hyes
  | cond ha hneutral iha =>
    simp only [List.forall_mem_append] at hallowed
    refine hm.operator (.cond ha hneutral) (Term.code_cond _ _ _ _) (fun cs hcs => ?_) hc
    obtain _ | ⟨hca, _ | ⟨hyes, _ | ⟨hno, _ | _⟩⟩⟩ := hcs
    exact Delays.apply (.refl _) (.cons (iha hallowed.1 hca) (.cons hyes (.cons hno .nil)))
  | select s ha hmatch ht iha iht =>
    simp only [List.forall_mem_append, List.forall_mem_cons, List.forall_mem_map] at hallowed
    obtain ⟨hallowed₁, hmatched, htests, hallowed₂⟩ := hallowed
    refine hm.operator (.select s ha hmatch ht) (Term.code_select _ _ _) (fun cs hcs => ?_) hc
    obtain _ | ⟨hca, hfunctions⟩ := hcs
    exact iht hallowed₂
      (hm.select s ha.evaluated hmatched htests hmatch (iha hallowed₁ hca) hfunctions)

end Reading

end CoreCalculus
