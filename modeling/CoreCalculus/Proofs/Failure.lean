/-
  CoreCalculus/Proofs/Failure.lean
  ================================
  **Where an evaluation fails.**

  An evaluation evaluates other terms on its way, parts of the node and what the node is
  reduced to (`Demands`).  A failure is passed on unchanged; so it arises at one term that
  is reached in this way, and for one of three reasons (`FailsAt`): a name that the scope
  does not bind, operands on which an operator faults, or a subject that no case takes.

  A property that passes to every term that is demanded therefore holds where the failure
  arises, and only there has it to be looked at again.
-/
import Mathlib.Logic.Relation
import CoreCalculus.Proofs.BigStep
import CoreCalculus.Proofs.Operators

namespace CoreCalculus

open Relation

/-- The evaluation of the first term evaluates the second one. -/
inductive Demands (scope : Scope) : Term → Term → Prop
  | var {x : String} {t : Term} : scope.get? x = some t → Demands scope (.var x) t
  | func (f a : Term) : Demands scope (.app f a) f
  | arg {f f' a : Term} {seen : List Observation} :
      Evaluates scope f f' seen → Demands scope (.app f a) a
  | beta {f a a' t : Term} {x : String} {seen₁ seen₂ : List Observation} (s : Supply) :
      Evaluates scope f (.abs x t) seen₁ → Evaluates scope a a' seen₂ →
      Demands scope (.app f a) (t.subst x a' s).1
  | fix (x : String) (t : Term) (s : Supply) :
      Demands scope (.fix x t) (t.subst x (.fix x t) s).1
  | left (op : BinaryOp) (a b : Term) : Demands scope (.binary op a b) a
  | right {op : BinaryOp} {a a' b : Term} {seen : List Observation} :
      Evaluates scope a a' seen → Demands scope (.binary op a b) b
  | not (a : Term) : Demands scope (.not a) a
  | test (a b e : Term) : Demands scope (.cond a b e) a
  | branch {a b e : Term} {seen : List Observation} (choice : Bool) :
      Evaluates scope a (.lit (.bool choice)) seen →
      Demands scope (.cond a b e) (if choice then b else e)
  | subject (a : Term) (cases : List (Pattern × Term)) : Demands scope (.select a cases) a
  | body {a a' t : Term} {cases : List (Pattern × Term)} {bindings : Table String Term}
      {seen : List Observation} (s : Supply) :
      Evaluates scope a a' seen → a'.firstMatch cases = some (bindings, t) →
      Demands scope (.select a cases) (t.substMany bindings s).1

/-- The evaluation of the term fails on its own account. -/
inductive FailsAt (scope : Scope) : Term → EvalError → Prop
  | unbound {x : String} : scope.get? x = none → FailsAt scope (.var x) (.unboundVariable x)
  | fault {op : BinaryOp} {a a' b b' : Term} {e : EvalError} {seen₁ seen₂ : List Observation} :
      Evaluates scope a a' seen₁ → Evaluates scope b b' seen₂ → op.onTerms a' b' = .error e →
      FailsAt scope (.binary op a b) e
  | unmatched {a a' : Term} {cases : List (Pattern × Term)} {seen : List Observation} :
      Evaluates scope a a' seen → a'.firstMatch cases = none →
      FailsAt scope (.select a cases) (.noMatchingCase a')

/-- What passes to the terms that are demanded holds where the failure arises. -/
theorem Demands.reaches {scope : Scope} {P : Term → Prop}
    (hP : ∀ t u, Demands scope t u → P t → P u) {t u : Term}
    (h : ReflTransGen (Demands scope) t u) (ht : P t) : P u := by
  induction h with
  | refl => exact ht
  | tail _ hstep ih => exact hP _ _ hstep ih

/-- A failure arises at a term that is reached. -/
theorem exists_failsAt {scope : Scope} {n : Nat} {t : Term} {s s' : Supply} {e : EvalError}
    (h : t.evaluate scope n s = some (.error e, s')) :
    ∃ u, ReflTransGen (Demands scope) t u ∧ FailsAt scope u e := by
  induction n generalizing t s s' with
  | zero => cases h
  | succ n ih =>
    -- the failure of a term that is demanded
    have hpassed : ∀ {u : Term} {s s' : Supply}, Demands scope t u →
        u.evaluate scope n s = some (.error e, s') →
        ∃ u, ReflTransGen (Demands scope) t u ∧ FailsAt scope u e := by
      intro u s s' hu h
      obtain ⟨w, hw, hfails⟩ := ih h
      exact ⟨w, hw.head hu, hfails⟩
    cases t with
    | var x =>
      simp only [Term.evaluate] at h
      rcases hx : scope.get? x with _ | t
      · rw [hx] at h
        cases h
        exact ⟨_, .refl, .unbound hx⟩
      · rw [hx] at h
        exact hpassed (.var hx) h
    | lit l => cases h
    | abs x t => cases h
    | ctor name => cases h
    | app f a =>
      simp only [Term.evaluate] at h
      rcases Run.bind_eq_error_iff.1 h with h | ⟨f', s₁, hf, h⟩
      · exact hpassed (.func f a) h
      rcases Run.bind_eq_error_iff.1 h with h | ⟨a', s₂, ha, h⟩
      · exact hpassed (.arg (.of_evaluate hf)) h
      split at h
      · rcases Run.bind_eq_error_iff.1 h with h | ⟨t', s₃, ht, h⟩
        · cases h
        cases ht
        exact hpassed (.beta s₂ (.of_evaluate hf) (.of_evaluate ha)) h
      · cases h
    | fix x t =>
      simp only [Term.evaluate] at h
      rcases Run.bind_eq_error_iff.1 h with h | ⟨t', s₁, ht, h⟩
      · cases h
      cases ht
      exact hpassed (.fix x t s) h
    | binary op a b =>
      simp only [Term.evaluate] at h
      rcases Run.bind_eq_error_iff.1 h with h | ⟨a', s₁, ha, h⟩
      · exact hpassed (.left op a b) h
      rcases Run.bind_eq_error_iff.1 h with h | ⟨b', s₂, hb, h⟩
      · exact hpassed (.right (.of_evaluate ha)) h
      rcases Run.bind_eq_error_iff.1 h with h | ⟨r, s₃, hr, h⟩
      · rcases honTerms : op.onTerms a' b' with e' | r
        · rw [honTerms] at h
          cases h
          exact ⟨_, .refl, .fault (.of_evaluate ha) (.of_evaluate hb) honTerms⟩
        · rw [honTerms] at h
          cases h
      · split at h <;> cases h
    | not a =>
      simp only [Term.evaluate] at h
      rcases Run.bind_eq_error_iff.1 h with h | ⟨a', s₁, ha, h⟩
      · exact hpassed (.not a) h
      · split at h <;> cases h
    | cond a b e =>
      simp only [Term.evaluate] at h
      rcases Run.bind_eq_error_iff.1 h with h | ⟨a', s₁, ha, h⟩
      · exact hpassed (.test a b e) h
      split at h
      · exact hpassed (.branch true (.of_evaluate ha)) h
      · exact hpassed (.branch false (.of_evaluate ha)) h
      · cases h
    | select a cases =>
      simp only [Term.evaluate] at h
      rcases Run.bind_eq_error_iff.1 h with h | ⟨a', s₁, ha, h⟩
      · exact hpassed (.subject a cases) h
      rcases hmatch : a'.firstMatch cases with _ | ⟨bindings, t⟩
      · rw [hmatch] at h
        cases h
        exact ⟨_, .refl, .unmatched (.of_evaluate ha) hmatch⟩
      · rw [hmatch] at h
        rcases Run.bind_eq_error_iff.1 h with h | ⟨t', s₂, ht, h⟩
        · cases h
        cases ht
        exact hpassed (.body s₁ (.of_evaluate ha) hmatch) h

end CoreCalculus
