/-
  CoreCalculus/Proofs/BigStep.lean
  ================================
  **Evaluation as a relation**, without fuel and without the supply of ids.

  `Evaluates scope t v seen`: `t` evaluates to `v`, and `seen` lists what is observed on
  the way, in order: the subjects of matches, the tests of patterns, the operands of
  operators, and what recursions evaluate to.  There is one rule for each way a node can be
  reduced, and one for each node that stays.  A substitution may use any supply, so the
  relation says what every evaluation has in common, whatever names it makes up.

  The observations of a run of the evaluator are computed along its recursion
  (`Term.observe`), and each run that yields a value is in the relation, with its
  observations (`Evaluates.of_evaluate`).

  A value cannot be reduced any further: `Evaluated`.
-/
import CoreCalculus.Evaluation
import CoreCalculus.Proofs.Capture

namespace CoreCalculus

/-! ### Observations -/

inductive Observation where
  | matched (subject : Term)
  | tested (pattern : Pattern) (value : Term)
  | operated (op : BinaryOp) (left right : Term)
  | unfolded (value : Term)

/-- What follows a success. -/
def afterwards {σ ε α β : Type} (outcome : Option (Except ε α × σ)) (next : α → σ → List β) :
    List β :=
  match outcome with
  | some (.ok a, s) => next a s
  | _ => []

namespace Term

/-- What is observed while a term is evaluated. -/
def observe (scope : Scope) : Nat → Term → Supply → List Observation
  | 0, _, _ => []
  | fuel + 1, t, s =>
    match t with
    | .var x =>
      match scope.get? x with
      | some bound => bound.observe scope fuel s
      | none => []
    | .lit _ => []
    | .abs _ _ => []
    | .ctor _ => []
    | .app func arg =>
      func.observe scope fuel s ++ afterwards (func.evaluate scope fuel s) fun func s =>
      arg.observe scope fuel s ++ afterwards (arg.evaluate scope fuel s) fun arg s =>
        match func with
        | .abs x body => (body.subst x arg s).1.observe scope fuel (body.subst x arg s).2
        | _ => []
    | .fix x body =>
      let unfolded := body.subst x t s
      unfolded.1.observe scope fuel unfolded.2 ++
        afterwards (unfolded.1.evaluate scope fuel unfolded.2) fun value _ => [.unfolded value]
    | .binary op left right =>
      left.observe scope fuel s ++ afterwards (left.evaluate scope fuel s) fun left s =>
      right.observe scope fuel s ++ afterwards (right.evaluate scope fuel s) fun right _ =>
        [.operated op left right]
    | .not operand => operand.observe scope fuel s
    | .cond test yes no =>
      test.observe scope fuel s ++ afterwards (test.evaluate scope fuel s) fun test s =>
        match test with
        | .lit (.bool true) => yes.observe scope fuel s
        | .lit (.bool false) => no.observe scope fuel s
        | _ => []
    | .select subject cases =>
      subject.observe scope fuel s ++ afterwards (subject.evaluate scope fuel s) fun subject s =>
        .matched subject :: ((subject.testsOfCases cases).map (fun e => .tested e.1 e.2) ++
          match subject.firstMatch cases with
          | some (bindings, body) =>
            (body.substMany bindings s).1.observe scope fuel (body.substMany bindings s).2
          | none => [])

end Term

/-! ### The relation -/

inductive Evaluates (scope : Scope) : Term → Term → List Observation → Prop
  | var {x : String} {t v : Term} {seen : List Observation} :
      scope.get? x = some t → Evaluates scope t v seen → Evaluates scope (.var x) v seen
  | lit (l : Literal) : Evaluates scope (.lit l) (.lit l) []
  | abs (x : String) (t : Term) : Evaluates scope (.abs x t) (.abs x t) []
  | ctor (name : String) : Evaluates scope (.ctor name) (.ctor name) []
  | beta {f a a' t v : Term} {x : String} {seen₁ seen₂ seen₃ : List Observation} (s : Supply) :
      Evaluates scope f (.abs x t) seen₁ → Evaluates scope a a' seen₂ →
      Evaluates scope (t.subst x a' s).1 v seen₃ →
      Evaluates scope (.app f a) v (seen₁ ++ (seen₂ ++ seen₃))
  | app {f f' a a' : Term} {seen₁ seen₂ : List Observation} :
      Evaluates scope f f' seen₁ → Evaluates scope a a' seen₂ → (∀ x t, f' ≠ .abs x t) →
      Evaluates scope (.app f a) (.app f' a') (seen₁ ++ (seen₂ ++ []))
  | fix {x : String} {t v : Term} {seen : List Observation} (s : Supply) :
      Evaluates scope (t.subst x (.fix x t) s).1 v seen →
      Evaluates scope (.fix x t) v (seen ++ [.unfolded v])
  | computed {op : BinaryOp} {a a' b b' : Term} {l : Literal} {seen₁ seen₂ : List Observation} :
      Evaluates scope a a' seen₁ → Evaluates scope b b' seen₂ →
      op.onTerms a' b' = .ok (some l) →
      Evaluates scope (.binary op a b) (.lit l) (seen₁ ++ (seen₂ ++ [.operated op a' b']))
  | binary {op : BinaryOp} {a a' b b' : Term} {seen₁ seen₂ : List Observation} :
      Evaluates scope a a' seen₁ → Evaluates scope b b' seen₂ →
      op.onTerms a' b' = .ok none →
      Evaluates scope (.binary op a b) (.binary op a' b') (seen₁ ++ (seen₂ ++ [.operated op a' b']))
  | negated {a : Term} {b : Bool} {seen : List Observation} :
      Evaluates scope a (.lit (.bool b)) seen → Evaluates scope (.not a) (.lit (.bool !b)) seen
  | not {a a' : Term} {seen : List Observation} :
      Evaluates scope a a' seen → (∀ b, a' ≠ .lit (.bool b)) →
      Evaluates scope (.not a) (.not a') seen
  | branch {a b e v : Term} {seen₁ seen₂ : List Observation} (choice : Bool) :
      Evaluates scope a (.lit (.bool choice)) seen₁ →
      Evaluates scope (if choice then b else e) v seen₂ →
      Evaluates scope (.cond a b e) v (seen₁ ++ seen₂)
  | cond {a a' b e : Term} {seen : List Observation} :
      Evaluates scope a a' seen → (∀ b, a' ≠ .lit (.bool b)) →
      Evaluates scope (.cond a b e) (.cond a' b e) (seen ++ [])
  | select {a a' t v : Term} {cases : List (Pattern × Term)} {bindings : Table String Term}
      {seen₁ seen₂ : List Observation} (s : Supply) :
      Evaluates scope a a' seen₁ → a'.firstMatch cases = some (bindings, t) →
      Evaluates scope (t.substMany bindings s).1 v seen₂ →
      Evaluates scope (.select a cases) v
        (seen₁ ++
          (.matched a' :: ((a'.testsOfCases cases).map (fun e => .tested e.1 e.2) ++ seen₂)))

/-- A run of the evaluator that yields a value, with what is observed in it. -/
theorem Evaluates.of_evaluate {scope : Scope} {n : Nat} {t v : Term} {s s' : Supply}
    (h : t.evaluate scope n s = some (.ok v, s')) : Evaluates scope t v (t.observe scope n s) := by
  induction n generalizing t v s s' with
  | zero => cases h
  | succ n ih =>
    cases t with
    | var x =>
      simp only [Term.evaluate] at h
      simp only [Term.observe]
      rcases hx : scope.get? x with _ | t
      · rw [hx] at h
        cases h
      · rw [hx] at h
        exact .var hx (ih h)
    | lit l =>
      cases h
      exact .lit l
    | abs x t =>
      cases h
      exact .abs x t
    | ctor name =>
      cases h
      exact .ctor name
    | app f a =>
      simp only [Term.evaluate] at h
      obtain ⟨f', s₁, hf, h⟩ := Run.bind_eq_ok_iff.1 h
      obtain ⟨a', s₂, ha, h⟩ := Run.bind_eq_ok_iff.1 h
      simp only [Term.observe, hf, ha, afterwards]
      cases f' with
      | abs x t =>
        obtain ⟨t', s₃, ht, h⟩ := Run.bind_eq_ok_iff.1 h
        cases ht
        exact .beta s₂ (ih hf) (ih ha) (ih h)
      | _ =>
        cases h
        exact .app (ih hf) (ih ha) nofun
    | fix x t =>
      simp only [Term.evaluate] at h
      obtain ⟨t', s₁, ht, h⟩ := Run.bind_eq_ok_iff.1 h
      cases ht
      simp only [Term.observe, h, afterwards]
      exact .fix s (ih h)
    | binary op a b =>
      simp only [Term.evaluate] at h
      obtain ⟨a', s₁, ha, h⟩ := Run.bind_eq_ok_iff.1 h
      obtain ⟨b', s₂, hb, h⟩ := Run.bind_eq_ok_iff.1 h
      obtain ⟨r, s₃, hr, h⟩ := Run.bind_eq_ok_iff.1 h
      simp only [Term.observe, ha, hb, afterwards]
      rcases honTerms : op.onTerms a' b' with e | r'
      · rw [honTerms] at hr
        cases hr
      · rw [honTerms] at hr
        cases hr
        cases r with
        | none =>
          cases h
          exact .binary (ih ha) (ih hb) honTerms
        | some l =>
          cases h
          exact .computed (ih ha) (ih hb) honTerms
    | not a =>
      simp only [Term.evaluate] at h
      obtain ⟨a', s₁, ha, h⟩ := Run.bind_eq_ok_iff.1 h
      simp only [Term.observe]
      split at h
      · cases h
        exact .negated (ih ha)
      · rename_i hneutral
        cases h
        exact .not (ih ha) hneutral
    | cond a b e =>
      simp only [Term.evaluate] at h
      obtain ⟨a', s₁, ha, h⟩ := Run.bind_eq_ok_iff.1 h
      simp only [Term.observe, ha, afterwards]
      cases a' with
      | lit l =>
        cases l with
        | bool b =>
          cases b with
          | false => exact .branch false (ih ha) (ih h)
          | true => exact .branch true (ih ha) (ih h)
        | int n =>
          cases h
          exact .cond (ih ha) nofun
      | _ =>
        cases h
        exact .cond (ih ha) nofun
    | select a cases =>
      simp only [Term.evaluate] at h
      obtain ⟨a', s₁, ha, h⟩ := Run.bind_eq_ok_iff.1 h
      simp only [Term.observe, ha, afterwards]
      rcases hmatch : a'.firstMatch cases with _ | ⟨bindings, t⟩
      · rw [hmatch] at h
        cases h
      · rw [hmatch] at h
        obtain ⟨t', s₂, ht, h⟩ := Run.bind_eq_ok_iff.1 h
        cases ht
        exact .select s₁ (ih ha) hmatch (ih h)

/-! ### Values -/

namespace Term

/-- No rule applies to the term, and its evaluated parts are values too. -/
inductive Evaluated : Term → Prop
  | lit (l : Literal) : Evaluated (.lit l)
  | abs (x : String) (t : Term) : Evaluated (.abs x t)
  | ctor (name : String) : Evaluated (.ctor name)
  | app {f a : Term} : Evaluated f → Evaluated a → (∀ x t, f ≠ .abs x t) → Evaluated (.app f a)
  | binary {op : BinaryOp} {a b : Term} : Evaluated a → Evaluated b →
      op.onTerms a b = .ok none → Evaluated (.binary op a b)
  | not {a : Term} : Evaluated a → (∀ b, a ≠ .lit (.bool b)) → Evaluated (.not a)
  | cond {a : Term} (b e : Term) : Evaluated a → (∀ b, a ≠ .lit (.bool b)) →
      Evaluated (.cond a b e)

theorem Evaluated.of_mem_spine {v : Term} (h : v.Evaluated) : ∀ a ∈ v.spine.2, a.Evaluated := by
  induction h with
  | app _ ha _ ihf _ =>
    rw [spine, List.forall_mem_append, List.forall_mem_singleton]
    exact ⟨ihf, ha⟩
  | _ => exact List.forall_mem_nil _

end Term

theorem Evaluates.evaluated {scope : Scope} {t v : Term} {seen : List Observation}
    (h : Evaluates scope t v seen) : v.Evaluated := by
  induction h with
  | var _ _ ih => exact ih
  | lit l => exact .lit l
  | abs x t => exact .abs x t
  | ctor name => exact .ctor name
  | beta _ _ _ _ _ _ ih => exact ih
  | app _ _ hneutral ihf iha => exact .app ihf iha hneutral
  | fix _ _ ih => exact ih
  | computed => exact .lit _
  | binary _ _ hnone iha ihb => exact .binary iha ihb hnone
  | negated => exact .lit _
  | not _ hneutral ih => exact .not ih hneutral
  | branch _ _ _ _ ih => exact ih
  | cond _ hneutral ih => exact .cond _ _ ih hneutral
  | select _ _ _ _ _ ih => exact ih

end CoreCalculus
