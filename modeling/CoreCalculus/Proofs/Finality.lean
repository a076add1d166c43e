/-
  CoreCalculus/Proofs/Finality.lean
  =================================
  **What an evaluation yields is final.**

  Evaluating a value again yields the value itself and mints no name, in any scope.  A name is
  never looked up, since a value has none outside bodies and branches; no rule applies, since
  none applied before.

  A term is final with some fuel when it evaluates to itself with it (`Term.Final`); there is
  one lemma for each kind of node that evaluation may leave.  The values are exactly the terms
  that are final with enough fuel (`Term.evaluated_iff_final`).  The fuel that was enough to
  reach a value is enough to find that it is final (`Term.final_of_evaluate`): a second
  evaluation goes no deeper than the first.
-/
import CoreCalculus.Proofs.AlphaEvaluation

namespace CoreCalculus

namespace Term

/-- With so much fuel the term evaluates to itself, from any supply, and mints nothing. -/
def Final (scope : Scope) (fuel : Nat) (v : Term) : Prop := v.evaluate scope fuel = pure v

namespace Final

variable {scope : Scope} {n : Nat} {f a b : Term}

theorem lit (l : Literal) : Final scope (n + 1) (.lit l) := rfl

theorem abs (x : String) (t : Term) : Final scope (n + 1) (.abs x t) := rfl

theorem ctor (name : String) : Final scope (n + 1) (.ctor name) := rfl

theorem app (hf : Final scope n f) (ha : Final scope n a) (hneutral : ∀ x t, f ≠ .abs x t) :
    Final scope (n + 1) (.app f a) := by
  rw [Final, evaluate, hf, Run.pure_bind, ha, Run.pure_bind]
  cases f with
  | abs x t => exact absurd rfl (hneutral x t)
  | _ => rfl

theorem binary {op : BinaryOp} (ha : Final scope n a) (hb : Final scope n b)
    (hnone : op.onTerms a b = .ok none) : Final scope (n + 1) (.binary op a b) := by
  rw [Final, evaluate, ha, Run.pure_bind, hb, Run.pure_bind, hnone]
  rfl

theorem not (ha : Final scope n a) (hneutral : ∀ b, a ≠ .lit (.bool b)) :
    Final scope (n + 1) (.not a) := by
  rw [Final, evaluate, ha, Run.pure_bind]
  split
  · exact absurd rfl (hneutral _)
  · rfl

theorem cond (b e : Term) (ha : Final scope n a) (hneutral : ∀ b, a ≠ .lit (.bool b)) :
    Final scope (n + 1) (.cond a b e) := by
  rw [Final, evaluate, ha, Run.pure_bind]
  split
  · exact absurd rfl (hneutral _)
  · exact absurd rfl (hneutral _)
  · rfl

theorem succ (h : Final scope n a) : Final scope (n + 1) a := by
  funext s
  exact evaluate_le scope n a s _ (congrFun h s)

theorem mono {m : Nat} (hnm : n ≤ m) (h : Final scope n a) : Final scope m a := by
  induction m, hnm using Nat.le_induction with
  | base => exact h
  | succ m _ ih => exact ih.succ

end Final

/-! ### Values -/

theorem Evaluated.exists_final (scope : Scope) {v : Term} (h : v.Evaluated) :
    ∃ n, Final scope n v := by
  induction h with
  | lit l => exact ⟨1, .lit l⟩
  | abs x t => exact ⟨1, .abs x t⟩
  | ctor name => exact ⟨1, .ctor name⟩
  | app _ _ hneutral ihf iha =>
    obtain ⟨n, hf⟩ := ihf
    obtain ⟨m, ha⟩ := iha
    exact ⟨max n m + 1, .app (hf.mono (le_max_left n m)) (ha.mono (le_max_right n m)) hneutral⟩
  | binary _ _ hnone iha ihb =>
    obtain ⟨n, ha⟩ := iha
    obtain ⟨m, hb⟩ := ihb
    exact ⟨max n m + 1, .binary (ha.mono (le_max_left n m)) (hb.mono (le_max_right n m)) hnone⟩
  | not _ hneutral ih =>
    obtain ⟨n, ha⟩ := ih
    exact ⟨n + 1, .not ha hneutral⟩
  | cond b e _ hneutral ih =>
    obtain ⟨n, ha⟩ := ih
    exact ⟨n + 1, .cond b e ha hneutral⟩

/-- Data is a value. -/
theorem Evaluated.of_isData {v : Term} (h : v.isData) : v.Evaluated := by
  induction v using induct with
  | lit l => exact .lit l
  | ctor name => exact .ctor name
  | app f a ihf iha =>
    rw [isData, Bool.and_eq_true, Bool.and_eq_true] at h
    refine .app (ihf h.1.2) (iha h.2) ?_
    rintro x t rfl
    cases h.1.2
  | _ => cases h

/-- The values are the terms that evaluation leaves as they are. -/
theorem evaluated_iff_final (scope : Scope) {v : Term} : v.Evaluated ↔ ∃ n, Final scope n v := by
  refine ⟨Evaluated.exists_final scope, fun ⟨n, h⟩ => ?_⟩
  have hv : v.evaluate scope n ⟨0⟩ = some (.ok v, ⟨0⟩) := congrFun h ⟨0⟩
  exact (Evaluates.of_evaluate hv).evaluated

/-! ### Results -/

/-- Fuel that reaches a value is enough to find that it is final. -/
theorem final_of_evaluate {scope : Scope} (scope' : Scope) {n : Nat} {t v : Term} {s s' : Supply}
    (h : t.evaluate scope n s = some (.ok v, s')) : Final scope' n v := by
  induction n generalizing t v s s' with
  | zero => cases h
  | succ n ih =>
    cases t with
    | var x =>
      simp only [evaluate] at h
      rcases hx : scope.get? x with _ | bound
      · rw [hx] at h
        cases h
      · rw [hx] at h
        exact (ih h).succ
    | lit l =>
      cases h
      exact .lit l
    | abs x t =>
      cases h
      exact .abs x t
    | ctor name =>
      cases h
      exact .ctor name
    | app f a =>
      simp only [evaluate] at h
      obtain ⟨f', s₁, hf, h⟩ := Run.bind_eq_ok_iff.1 h
      obtain ⟨a', s₂, ha, h⟩ := Run.bind_eq_ok_iff.1 h
      cases f' with
      | abs x t =>
        obtain ⟨t', s₃, -, h⟩ := Run.bind_eq_ok_iff.1 h
        exact (ih h).succ
      | _ =>
        cases h
        exact .app (ih hf) (ih ha) (by rintro _ _ ⟨⟩)
    | fix x t =>
      simp only [evaluate] at h
      obtain ⟨t', s₁, -, h⟩ := Run.bind_eq_ok_iff.1 h
      exact (ih h).succ
    | binary op a b =>
      simp only [evaluate] at h
      obtain ⟨a', s₁, ha, h⟩ := Run.bind_eq_ok_iff.1 h
      obtain ⟨b', s₂, hb, h⟩ := Run.bind_eq_ok_iff.1 h
      obtain ⟨r, s₃, hr, h⟩ := Run.bind_eq_ok_iff.1 h
      cases r with
      | some l =>
        cases h
        exact .lit l
      | none =>
        cases h
        rcases honTerms : op.onTerms a' b' with e | r'
        · rw [honTerms] at hr
          cases hr
        · rw [honTerms] at hr
          cases hr
          exact .binary (ih ha) (ih hb) honTerms
    | not a =>
      simp only [evaluate] at h
      obtain ⟨a', s₁, ha, h⟩ := Run.bind_eq_ok_iff.1 h
      split at h
      · cases h
        exact .lit _
      · rename_i hneutral
        cases h
        exact .not (ih ha) hneutral
    | cond a b e =>
      simp only [evaluate] at h
      obtain ⟨a', s₁, ha, h⟩ := Run.bind_eq_ok_iff.1 h
      split at h
      · exact (ih h).succ
      · exact (ih h).succ
      · rename_i hfalse htrue
        cases h
        refine .cond b e (ih ha) fun choice => ?_
        cases choice with
        | false => exact htrue
        | true => exact hfalse
    | select a cases =>
      simp only [evaluate] at h
      obtain ⟨a', s₁, -, h⟩ := Run.bind_eq_ok_iff.1 h
      rcases hmatch : a'.firstMatch cases with _ | ⟨bindings, t⟩
      · rw [hmatch] at h
        cases h
      · rw [hmatch] at h
        obtain ⟨t', s₂, -, h⟩ := Run.bind_eq_ok_iff.1 h
        exact (ih h).succ

/-- **Results are final.**  What an evaluation yields evaluates to itself and leaves the supply of
    names as it is, in the same scope or any other, with the supply that is left or any other, and
    with the fuel that the first evaluation had.  Fuel makes no other answer possible. -/
theorem evaluation_final {scope : Scope} {fuel : Nat} {t v : Term} {s s' : Supply}
    (h : t.evaluate scope fuel s = some (.ok v, s')) (scope' : Scope) (again : Supply) :
    v.evaluate scope' fuel again = some (.ok v, again) ∧
      ∀ fuel' r, v.evaluate scope' fuel' again = some r → r = (.ok v, again) := by
  have hself : v.evaluate scope' fuel again = some (.ok v, again) :=
    congrFun (final_of_evaluate scope' h) again
  exact ⟨hself, fun fuel' r hr => (settles_evaluate hr).unique (settles_evaluate hself)⟩

end Term

/-- The comparison of two functions is stuck, so the conditional keeps its branches; the division
    in one of them is as little evaluated the second time as it was the first. -/
theorem evaluation_final_branches :
    let same : Term := .abs "z" (.var "z")
    let fault : Term := .binary .div (.lit (.int 1)) (.lit (.int 0))
    let t : Term :=
      .app (.abs "x" (.cond (.binary .eq (.var "x") (.var "x")) fault (.var "x"))) same
    let v : Term := .cond (.binary .eq same same) fault same
    t.evaluate .empty 4 ⟨7⟩ = some (.ok v, ⟨7⟩) ∧ v.evaluate .empty 4 ⟨7⟩ = some (.ok v, ⟨7⟩) := by
  intro same fault t v
  have hbody : ∀ b : Term, b = .cond (.binary .eq (.var "x") (.var "x")) fault (.var "x") →
      b.subst "x" same ⟨7⟩ = (v, ⟨7⟩) := by
    rintro b rfl
    have hx : (Table.ofList [("x", same)]).get? "x" = some same := rfl
    simp only [fault, Term.subst, Term.substMany, hx]
    rfl
  have h : t.evaluate .empty 4 ⟨7⟩ = some (.ok v, ⟨7⟩) := by
    change (Run.update (Term.subst _ "x" same) >>= Term.evaluate .empty 3) ⟨7⟩ = _
    rw [Run.bind_apply, Run.update_apply, hbody _ rfl]
    rfl
  exact ⟨h, (Term.evaluation_final h .empty ⟨7⟩).1⟩

end CoreCalculus
