/-
  CoreCalculus/Proofs/ScopeSubstitution.lean
  ==========================================
  **To bind a name to a closed term in the scope is to substitute the term for it.**

  The two evaluations pass through different terms: in the one the name stays in closures
  and branches, where binders of that name shadow it, and its term is evaluated at each use;
  in the other it is gone, and other binders have been renamed.  What they keep to is that
  each term of the second is the term of the first with the replacements made, up to the
  names of binders (`Term.Becomes`).  Closed terms are not changed by any of this, so a
  replacement made early commutes with what beta reduction and matching put in later
  (`Term.BecomesCase.substMany`).

  A value is never a name, so related values have the same layer, and the evaluations branch
  alike.  They differ in fuel: only the first one looks the name up, at most once at each
  depth.  So the fuel of the first is enough for the second, and twice the fuel of the second
  is enough for the first (`Term.evaluate_between`).
-/
import CoreCalculus.Proofs.AlphaEvaluation

namespace CoreCalculus

/-! ### One substitution after another -/

namespace Nameless

theorem subst_subst (r r' : String → Option Nameless) (n : Nameless) :
    (n.subst r).subst r' = n.subst fun x => some (((r x).getD (.free x)).subst r') := by
  induction n using induct with
  | select s cs ihs ihc =>
    rw [subst, subst, subst, ihs, substCases_eq_map, substCases_eq_map, substCases_eq_map,
      List.map_map]
    exact congrArg _ (List.map_congr_left fun c hc => congrArg (Prod.mk c.1) (ihc c hc))
  | _ => simp_all [subst]

end Nameless

/-- What is bound to the same keys in the same order. -/
theorem Table.rel_insertAll {κ α : Type} [DecidableEq κ] {R : α → α → Prop} (ks : List κ) {as bs : List α}
    (hab : List.Forall₂ R as bs) (t u : Table κ α)
    (h : ∀ k, Option.Rel R (t.get? k) (u.get? k)) (k : κ) :
    Option.Rel R ((t.insertAll (ks.zip as)).get? k) ((u.insertAll (ks.zip bs)).get? k) := by
  induction hab generalizing ks t u with
  | nil =>
    rw [List.zip_nil_right]
    exact h k
  | @cons a b as bs hab _ ih =>
    cases ks with
    | nil => exact h k
    | cons l ks =>
      refine ih ks (t.insert l a) (u.insert l b) fun k => ?_
      rw [get?_insert, get?_insert]
      split
      · exact .some hab
      · exact h k

namespace Term

/-! ### Terms with replacements made -/

variable {r : Replacements} {t t' : Term}

/-- The second term is the first with the replacements made, up to the names of binders. -/
def Becomes (r : Replacements) (t t' : Term) : Prop :=
  t'.nameless [] = (t.nameless []).subst r.nameless

/-- The same for cases, below the variables of their patterns. -/
def BecomesCase (r : Replacements) (c c' : Pattern × Term) : Prop :=
  Shape.ofPattern c.1 = Shape.ofPattern c'.1 ∧
    c'.2.nameless c'.1.vars.reverse = (c.2.nameless c.1.vars.reverse).subst r.nameless

theorem becomes_substMany (r : Replacements) (t : Term) (s : Supply) :
    Becomes r t (t.substMany r s).1 :=
  nameless_substMany r t s

theorem becomes_iff_alphaEq (s : Supply) : Becomes r t t' ↔ (t.substMany r s).1.AlphaEq t' := by
  rw [Becomes, AlphaEq, nameless_substMany, eq_comm]

/-- A term without the names stays as it is. -/
theorem becomes_iff_of_unused (h : ∀ x ∈ t.free, r.get? x = none) :
    Becomes r t t' ↔ t.AlphaEq t' := by
  have hself : (t.nameless []).subst r.nameless = t.nameless [] :=
    Nameless.subst_eq_self fun x hx => by
      rw [Replacements.nameless, h x (mem_freeNames_nameless_nil.1 hx)]
      rfl
  rw [Becomes, hself, AlphaEq, eq_comm]

/-- The terms have the same outermost layer, which is not a name that is replaced. -/
inductive BecomesLayer (r : Replacements) : Term → Term → Prop
  | var {x : String} : r.get? x = none → BecomesLayer r (.var x) (.var x)
  | lit (l : Literal) : BecomesLayer r (.lit l) (.lit l)
  | ctor (name : String) : BecomesLayer r (.ctor name) (.ctor name)
  | app {f f' a a' : Term} : Becomes r f f' → Becomes r a a' →
      BecomesLayer r (.app f a) (.app f' a')
  | abs {x x' : String} {t t' : Term} : BecomesCase r (.var x, t) (.var x', t') →
      BecomesLayer r (.abs x t) (.abs x' t')
  | fix {x x' : String} {t t' : Term} : BecomesCase r (.var x, t) (.var x', t') →
      BecomesLayer r (.fix x t) (.fix x' t')
  | binary (op : BinaryOp) {a a' b b' : Term} : Becomes r a a' → Becomes r b b' →
      BecomesLayer r (.binary op a b) (.binary op a' b')
  | not {a a' : Term} : Becomes r a a' → BecomesLayer r (.not a) (.not a')
  | cond {a a' b b' c c' : Term} : Becomes r a a' → Becomes r b b' → Becomes r c c' →
      BecomesLayer r (.cond a b c) (.cond a' b' c')
  | select {a a' : Term} {cs cs' : List (Pattern × Term)} : Becomes r a a' →
      List.Forall₂ (BecomesCase r) cs cs' → BecomesLayer r (.select a cs) (.select a' cs')

theorem becomesCases_iff {cs cs' : List (Pattern × Term)} :
    namelessCases [] cs' = Nameless.substCases r.nameless (namelessCases [] cs) ↔
      List.Forall₂ (BecomesCase r) cs cs' := by
  induction cs generalizing cs' with
  | nil => cases cs' <;> simp [namelessCases, Nameless.substCases]
  | cons c cs ih =>
    cases cs' with
    | nil => simp [namelessCases, Nameless.substCases]
    | cons c' cs' =>
      simp [namelessCases, Nameless.substCases, BecomesCase, ih, eq_comm (a := Shape.ofPattern c.1)]

/-- Only a name that is replaced may have another layer put in its place. -/
theorem Becomes.layer (h : Becomes r t t') (ht : ∀ x, t = .var x → r.get? x = none) :
    BecomesLayer r t t' := by
  have hlayer := ((becomes_iff_alphaEq ⟨0⟩).1 h).layer
  cases t with
  | var x =>
    have hx := ht x rfl
    rw [substMany, hx] at hlayer
    cases hlayer with
    | @var _ y hxy =>
      obtain rfl : x = y := by simpa [Scope.resolve, Scope.place] using hxy
      exact .var hx
  | lit l =>
    rw [substMany] at hlayer
    cases hlayer
    exact .lit l
  | ctor name =>
    rw [substMany] at hlayer
    cases hlayer
    exact .ctor name
  | app f a =>
    rw [substMany] at hlayer
    cases hlayer
    rw [Becomes, nameless, nameless, Nameless.subst, Nameless.app.injEq] at h
    exact .app h.1 h.2
  | abs x t =>
    rw [substMany] at hlayer
    cases hlayer
    rw [Becomes, nameless, nameless, Nameless.subst, Nameless.abs.injEq] at h
    exact .abs ⟨rfl, h⟩
  | fix x t =>
    rw [substMany] at hlayer
    cases hlayer
    rw [Becomes, nameless, nameless, Nameless.subst, Nameless.fix.injEq] at h
    exact .fix ⟨rfl, h⟩
  | binary op a b =>
    rw [substMany] at hlayer
    cases hlayer
    rw [Becomes, nameless, nameless, Nameless.subst, Nameless.binary.injEq] at h
    exact .binary op h.2.1 h.2.2
  | not a =>
    rw [substMany] at hlayer
    cases hlayer
    rw [Becomes, nameless, nameless, Nameless.subst, Nameless.not.injEq] at h
    exact .not h
  | cond a b c =>
    rw [substMany] at hlayer
    cases hlayer
    rw [Becomes, nameless, nameless, Nameless.subst, Nameless.cond.injEq] at h
    exact .cond h.1 h.2.1 h.2.2
  | select a cs =>
    rw [substMany] at hlayer
    cases hlayer
    rw [Becomes, nameless, nameless, Nameless.subst, Nameless.select.injEq] at h
    exact .select h.1 (becomesCases_iff.1 h.2)

theorem BecomesLayer.becomes (h : BecomesLayer r t t') : Becomes r t t' := by
  cases h with
  | var hx => exact (becomes_iff_of_unused (by simpa [free] using hx)).2 (.refl _)
  | lit l => rfl
  | ctor name => rfl
  | app hf ha => rw [Becomes, nameless, nameless, Nameless.subst, hf, ha]
  | abs hbody => exact congrArg Nameless.abs hbody.2
  | fix hbody => exact congrArg Nameless.fix hbody.2
  | binary op ha hb => rw [Becomes, nameless, nameless, Nameless.subst, ha, hb]
  | not ha => exact congrArg Nameless.not ha
  | cond ha hb hc => rw [Becomes, nameless, nameless, Nameless.subst, ha, hb, hc]
  | select ha hcs =>
    rw [Becomes, nameless, nameless, Nameless.subst, ha, becomesCases_iff.2 hcs]

end Term

/-! ### What is put in later -/

namespace Replacements

/-- All replacements are closed terms. -/
def Closed (r : Replacements) : Prop := ∀ x v, r.get? x = some v → v.free = []

/-- The replacements of names that are not among `xs`. -/
def outside (r : Replacements) (xs : List String) : Replacements := r.restrict (· ∉ xs)

variable {r : Replacements} {xs : List String}

theorem get?_outside (x : String) :
    (r.outside xs).get? x = if x ∉ xs then r.get? x else none := by
  simp [outside]

/-- Neither a name among `xs` nor a name free in a replacement gets in the way below `xs`. -/
theorem Closed.apart (h : r.Closed) : Term.Apart (r.outside xs) xs.reverse := by
  intro y hy
  rw [List.mem_reverse] at hy
  refine ⟨fun hc => ?_, by rw [get?_outside, if_neg (not_not_intro hy)]⟩
  obtain ⟨x, v, hx, hv⟩ := mem_captured.1 hc
  rw [get?_outside] at hx
  split at hx
  · rw [h x v hx] at hv
    exact List.not_mem_nil hv
  · cases hx

end Replacements

namespace Term

variable {r : Replacements} {c c' : Pattern × Term}

/-- The replacements may be made in the body before anything is put in for its variables. -/
theorem BecomesCase.nameless_body (h : BecomesCase r c c') (hr : r.Closed) (s : Supply) :
    (c.2.substMany (r.outside c.1.vars) s).1.nameless c.1.vars.reverse =
      c'.2.nameless c'.1.vars.reverse := by
  rw [h.2, substMany_induct commutes_closed _ c.2 s _ hr.apart]
  refine Nameless.subst_congr fun x hx => ?_
  rw [Replacements.nameless, Replacements.nameless, Replacements.get?_outside,
    if_pos (by simpa using (mem_freeNames_nameless.1 hx).2)]

/-- What stands for a name first, and has the replacements made then, stands for it as well when
    they come first. -/
theorem becomes_standIn (hr : r.Closed) {σ σ' : Replacements} {xs : List String}
    (hkeys : ∀ x, σ.get? x = none ↔ x ∉ xs)
    (hσ : ∀ x, Option.Rel (Becomes r) (σ.get? x) (σ'.get? x)) (x : String) (s : Supply) :
    Becomes r (σ.standIn x) (((r.outside xs).standIn x).substMany σ' s).1 := by
  have hx := hσ x
  have hkey := hkeys x
  rw [Replacements.standIn, Replacements.standIn, Replacements.get?_outside]
  generalize σ.get? x = o at hx hkey ⊢
  generalize ho' : σ'.get? x = o' at hx
  cases hx with
  | @some v v' hvv =>
    rw [if_neg (mt hkey.2 (Option.some_ne_none v)), Option.getD_none, substMany, ho']
    exact hvv
  | none =>
    rw [if_pos (hkey.1 rfl), Option.getD_none]
    rcases hw : r.get? x with _ | w
    · rw [Option.getD_none, substMany, ho']
      exact (BecomesLayer.var hw).becomes
    · -- Nothing is put in for a name of a closed term.
      have hself : w.AlphaEq (w.substMany σ' s).1 :=
        (becomes_iff_of_unused (by simp [hr x w hw])).1 (becomes_substMany σ' w s)
      rw [becomes_iff_alphaEq s, substMany, hw]
      exact hself

/-- **Replacements by closed terms commute with what is put in later** for the variables of a
    case. -/
theorem BecomesCase.substMany (h : BecomesCase r c c') (hr : r.Closed) {vs vs' : List Term}
    (hvs : List.Forall₂ (Becomes r) vs vs') (hlength : c.1.vars.length = vs.length)
    (s s' : Supply) :
    Becomes r (c.2.substMany (.ofList (c.1.vars.zip vs)) s).1
      (c'.2.substMany (.ofList (c'.1.vars.zip vs')) s').1 := by
  have hlength' : c.1.vars.length = vs'.length := hlength.trans hvs.length_eq
  have halpha : ((c.2.substMany (r.outside c.1.vars) s).1.substMany
      (.ofList (c.1.vars.zip vs')) s).1.AlphaEq
        (c'.2.substMany (.ofList (c'.1.vars.zip vs')) s').1 := by
    have hbody := h.nameless_body hr s
    rw [← List.append_nil c.1.vars.reverse, ← List.append_nil c'.1.vars.reverse] at hbody
    refine substMany_alphaEq hbody ?_ s s'
    exact Replacements.aligned_insertAll _ _ aligned_empty hlength'
      ((Pattern.length_vars_eq h.1).symm.trans hlength') (List.forall₂_same.2 fun v _ => .refl v)
  have hput := Table.rel_insertAll c.1.vars hvs .empty .empty fun _ => .none
  -- On both sides two substitutions are one, and these agree name by name.
  rw [Becomes, ← halpha, nameless_substMany, nameless_substMany, nameless_substMany,
    Nameless.subst_subst, Nameless.subst_subst]
  refine Nameless.subst_congr fun x _ => congrArg some ?_
  rw [← Replacements.nameless_standIn, ← Replacements.nameless_standIn,
    ← nameless_substMany _ _ s]
  exact becomes_standIn hr (fun _ => Table.get?_ofList_zip_eq_none_iff hlength) hput x s

/-- A replacement is not replaced again. -/
theorem Becomes.of_replaced (hr : r.Closed) {x : String} {v t' : Term} (hx : r.get? x = some v)
    (h : Becomes r (.var x) t') : Becomes r v t' := by
  have halpha := (becomes_iff_alphaEq ⟨0⟩).1 h
  rw [Term.substMany, hx] at halpha
  exact (becomes_iff_of_unused (by simp [hr x v hx])).2 halpha

/-! ### Values -/

/-- The first is a value, and the second is what it becomes. -/
structure ValueBecomes (r : Replacements) (v w : Term) : Prop where
  evaluated : v.Evaluated
  becomes : Becomes r v w

theorem Evaluated.ne_var {v : Term} (h : v.Evaluated) (x : String) : v ≠ .var x := by
  rintro rfl
  cases h

namespace ValueBecomes

variable {v w : Term}

theorem layer (h : ValueBecomes r v w) : BecomesLayer r v w :=
  h.becomes.layer fun x hx => absurd hx (h.evaluated.ne_var x)

theorem lit (l : Literal) : ValueBecomes r (.lit l) (.lit l) := ⟨.lit l, rfl⟩

section

variable {f f' a a' b b' e e' : Term}

theorem app (hf : ValueBecomes r f f') (ha : ValueBecomes r a a')
    (hneutral : ∀ x t, f ≠ .abs x t) : ValueBecomes r (.app f a) (.app f' a') :=
  ⟨.app hf.evaluated ha.evaluated hneutral, (BecomesLayer.app hf.becomes ha.becomes).becomes⟩

theorem binary {op : BinaryOp} (ha : ValueBecomes r a a') (hb : ValueBecomes r b b')
    (hnone : op.onTerms a b = .ok none) : ValueBecomes r (.binary op a b) (.binary op a' b') :=
  ⟨.binary ha.evaluated hb.evaluated hnone, (BecomesLayer.binary op ha.becomes hb.becomes).becomes⟩

theorem not (ha : ValueBecomes r a a') (hneutral : ∀ b, a ≠ .lit (.bool b)) :
    ValueBecomes r (.not a) (.not a') :=
  ⟨.not ha.evaluated hneutral, (BecomesLayer.not ha.becomes).becomes⟩

theorem cond (ha : ValueBecomes r a a') (hb : Becomes r b b') (he : Becomes r e e')
    (hneutral : ∀ b, a ≠ .lit (.bool b)) : ValueBecomes r (.cond a b e) (.cond a' b' e') :=
  ⟨.cond b e ha.evaluated hneutral, (BecomesLayer.cond ha.becomes hb he).becomes⟩

end

/-- Data has no names. -/
theorem eq_of_isData (h : ValueBecomes r v w) (hdata : v.isData ∨ w.isData) : v = w := by
  obtain ⟨hv, hvw⟩ := h
  induction hv generalizing w with
  | lit l =>
    cases hvw.layer (by rintro _ ⟨⟩)
    rfl
  | ctor name =>
    cases hvw.layer (by rintro _ ⟨⟩)
    rfl
  | app _ _ _ ihf iha =>
    cases hvw.layer (by rintro _ ⟨⟩) with
    | app hf ha =>
      simp only [isData, Bool.and_eq_true] at hdata
      rw [ihf (hdata.imp (·.1.2) (·.1.2)) hf, iha (hdata.imp (·.2) (·.2)) ha]
  | _ =>
    cases hvw.layer (by rintro _ ⟨⟩)
    all_goals simp [isData] at hdata

theorem spine (h : ValueBecomes r v w) :
    (∀ name, v.spine.1 = .ctor name ↔ w.spine.1 = .ctor name) ∧
      List.Forall₂ (ValueBecomes r) v.spine.2 w.spine.2 := by
  obtain ⟨hv, hvw⟩ := h
  induction hv generalizing w with
  | ctor name =>
    cases hvw.layer (by rintro _ ⟨⟩)
    exact ⟨fun _ => .rfl, .nil⟩
  | app _ ha _ ihf _ =>
    cases hvw.layer (by rintro _ ⟨⟩) with
    | app hff haa =>
      obtain ⟨hhead, hargs⟩ := ihf hff
      exact ⟨hhead, List.rel_append hargs (.cons ⟨ha, haa⟩ .nil)⟩
  | _ =>
    cases hvw.layer (by rintro _ ⟨⟩)
    all_goals exact ⟨fun _ => ⟨nofun, nofun⟩, .nil⟩

end ValueBecomes

theorem looksAlike_becomes : LooksAlike (ValueBecomes r) where
  literal?_eq h := by cases h.layer <;> rfl
  head_iff h := h.spine.1
  args h := h.spine.2

end Term

/-! ### Outcomes -/

/-- The same failure; what it is about is the same, or becomes the other. -/
def EvalError.Becomes (r : Replacements) : EvalError → EvalError → Prop
  | .unboundVariable x, .unboundVariable y => x = y
  | .divisionByZero t, .divisionByZero u => t = u
  | .overflow t, .overflow u => t = u
  | .noMatchingCase t, .noMatchingCase u => t.Becomes r u
  | _, _ => False

theorem EvalError.becomes_ofFault (r : Replacements) (t : Term) (fault : Fault) :
    (ofFault t fault).Becomes r (ofFault t fault) := by
  cases fault <;> exact rfl

/-- Two successes with related values, or two failures that are related. -/
inductive Outcome {α : Type} (E : EvalError → EvalError → Prop) (R : α → α → Prop) :
    Except EvalError α → Except EvalError α → Prop
  | ok {a b : α} : R a b → Outcome E R (.ok a) (.ok b)
  | error {e e' : EvalError} : E e e' → Outcome E R (.error e) (.error e')

theorem Outcome.symm {α : Type} {E : EvalError → EvalError → Prop} {R : α → α → Prop}
    {o o' : Except EvalError α} (h : Outcome (flip E) (flip R) o o') : Outcome E R o' o := by
  cases h with
  | ok hab => exact .ok hab
  | error he => exact .error he

namespace Evaluation

variable {α β : Type} {E : EvalError → EvalError → Prop} {R : α → α → Prop} {Q : β → β → Prop}

/-- From any two supplies the second run answers where the first one does, and with a related
    outcome. -/
def Follows (E : EvalError → EvalError → Prop) (R : α → α → Prop) (m m' : Evaluation α) : Prop :=
  ∀ s s' o, m s = some o → ∃ o', m' s' = some o' ∧ Outcome E R o.1 o'.1

namespace Follows

theorem outOfFuel (m : Evaluation α) : Follows E R Run.outOfFuel m := by
  intro s s' o h
  cases h

theorem pure {a b : α} (h : R a b) : Follows E R (Pure.pure a) (Pure.pure b) := by
  rintro s s' o ⟨⟩
  exact ⟨_, rfl, .ok h⟩

theorem fail {e e' : EvalError} (h : E e e') : Follows E R (Run.fail e) (Run.fail e') := by
  rintro s s' o ⟨⟩
  exact ⟨_, rfl, .error h⟩

theorem update {f g : Supply → α × Supply} (h : ∀ s s', R (f s).1 (g s').1) :
    Follows E R (Run.update f) (Run.update g) := by
  rintro s s' o ⟨⟩
  exact ⟨_, rfl, .ok (h s s')⟩

theorem bind {m m' : Evaluation α} {f f' : α → Evaluation β} (hm : Follows E R m m')
    (hf : ∀ a b, R a b → Follows E Q (f a) (f' b)) : Follows E Q (m >>= f) (m' >>= f') := by
  rintro s s' ⟨r, s''⟩ h
  rcases Run.bind_eq_some_iff.1 h with ⟨e, hms, rfl⟩ | ⟨a, s₁, hms, h⟩
  · obtain ⟨⟨o', s₁'⟩, hms', _ | he⟩ := hm s s' _ hms
    exact ⟨_, by rw [Run.bind_apply, hms'], .error he⟩
  · obtain ⟨⟨o', s₁'⟩, hms', hab | _⟩ := hm s s' _ hms
    rw [Run.bind_apply, hms']
    exact hf _ _ hab s₁ s₁' _ h

theorem of_le {m m₁ m' m₁' : Evaluation α} (hm : m₁.Le m) (hm' : m'.Le m₁')
    (h : Follows E R m m') : Follows E R m₁ m₁' := by
  intro s s' o ho
  obtain ⟨o', ho', houtcome⟩ := h s s' o (hm s o ho)
  exact ⟨o', hm' s' o' ho', houtcome⟩

end Follows

/-- The second run answers where the first one does, the last one where the second does, and the
    outcomes are related, the second run standing on the right. -/
structure Between (E : EvalError → EvalError → Prop) (R : α → α → Prop)
    (m m' M : Evaluation α) : Prop where
  forth : Follows E R m m'
  back : Follows (flip E) (flip R) m' M

namespace Between

theorem outOfFuel (M : Evaluation α) : Between E R Run.outOfFuel Run.outOfFuel M :=
  ⟨.outOfFuel _, .outOfFuel M⟩

theorem pure {a b : α} (h : R a b) :
    Between E R (Pure.pure a) (Pure.pure b) (Pure.pure a) :=
  ⟨.pure h, .pure h⟩

theorem fail {e e' : EvalError} (h : E e e') :
    Between E R (Run.fail e) (Run.fail e') (Run.fail e) :=
  ⟨.fail h, .fail h⟩

theorem update {f g : Supply → α × Supply} (h : ∀ s s', R (f s).1 (g s').1) :
    Between E R (Run.update f) (Run.update g) (Run.update f) :=
  ⟨.update h, .update fun s s' => h s' s⟩

theorem bind {m m' M : Evaluation α} {f f' F : α → Evaluation β} (hm : Between E R m m' M)
    (hf : ∀ a b, R a b → Between E Q (f a) (f' b) (F a)) :
    Between E Q (m >>= f) (m' >>= f') (M >>= F) :=
  ⟨hm.forth.bind fun a b hab => (hf a b hab).forth,
    hm.back.bind fun b a hab => (hf a b hab).back⟩

theorem of_le {m m₁ m' M M₁ : Evaluation α} (hm : m₁.Le m) (hM : M.Le M₁)
    (h : Between E R m m' M) : Between E R m₁ m' M₁ :=
  ⟨h.forth.of_le hm (.refl m'), h.back.of_le (.refl m') hM⟩

end Between

end Evaluation

/-! ### Evaluation -/

namespace Term

variable {r : Replacements} {scope scope' : Scope}

/-- The first scope binds what is replaced, all of it closed, and otherwise what the second one
    binds, where nothing is to be replaced. -/
structure ScopeBinds (r : Replacements) (scope scope' : Scope) : Prop where
  closed : r.Closed
  get?_eq (x : String) : scope.get? x = (r.get? x).or (scope'.get? x)
  unused {x : String} {t : Term} : scope'.get? x = some t → ∀ y ∈ t.free, r.get? y = none

/-- The same case takes both values, with related bodies. -/
theorem firstMatch_becomes (hr : r.Closed) {v w : Term} (hvw : ValueBecomes r v w)
    {cs cs' : List (Pattern × Term)} (hcs : List.Forall₂ (BecomesCase r) cs cs') :
    Option.Rel (fun e e' => ∀ s s', Becomes r (e.2.substMany e.1 s).1 (e'.2.substMany e'.1 s').1)
      (v.firstMatch cs) (w.firstMatch cs') := by
  refine firstMatch_rel looksAlike_becomes (fun _ _ hc => hc.1) ?_ hvw hcs
  intro c c' vs ws hc hvs _ hvws s s'
  exact hc.substMany hr (hvws.imp fun _ _ h => h.becomes) hvs s s'

/-- One layer, with whatever fuel is between for the layers inside. -/
theorem BecomesLayer.evaluate_between (hscope : ScopeBinds r scope scope') {n k : Nat}
    (ih : ∀ t t', Becomes r t t' → Evaluation.Between (EvalError.Becomes r) (ValueBecomes r)
      (t.evaluate scope n) (t'.evaluate scope' n) (t.evaluate scope k))
    {t t' : Term} (h : BecomesLayer r t t') :
    Evaluation.Between (EvalError.Becomes r) (ValueBecomes r)
      (t.evaluate scope (n + 1)) (t'.evaluate scope' (n + 1)) (t.evaluate scope (k + 1)) := by
  cases h with
  | @var x hx =>
    simp only [evaluate, hscope.get?_eq x, hx, Option.none_or]
    rcases hu : scope'.get? x with _ | u
    · exact .fail rfl
    · exact ih u u ((becomes_iff_of_unused (hscope.unused hu)).2 (.refl u))
  | lit l => exact .pure (.lit l)
  | ctor name => exact .pure ⟨.ctor name, rfl⟩
  | abs hbody => exact .pure ⟨.abs _ _, (BecomesLayer.abs hbody).becomes⟩
  | app hf ha =>
    simp only [evaluate]
    refine (ih _ _ hf).bind fun f f' hff => (ih _ _ ha).bind fun a a' haa => ?_
    cases hff.layer with
    | abs hbody =>
      refine (Evaluation.Between.update fun s s' => ?_).bind ih
      exact hbody.substMany hscope.closed (.cons haa.becomes .nil) rfl s s'
    | var _ => exact absurd rfl (hff.evaluated.ne_var _)
    | _ => exact .pure (hff.app haa (by rintro _ _ ⟨⟩))
  | fix hbody =>
    simp only [evaluate]
    refine (Evaluation.Between.update fun s s' => ?_).bind ih
    exact hbody.substMany hscope.closed (.cons (BecomesLayer.fix hbody).becomes .nil) rfl s s'
  | binary op ha hb =>
    simp only [evaluate]
    refine (ih _ _ ha).bind fun a a' haa => (ih _ _ hb).bind fun b b' hbb => ?_
    rw [← op.onTerms_congr haa.eq_of_isData hbb.eq_of_isData]
    rcases hr : op.onTerms a b with e | _ | l
    · obtain ⟨fault, rfl⟩ := BinaryOp.exists_fault_of_onTerms hr
      exact .fail (EvalError.becomes_ofFault r _ fault)
    · exact .pure (haa.binary hbb hr)
    · exact .pure (.lit l)
  | not ha =>
    simp only [evaluate]
    refine (ih _ _ ha).bind fun a a' haa => ?_
    cases haa.layer with
    | lit l =>
      cases l with
      | int i => exact .pure (haa.not (by rintro _ ⟨⟩))
      | bool b => exact .pure (.lit _)
    | var _ => exact absurd rfl (haa.evaluated.ne_var _)
    | _ => exact .pure (haa.not (by rintro _ ⟨⟩))
  | cond ha hb hc =>
    simp only [evaluate]
    refine (ih _ _ ha).bind fun a a' haa => ?_
    cases haa.layer with
    | lit l =>
      rcases l with _ | _ | _
      · exact .pure (haa.cond hb hc (by rintro _ ⟨⟩))
      · exact ih _ _ hc
      · exact ih _ _ hb
    | var _ => exact absurd rfl (haa.evaluated.ne_var _)
    | _ => exact .pure (haa.cond hb hc (by rintro _ ⟨⟩))
  | select ha hcs =>
    simp only [evaluate]
    refine (ih _ _ ha).bind fun v w hvw => ?_
    have hmatch := firstMatch_becomes hscope.closed hvw hcs
    generalize v.firstMatch _ = o, w.firstMatch _ = o' at hmatch ⊢
    cases hmatch with
    | none => exact .fail hvw.becomes
    | @some e e' hbody => exact (Evaluation.Between.update hbody).bind ih

/-- **The two evaluations keep to what becomes what.**  The first one looks a replaced name up
    before it goes on as the second one does, so it takes up to twice the fuel. -/
theorem evaluate_between (hscope : ScopeBinds r scope scope') (n : Nat) {t t' : Term}
    (h : Becomes r t t') :
    Evaluation.Between (EvalError.Becomes r) (ValueBecomes r)
      (t.evaluate scope n) (t'.evaluate scope' n) (t.evaluate scope (2 * n)) := by
  induction n generalizing t t' with
  | zero => exact .outOfFuel _
  | succ n ih =>
    have hlayer : ∀ {u}, BecomesLayer r u t' →
        Evaluation.Between (EvalError.Becomes r) (ValueBecomes r) (u.evaluate scope (n + 1))
          (t'.evaluate scope' (n + 1)) (u.evaluate scope (2 * n + 1)) :=
      fun hu => hu.evaluate_between hscope fun _ _ => ih
    -- Where a name is looked up, the layers to be compared are those of its term, which is closed
    -- and hence not a name again.
    by_cases hvar : ∃ x v, t = .var x ∧ r.get? x = some v
    · obtain ⟨x, v, rfl, hx⟩ := hvar
      have hlookup : ∀ m, (Term.var x).evaluate scope (m + 1) = v.evaluate scope m := by
        intro m
        simp only [evaluate, hscope.get?_eq x, hx, Option.some_or]
      have hvlayer := (h.of_replaced hscope.closed hx).layer fun y hy => by
        have hfree := hscope.closed x v hx
        rw [hy] at hfree
        cases hfree
      exact (hlayer hvlayer).of_le (hlookup n ▸ evaluate_le scope n v)
        (hlookup (2 * n + 1) ▸ Run.Le.refl _)
    · have hvlayer := h.layer fun x hx => by
        by_contra hsome
        obtain ⟨v, hv⟩ := Option.ne_none_iff_exists'.1 hsome
        exact hvar ⟨x, v, hx, hv⟩
      exact (hlayer hvlayer).of_le (Run.Le.refl _) (evaluate_le scope (2 * n + 1) t)

/-- Each answer of the second evaluation is one of the first. -/
theorem exists_evaluate_of_becomes (hscope : ScopeBinds r scope scope') {t t' : Term}
    (h : Becomes r t t') {fuel : Nat} {s' : Supply} (s : Supply)
    {o' : Except EvalError Term × Supply} (ho' : t'.evaluate scope' fuel s' = some o') :
    ∃ o, t.evaluate scope (2 * fuel) s = some o ∧
      Outcome (EvalError.Becomes r) (ValueBecomes r) o.1 o'.1 := by
  obtain ⟨o, ho, houtcome⟩ := (evaluate_between hscope fuel h).back s' s o' ho'
  exact ⟨o, ho, houtcome.symm⟩

/-- The same data on both sides. -/
theorem evaluate_data_iff (hscope : ScopeBinds r scope scope') {t t' : Term}
    (h : Becomes r t t') (s s' : Supply) {d : Term} (hd : d.isData) :
    (∃ fuel rest, t.evaluate scope fuel s = some (.ok d, rest)) ↔
      ∃ fuel rest, t'.evaluate scope' fuel s' = some (.ok d, rest) := by
  constructor
  · rintro ⟨fuel, rest, ho⟩
    obtain ⟨⟨o', rest'⟩, ho', hdd | _⟩ := (evaluate_between hscope fuel h).forth s s' _ ho
    rw [← hdd.eq_of_isData (.inl hd)] at ho'
    exact ⟨fuel, rest', ho'⟩
  · rintro ⟨fuel, rest', ho'⟩
    obtain ⟨⟨o, rest⟩, ho, hdd | _⟩ := exists_evaluate_of_becomes hscope h s ho'
    rw [hdd.eq_of_isData (.inr hd)] at ho
    exact ⟨2 * fuel, rest, ho⟩

theorem scopeBinds_insert {x : String} {v : Term} (hv : v.free = [])
    (hscope : ∀ y u, scope.get? y = some u → x ∉ u.free) :
    ScopeBinds (Table.ofList [(x, v)]) (scope.insert x v) scope := by
  have hget : ∀ y, (Table.ofList [(x, v)]).get? y = if y = x then some v else none := fun y =>
    Table.get?_insert .empty x y v
  refine ⟨fun y u hy => ?_, fun y => ?_, fun {y u} hy z hz => ?_⟩
  · rw [hget] at hy
    split at hy
    · cases hy
      exact hv
    · cases hy
  · rw [Table.get?_insert, hget]
    split <;> rfl
  · rw [hget, if_neg]
    rintro rfl
    exact hscope y u hy hz

/-- **A binding in the scope acts like a substitution.**  The scope binds `x` to a closed term, and
    none of its other terms has `x` free.  Then a term evaluates to data exactly when the term
    with the substitution made does, to the same data, without the binding and with any supplies;
    each answer of the first evaluation is one of the second with the same fuel, and each answer
    of the second is one of the first with twice the fuel: values of which the one becomes the
    other, or the same failure. -/
theorem scope_binding_substitutes {scope : Scope} {x : String} {v : Term} (hv : v.free = [])
    (hscope : ∀ y u, scope.get? y = some u → x ∉ u.free) (t : Term) (s₀ s s' : Supply) :
    (∀ d : Term, d.isData →
      ((∃ fuel rest, t.evaluate (scope.insert x v) fuel s = some (.ok d, rest)) ↔
        ∃ fuel rest, (t.subst x v s₀).1.evaluate scope fuel s' = some (.ok d, rest))) ∧
    (∀ fuel o, t.evaluate (scope.insert x v) fuel s = some o →
      ∃ o', (t.subst x v s₀).1.evaluate scope fuel s' = some o' ∧
        Outcome (EvalError.Becomes (Table.ofList [(x, v)]))
          (ValueBecomes (Table.ofList [(x, v)])) o.1 o'.1) ∧
    ∀ fuel o', (t.subst x v s₀).1.evaluate scope fuel s' = some o' →
      ∃ o, t.evaluate (scope.insert x v) (2 * fuel) s = some o ∧
        Outcome (EvalError.Becomes (Table.ofList [(x, v)]))
          (ValueBecomes (Table.ofList [(x, v)])) o.1 o'.1 := by
  have hbinds := scopeBinds_insert hv hscope
  have hsubst := becomes_substMany (Table.ofList [(x, v)]) t s₀
  refine ⟨fun d hd => evaluate_data_iff hbinds hsubst s s' hd, fun fuel o ho => ?_,
    fun fuel o' ho' => exists_evaluate_of_becomes hbinds hsubst s ho'⟩
  exact (evaluate_between hbinds fuel hsubst).forth s s' o ho

end Term

/-- The argument has `x` free, and a binder `x` is in its way once it is put in for `f`.  With the
    substitution made first, no binder is renamed.  The binding hides what the scope binds `x`
    to. -/
theorem scope_binding_substitutes_capture :
    let v : Term := .binary .add (.lit (.int 1)) (.lit (.int 1))
    let body : Term := .app (.abs "x" (.app (.var "f") (.var "x"))) (.lit (.int 0))
    let t : Term := .app (.abs "f" body) (.abs "y" (.var "x"))
    let t' : Term := .app (.abs "f" body) (.abs "y" v)
    let scope : Scope := Table.ofList [("x", .lit (.bool true))]
    v.free = [] ∧ (∀ y u, scope.get? y = some u → "x" ∉ u.free) ∧
      t.subst "x" v ⟨7⟩ = (t', ⟨7⟩) ∧
      t'.evaluate scope 5 ⟨7⟩ = some (.ok (.lit (.int 2)), ⟨7⟩) ∧
      ∃ fuel rest, t.evaluate (scope.insert "x" v) fuel ⟨7⟩ = some (.ok (.lit (.int 2)), rest) := by
  intro v body t t' scope
  have hscope : ∀ y u, scope.get? y = some u → "x" ∉ u.free := by
    intro y u hy
    have hmem : (y, u) ∈ [("x", Term.lit (.bool true))] := Table.mem_of_get?_ofList hy
    cases List.mem_singleton.1 hmem
    exact List.not_mem_nil
  have hsubst : t.subst "x" v ⟨7⟩ = (t', ⟨7⟩) := by
    have hf : Term.substUnder (Table.ofList [("x", v)]) "f" body ⟨7⟩ = ("f", body, ⟨7⟩) := by
      rw [Term.substUnder]
      rfl
    have hy : Term.substUnder (Table.ofList [("x", v)]) "y" (.var "x") ⟨7⟩ = ("y", v, ⟨7⟩) := by
      rw [Term.substUnder]
      change (_, (Term.substMany _ (.var "x") ⟨7⟩).1, (Term.substMany _ (.var "x") ⟨7⟩).2) = _
      rw [Term.substMany]
      rfl
    simp only [t, t', Term.subst, Term.substMany, hf, hy]
  have heval : t'.evaluate scope 5 ⟨7⟩ = some (.ok (.lit (.int 2)), ⟨7⟩) := by
    let zero : Term := .lit (.int 0)
    let inner : Term := .app (.abs "y" v) (.var "x")
    have hf : body.subst "f" (.abs "y" v) ⟨7⟩ = (.app (.abs "x" inner) zero, ⟨7⟩) := by
      have hunder : Term.substUnder (Table.ofList [("f", .abs "y" v)]) "x"
          (.app (.var "f") (.var "x")) ⟨7⟩ = ("x", inner, ⟨7⟩) := by
        rw [Term.substUnder]
        change (_, (Term.substMany _ (.app _ _) ⟨7⟩).1, (Term.substMany _ (.app _ _) ⟨7⟩).2) = _
        simp only [Term.substMany]
        rfl
      simp only [body, zero, Term.subst, Term.substMany, hunder]
    have hx : inner.subst "x" zero ⟨7⟩ = (.app (.abs "y" v) zero, ⟨7⟩) := by
      have hunder : Term.substUnder (Table.ofList [("x", zero)]) "y" v ⟨7⟩ = ("y", v, ⟨7⟩) := by
        rw [Term.substUnder]
        rfl
      simp only [inner, Term.subst, Term.substMany, hunder]
      rfl
    have hy : v.subst "y" zero ⟨7⟩ = (v, ⟨7⟩) := by
      simp only [v, Term.subst, Term.substMany]
    change (Run.update (body.subst "f" _) >>= Term.evaluate scope 4) ⟨7⟩ = _
    rw [Run.bind_apply, Run.update_apply, hf]
    change (Run.update (inner.subst "x" zero) >>= Term.evaluate scope 3) ⟨7⟩ = _
    rw [Run.bind_apply, Run.update_apply, hx]
    change (Run.update (v.subst "y" zero) >>= Term.evaluate scope 2) ⟨7⟩ = _
    rw [Run.bind_apply, Run.update_apply, hy]
    rfl
  refine ⟨rfl, hscope, hsubst, heval, ?_⟩
  have hdata := (Term.scope_binding_substitutes (v := v) rfl hscope t ⟨7⟩ ⟨7⟩ ⟨7⟩).1
    (.lit (.int 2)) rfl
  rw [hsubst] at hdata
  exact hdata.2 ⟨5, _, heval⟩

end CoreCalculus
