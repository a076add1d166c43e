/-
  CoreCalculus/Proofs/Delay.lean
  ==============================
  **Code that is evaluated later.**

  The evaluator works on operands first, the reducer on the head of the spine.  `Delays c e`
  says that `c` is what the reducer still holds where the evaluator has arrived at
  code `e`: part by part, after head reduction.  Two things may be in the way.  A fixed point
  waits for an argument before it is unfolded, where the evaluator unfolds it at once; it
  counts as `e` if its body applied to itself does.  And code may be idle: nothing will ever
  be asked of it.  What counts as idle, and which `e` may be a fixed point that waits, are
  parameters.

  Functions from bracket abstraction do on delayed arguments what they do on any
  (`Delays.beta`): a combinator hands on its arguments without looking at them.
-/
import CoreCalculus.Proofs.Compilation
import CoreCalculus.Proofs.Stability

namespace CoreCalculus

namespace Code

/-! ### Contractions -/

theorem contracts_comb (combinator : Combinator) (args : List Code) {c : Code}
    (h : contractComb combinator args = .contracted c) :
    Contracts (apply (.comb combinator) args) c := by
  refine (contracts_apply_iff rfl).2 (h ▸ .comb ?_)
  by_contra hlt
  rw [contractComb_of_lt (Nat.lt_of_not_le hlt)] at h
  cases h

theorem reduces_comb (combinator : Combinator) (args : List Code) {c : Code}
    (h : contractComb combinator args = .contracted c) :
    Reduces (apply (.comb combinator) args) c := (contracts_comb combinator args h).reduces

theorem stays_comb {combinator : Combinator} {args : List Code}
    (h : args.length < combinator.arity) :
    Stays (apply (.comb combinator) args) (apply (.comb combinator) args) :=
  (stays_self_iff rfl).2 (.waiting h)

/-- A fixed point that waits for its argument. -/
theorem headsTo_fixpoint_iff {f w : Code} :
    HeadsTo (.app (.comb .y) f) w ↔ w = .app (.comb .y) f := by
  have hwaits : Waits (.comb .y) [f].length := Nat.lt_succ_self 1
  have hstays : Stays (.app (.comb .y) f) (.app (.comb .y) f) := .waiting hwaits
  constructor
  · intro h
    exact h.unique hstays.headsTo
  · rintro rfl
    exact hstays.headsTo

/-! ### The relation -/

/-- `c` is what the reducer holds where the evaluator has `e`. -/
inductive Delays (idle folded : Code → Prop) : Code → Code → Prop
  | leaf {c e : Code} : Reduces c e → e.spine = (e, []) → Delays idle folded c e
  | app {c f f' a a' : Code} : Reduces c (.app f a) → Delays idle folded f f' →
      Delays idle folded a a' → Delays idle folded c (.app f' a')
  | unfold {c f e : Code} : Reduces c (.app (.comb .y) f) →
      Delays idle folded (.app f (.app (.comb .y) f)) e → folded e → Delays idle folded c e
  | idle {c e : Code} : idle c → Delays idle folded c e

/-- Idle code has idle applications, and what becomes idle is idle. -/
structure Idles (idle : Code → Prop) : Prop where
  app : ∀ {c : Code} (a : Code), idle c → idle (.app c a)
  of_reduces : ∀ {c c' : Code}, Reduces c c' → idle c' → idle c

theorem Idles.apply {idle : Code → Prop} (hidle : Idles idle) {c : Code} (h : idle c)
    (args : List Code) : idle (c.apply args) := by
  induction args generalizing c with
  | nil => exact h
  | cons a args ih => exact ih (hidle.app a h)

namespace Delays

variable {idle folded : Code → Prop}

theorem refl (e : Code) : Delays idle folded e e := by
  induction e with
  | app f a ihf iha => exact .app (.refl _) ihf iha
  | _ => exact .leaf (.refl _) rfl

theorem of_reduces (hidle : Idles idle) {c c' e : Code} (hc : Reduces c c')
    (h : Delays idle folded c' e) : Delays idle folded c e := by
  cases h with
  | leaf hc' hleaf => exact .leaf (hc.trans hc') hleaf
  | app hc' hf ha => exact .app (hc.trans hc') hf ha
  | unfold hc' he hfolded => exact .unfold (hc.trans hc') he hfolded
  | idle hc' => exact .idle (hidle.of_reduces hc hc')

theorem apply {c e : Code} {cs es : List Code} (h : Delays idle folded c e)
    (hs : List.Forall₂ (Delays idle folded) cs es) :
    Delays idle folded (c.apply cs) (e.apply es) := by
  induction hs generalizing c e with
  | nil => exact h
  | cons ha _ ih => exact ih (.app (.refl _) h ha)

/-- Applied to something, delayed code gets to the head of what it delays. -/
theorem applied (hidle : Idles idle) {c e : Code} (h : Delays idle folded c e) (a : Code)
    (args : List Code) :
    (∃ cs, Reduces (c.apply (a :: args)) (e.spine.1.apply (cs ++ a :: args)) ∧
      List.Forall₂ (Delays idle folded) cs e.spine.2) ∨ idle (c.apply (a :: args)) := by
  induction h generalizing a args with
  | leaf hc hleaf =>
    rw [hleaf]
    exact .inl ⟨[], hc.apply _, .nil⟩
  | @app c f f' b b' hc _ hb ihf _ =>
    rcases ihf b (a :: args) with ⟨cs, hreduces, hcs⟩ | hf
    · refine .inl ⟨cs ++ [b], (hc.apply _).trans ?_, ?_⟩
      · rw [List.append_assoc]
        exact hreduces
      · exact List.rel_append hcs (.cons hb .nil)
    · exact .inr (hidle.of_reduces (hc.apply _) hf)
  | @unfold c g e hc _ _ ih =>
    have hunfold : Reduces ((Code.app (.comb .y) g).apply (a :: args))
        ((Code.app g (.app (.comb .y) g)).apply (a :: args)) :=
      reduces_comb .y (g :: a :: args) rfl
    rcases ih a args with ⟨cs, hreduces, hcs⟩ | h
    · exact .inl ⟨cs, ((hc.apply _).trans hunfold).trans hreduces, hcs⟩
    · exact .inr (hidle.of_reduces ((hc.apply _).trans hunfold) h)
  | idle hc => exact .inr (hidle.apply hc _)

/-- Delayed code itself gets to the head of what it delays, unless it is a fixed point that
    waits for an argument. -/
theorem view (hidle : Idles idle) {c e : Code} (h : Delays idle folded c e) :
    (∃ cs, Reduces c (e.spine.1.apply cs) ∧ List.Forall₂ (Delays idle folded) cs e.spine.2) ∨
    (∃ f, Reduces c (.app (.comb .y) f) ∧ Delays idle folded (.app (.comb .y) f) e ∧ folded e) ∨
    idle c := by
  cases h with
  | leaf hc hleaf =>
    rw [hleaf]
    exact .inl ⟨[], hc, .nil⟩
  | @app _ f f' a a' hc hf ha =>
    rcases hf.applied hidle a [] with ⟨cs, hreduces, hcs⟩ | hf
    · exact .inl ⟨cs ++ [a], hc.trans hreduces, List.rel_append hcs (.cons ha .nil)⟩
    · exact .inr (.inr (hidle.of_reduces hc hf))
  | unfold hc he hfolded => exact .inr (.inl ⟨_, hc, .unfold (.refl _) he hfolded, hfolded⟩)
  | idle hc => exact .inr (.inr hc)

/-! ### Properties of delayed applications -/

/-- What holds of delayed code for which a spine is reached, in spite of what is in the way. -/
structure Survives (idle folded : Code → Prop) (e : Code) (P : Code → Prop) : Prop where
  of_reduces : ∀ {c c' : Code}, Reduces c c' → P c' → P c
  unfold : ∀ {f : Code}, folded e → P (.app f (.app (.comb .y) f)) → P (.app (.comb .y) f)
  idle : ∀ {c : Code}, idle c → P c

theorem elim_app {f a : Code} {P : Code → Prop} (hP : Survives idle folded (.app f a) P)
    (app : ∀ cf ca, Delays idle folded cf f → Delays idle folded ca a → P (.app cf ca)) {c : Code}
    (h : Delays idle folded c (.app f a)) : P c := by
  generalize he : Code.app f a = e at h
  induction h with
  | leaf _ hleaf =>
    subst he
    simp [spine] at hleaf
  | app hc hf ha =>
    cases he
    exact hP.of_reduces hc (app _ _ hf ha)
  | unfold hc _ hfolded ih =>
    subst he
    exact hP.of_reduces hc (hP.unfold hfolded (ih rfl))
  | idle hc => exact hP.idle hc

theorem elim_spine (hidle : Idles idle) {head : Code} (hleaf : head.spine = (head, []))
    {es : List Code} (hne : es ≠ []) {P : Code → Prop}
    (hP : Survives idle folded (head.apply es) P)
    (spine : ∀ cs, List.Forall₂ (Delays idle folded) cs es → P (head.apply cs)) {c : Code}
    (h : Delays idle folded c (head.apply es)) : P c := by
  obtain ⟨es, e, rfl⟩ := (List.eq_nil_or_concat' es).resolve_left hne
  rw [apply_append] at h hP
  refine elim_app hP (fun cf ca hf ha => ?_) h
  rcases hf.applied hidle ca [] with ⟨cs, hreduces, hcs⟩ | hf
  · rw [spine_apply_of_leaf hleaf] at hreduces hcs
    exact hP.of_reduces hreduces (spine _ (List.rel_append hcs (.cons ha .nil)))
  · exact hP.idle hf

/-- Delaying something else survives. -/
theorem survives (hidle : Idles idle) {e e' : Code} (hfold : folded e → folded e') :
    Survives idle folded e fun c => Delays idle folded c e' where
  of_reduces hc h := of_reduces hidle hc h
  unfold hfolded h := .unfold (.refl _) h (hfold hfolded)
  idle hc := .idle hc

/-! ### Functions from bracket abstraction -/

section

variable (hidle : Idles idle) {optimize : Bool} {x : String}
include hidle

/-- The spine of a function of the rules, applied to one more argument. -/
theorem beta_step {f a e : Code} (combinator : Combinator) (es : List Code)
    (hf : Delays idle folded f ((Code.comb combinator).apply es))
    (contract : ∀ cs, List.Forall₂ (Delays idle folded) cs es →
      ∃ c, contractComb combinator (cs ++ [a]) = .contracted c ∧ Delays idle folded c e) :
    Delays idle folded (.app f a) e := by
  rcases hf.applied hidle a [] with ⟨cs, hreduces, hcs⟩ | hf
  · rw [spine_apply_of_leaf rfl] at hreduces hcs
    obtain ⟨c, hcontract, hc⟩ := contract cs hcs
    exact of_reduces hidle (hreduces.trans (reduces_comb _ _ hcontract)) hc
  · exact .idle hf

theorem beta_const {f a b : Code} (hf : Delays idle folded f (.app (.comb .k) b)) :
    Delays idle folded (.app f a) b := by
  refine beta_step hidle .k [b] hf fun cs hcs => ?_
  obtain _ | ⟨hb, _ | _⟩ := hcs
  exact ⟨_, rfl, hb⟩

/-- A function does on delayed arguments what it does on any. -/
theorem beta {σ : String → Code} {b f a a' : Code}
    (hf : Delays idle folded f ((b.abstract optimize x).subst σ)) (ha : Delays idle folded a a') :
    Delays idle folded (.app f a) (b.subst (Function.update σ x a')) := by
  induction b generalizing f with
  | var y =>
    rw [abstract] at hf
    split at hf
    · rename_i hyx
      subst hyx
      rw [subst, Function.update_self]
      refine beta_step hidle .i [] hf fun cs hcs => ?_
      cases hcs
      exact ⟨a, rfl, ha⟩
    · rename_i hyx
      rw [subst, Function.update_of_ne hyx]
      exact beta_const hidle hf
  | const constant => exact beta_const hidle hf
  | comb combinator => exact beta_const hidle hf
  | app b₁ b₂ ih₁ ih₂ =>
    rw [abstract] at hf
    split_ifs at hf with h₁ h₂ h₃
    · rw [subst, subst_update_eq h₁.1, subst_update_eq h₁.2]
      exact beta_const hidle hf
    · refine beta_step hidle .s
        [(b₁.abstract optimize x).subst σ, (b₂.abstract optimize x).subst σ] hf fun cs hcs => ?_
      obtain _ | ⟨hc₁, _ | ⟨hc₂, _ | _⟩⟩ := hcs
      exact ⟨_, rfl, .app (.refl _) (ih₁ hc₁) (ih₂ hc₂)⟩
    · have hx : x ∉ b₂.free := fun hx => h₂ (.inl ⟨h₃, hx⟩)
      rw [subst, subst_update_eq hx]
      refine beta_step hidle .c [(b₁.abstract optimize x).subst σ, b₂.subst σ] hf
        fun cs hcs => ?_
      obtain _ | ⟨hc₁, _ | ⟨hc₂, _ | _⟩⟩ := hcs
      exact ⟨_, rfl, .app (.refl _) (ih₁ hc₁) hc₂⟩
    · rw [subst, subst_update_eq h₃]
      refine beta_step hidle .b [b₁.subst σ, (b₂.abstract optimize x).subst σ] hf
        fun cs hcs => ?_
      obtain _ | ⟨hc₁, _ | ⟨hc₂, _ | _⟩⟩ := hcs
      exact ⟨_, rfl, .app (.refl _) hc₁ (ih₂ hc₂)⟩

/-- A function of several variables. -/
theorem beta_all {xs : List String} {σ : String → Code} {b f : Code} {as as' : List Code}
    (hf : Delays idle folded f ((b.abstractAll optimize xs).subst σ))
    (has : List.Forall₂ (Delays idle folded) as as') (hlength : as'.length = xs.length) :
    Delays idle folded (f.apply as) (b.subst (bindAll σ (xs.zip as'))) := by
  induction xs generalizing σ f as as' with
  | nil =>
    obtain rfl := List.length_eq_zero_iff.1 hlength
    cases has
    exact hf
  | cons x xs ih =>
    cases has with
    | nil => cases hlength
    | cons ha has =>
      have hnext := beta (b := b.abstractAll optimize xs) hidle hf ha
      have hrest := ih hnext has (Nat.succ.inj hlength)
      exact hrest

end

end Delays

end Code

end CoreCalculus
