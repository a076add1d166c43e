/-
  CoreCalculus/Proofs/Twins.lean
  ==============================
  **One term, compiled in two ways.**

  The optimized and the plain code of a function are different combinators, and no
  rule turns one into the other; only what they do with an argument agrees.  So the
  two codes of a term cannot be compared as trees while they are reduced.  What can
  be compared is where their parts come from.

  `Siblings e e'`: both are compiled from one source, each abstraction in its own way.
  Abstractions nest, so the two bodies of an abstraction are siblings again.
  `Realizes ρ c e`: the reducer holds `c` where `e` was written, with the names in `e`
  standing for what `ρ` says; part by part, after head reduction.  A function applied
  to an argument is contracted to what realizes its body, with the argument for its
  variable (`Realizes.contract`), whichever rules it was abstracted by.
  `Twins c c'`: they realize siblings whose names stand for twins.

  Twins can be reduced at the head until their heads show (`Twins.view`): the same
  leaf with twins for arguments, two functions, or two equations that will never be
  decided.
-/
import CoreCalculus.Proofs.Delay
import CoreCalculus.Proofs.ValueCode

namespace CoreCalculus

namespace Code

/-! ### Siblings -/

/-- Compiled from one source, each abstraction in its own way. -/
inductive Siblings (o o' : Bool) : Code → Code → Prop
  | var (x : String) : Siblings o o' (.var x) (.var x)
  | const (constant : Constant) : Siblings o o' (.const constant) (.const constant)
  | comb (combinator : Combinator) : Siblings o o' (.comb combinator) (.comb combinator)
  | app {f f' a a' : Code} : Siblings o o' f f' → Siblings o o' a a' →
      Siblings o o' (.app f a) (.app f' a')
  | abstract {b b' : Code} (x : String) : Siblings o o' b b' →
      Siblings o o' (b.abstract o x) (b'.abstract o' x)

namespace Siblings

variable {o o' : Bool} {e e' : Code}

theorem apply {es es' : List Code} (h : Siblings o o' e e')
    (hs : List.Forall₂ (Siblings o o') es es') : Siblings o o' (e.apply es) (e'.apply es') := by
  induction hs generalizing e e' with
  | nil => exact h
  | cons ha _ ih => exact ih (.app h ha)

theorem abstractAll (h : Siblings o o' e e') (xs : List String) :
    Siblings o o' (e.abstractAll o xs) (e'.abstractAll o' xs) := by
  induction xs with
  | nil => exact h
  | cons x xs ih => exact .abstract x ih

/-- Siblings have the same free names. -/
theorem mem_free_iff (h : Siblings o o' e e') {x : String} : x ∈ e.free ↔ x ∈ e'.free := by
  induction h with
  | var y => rfl
  | const constant => rfl
  | comb combinator => rfl
  | app _ _ ihf iha => rw [free, free, List.mem_append, List.mem_append, ihf, iha]
  | abstract y _ ih => rw [mem_free_abstract, mem_free_abstract, ih]

end Siblings

/-- The two codes of a term. -/
theorem siblings_code (o o' : Bool) (t : Term) : Siblings o o' (t.code o) (t.code o') := by
  induction t using Term.induct with
  | var x => exact .var x
  | lit l => exact .const _
  | ctor name => exact .const _
  | app f a ihf iha => exact .app ihf iha
  | abs x t ih => exact .abstract x ih
  | fix x t ih => exact .app (.comb .y) (.abstract x ih)
  | binary op a b iha ihb => exact Siblings.apply (.const _) (.cons iha (.cons ihb .nil))
  | not a ih => exact Siblings.apply (.const _) (.cons ih .nil)
  | cond a b c iha ihb ihc =>
    exact Siblings.apply (.const _) (.cons iha (.cons ihb (.cons ihc .nil)))
  | select a cases iha ihc =>
    rw [Term.code_select, Term.code_select]
    refine Siblings.apply (.const _) (.cons iha ?_)
    rw [List.forall₂_map_left_iff, List.forall₂_map_right_iff, List.forall₂_same]
    exact fun c hc => (ihc c hc).abstractAll c.1.vars

/-! ### What is held where code was written -/

/-- The reducer holds `c` where `e` was written, whose names stand for what `ρ` says. -/
inductive Realizes (ρ : String → Code) : Code → Code → Prop
  | var {c : Code} {x : String} : Reduces c (ρ x) → Realizes ρ c (.var x)
  | const {c : Code} {constant : Constant} : Reduces c (.const constant) →
      Realizes ρ c (.const constant)
  | comb {c : Code} {combinator : Combinator} : Reduces c (.comb combinator) →
      Realizes ρ c (.comb combinator)
  | app {c f a e₁ e₂ : Code} : Reduces c (.app f a) → Realizes ρ f e₁ → Realizes ρ a e₂ →
      Realizes ρ c (.app e₁ e₂)

namespace Realizes

variable {ρ : String → Code} {c e : Code}

theorem of_reduces {c' : Code} (hc : Reduces c c') (h : Realizes ρ c' e) : Realizes ρ c e := by
  cases h with
  | var h => exact .var (hc.trans h)
  | const h => exact .const (hc.trans h)
  | comb h => exact .comb (hc.trans h)
  | app h hf ha => exact .app (hc.trans h) hf ha

/-- Code as it was written. -/
theorem refl (e : Code) : Realizes .var e e := by
  induction e with
  | var x => exact .var (.refl _)
  | const constant => exact .const (.refl _)
  | comb combinator => exact .comb (.refl _)
  | app f a ihf iha => exact .app (.refl _) ihf iha

/-- Only the free names matter. -/
theorem congr {ρ' : String → Code} (h : Realizes ρ c e) (hρ : ∀ x ∈ e.free, ρ x = ρ' x) :
    Realizes ρ' c e := by
  induction h with
  | @var c x hc => exact .var (hρ x (by simp [free]) ▸ hc)
  | const hc => exact .const hc
  | comb hc => exact .comb hc
  | app hc _ _ ihf iha =>
    simp only [free, List.mem_append, or_imp, forall_and] at hρ
    exact .app hc (ihf hρ.1) (iha hρ.2)

/-- A name that is not in the code may stand for anything. -/
theorem update {x : String} (h : Realizes ρ c e) (hx : x ∉ e.free) (a : Code) :
    Realizes (Function.update ρ x a) c e := by
  refine h.congr fun y hy => (Function.update_of_ne ?_ a ρ).symm
  rintro rfl
  exact hx hy

theorem apply {cs es : List Code} (h : Realizes ρ c e) (hs : List.Forall₂ (Realizes ρ) cs es) :
    Realizes ρ (c.apply cs) (e.apply es) := by
  induction hs generalizing c e with
  | nil => exact h
  | cons ha _ ih => exact ih (.app (.refl _) h ha)

/-- The head that was written is reached, with what realizes its arguments. -/
theorem spine (h : Realizes ρ c e) (hhead : ∀ x, e.spine.1 ≠ .var x) :
    ∃ cs, Reduces c (e.spine.1.apply cs) ∧ List.Forall₂ (Realizes ρ) cs e.spine.2 := by
  induction h with
  | @var c x _ => exact absurd rfl (hhead x)
  | const hc => exact ⟨[], hc, .nil⟩
  | comb hc => exact ⟨[], hc, .nil⟩
  | @app c f a e₁ e₂ hc _ ha ihf _ =>
    obtain ⟨cs, hcs, hrealizes⟩ := ihf hhead
    refine ⟨cs ++ [a], hc.trans ?_, List.rel_append hrealizes (.cons ha .nil)⟩
    rw [apply_append]
    exact hcs.apply [a]

/-! #### Functions from bracket abstraction -/

section

variable {o : Bool} {x : String}

/-- The head of a function is reached, with what realizes its arguments. -/
theorem function {b : Code} (h : Realizes ρ c (b.abstract o x)) :
    ∃ gs, Reduces c ((b.abstract o x).spine.1.apply gs) ∧
      List.Forall₂ (Realizes ρ) gs (b.abstract o x).spine.2 := by
  obtain ⟨combinator, -, hhead, -⟩ := isFunction_abstract o x b
  refine h.spine fun y hy => ?_
  rw [hhead] at hy
  cases hy

theorem of_args {b : Code} {gs : List Code}
    (hgs : List.Forall₂ (Realizes ρ) gs (b.abstract o x).spine.2) :
    Realizes ρ ((b.abstract o x).spine.1.apply gs) (b.abstract o x) := by
  obtain ⟨combinator, -, hhead, -⟩ := isFunction_abstract o x b
  have happly : Realizes ρ ((b.abstract o x).spine.1.apply gs)
      ((b.abstract o x).spine.1.apply (b.abstract o x).spine.2) := by
    refine apply ?_ hgs
    rw [hhead]
    exact .comb (.refl _)
  rwa [apply_spine] at happly

/-- Contraction of a combinator on what realizes its arguments, and one more. -/
theorem contract_const {b : Code} {gs : List Code} (hb : x ∉ b.free)
    (hgs : List.Forall₂ (Realizes ρ) gs [b]) (a : Code) :
    ∃ c, Contracts (Code.apply (.comb .k) (gs ++ [a])) c ∧
      Realizes (Function.update ρ x a) c b := by
  obtain _ | ⟨hg, _ | _⟩ := hgs
  exact ⟨_, contracts_comb .k _ rfl, hg.update hb a⟩

/-- With the argument that it lacks, a function contracts to what realizes its body. -/
theorem contract {b : Code} {gs : List Code}
    (hgs : List.Forall₂ (Realizes ρ) gs (b.abstract o x).spine.2) (a : Code) :
    ∃ c, Contracts ((b.abstract o x).spine.1.apply (gs ++ [a])) c ∧
      Realizes (Function.update ρ x a) c b := by
  induction b generalizing gs with
  | var y =>
    rw [abstract] at hgs ⊢
    split at hgs
    · rename_i hyx
      subst hyx
      cases hgs
      rw [if_pos rfl]
      refine ⟨a, contracts_comb .i [a] rfl, .var ?_⟩
      rw [Function.update_self]
      exact .refl a
    · rename_i hyx
      rw [if_neg hyx]
      exact contract_const (by simpa [free] using Ne.symm hyx) hgs a
  | const constant => exact contract_const (by simp [free]) hgs a
  | comb combinator => exact contract_const (by simp [free]) hgs a
  | app b₁ b₂ ih₁ ih₂ =>
    have hbeta : ∀ {b g : Code}, (∀ {gs : List Code},
        List.Forall₂ (Realizes ρ) gs (b.abstract o x).spine.2 →
          ∃ c, Contracts ((b.abstract o x).spine.1.apply (gs ++ [a])) c ∧
            Realizes (Function.update ρ x a) c b) →
        Realizes ρ g (b.abstract o x) → Realizes (Function.update ρ x a) (.app g a) b := by
      intro b g ih hg
      obtain ⟨gs, hreduces, hgs⟩ := hg.function
      obtain ⟨c, hc, hrealizes⟩ := ih hgs
      have happly := hreduces.apply [a]
      rw [← apply_append] at happly
      exact of_reduces (happly.trans hc.reduces) hrealizes
    rw [abstract] at hgs ⊢
    split_ifs at hgs ⊢ with h₁ h₂ h₃
    · exact contract_const (by simpa [free] using h₁) hgs a
    · obtain _ | ⟨hg₁, _ | ⟨hg₂, _ | _⟩⟩ := hgs
      exact ⟨_, contracts_comb .s _ rfl, .app (.refl _) (hbeta ih₁ hg₁) (hbeta ih₂ hg₂)⟩
    · have hx : x ∉ b₂.free := fun hx => h₂ (.inl ⟨h₃, hx⟩)
      obtain _ | ⟨hg₁, _ | ⟨hg₂, _ | _⟩⟩ := hgs
      exact ⟨_, contracts_comb .c _ rfl, .app (.refl _) (hbeta ih₁ hg₁) (hg₂.update hx a)⟩
    · obtain _ | ⟨hg₁, _ | ⟨hg₂, _ | _⟩⟩ := hgs
      exact ⟨_, contracts_comb .b _ rfl, .app (.refl _) (hg₁.update h₃ a) (hbeta ih₂ hg₂)⟩

end

end Realizes

/-! ### Twins -/

/-- An equation that stays: its sides are normal and not both data. -/
inductive Inert : Code → Prop
  | intro {a b : Code} : Normal a → Normal b → ¬ (a.isData ∧ b.isData) →
      Inert (.apply (.const (.prim (.binary .eq))) [a, b])

/-- The reducer holds both where siblings were written, whose names stand for twins. -/
inductive Twins (o o' : Bool) : Code → Code → Prop
  | name (x : String) : Twins o o' (.var x) (.var x)
  | inert {c c' : Code} : Inert c → Inert c' → Twins o o' c c'
  | closure {ρ ρ' : String → Code} {c c' e e' : Code} : Siblings o o' e e' →
      (∀ x, Twins o o' (ρ x) (ρ' x)) → Realizes ρ c e → Realizes ρ' c' e' → Twins o o' c c'

namespace Twins

variable {o o' : Bool}

theorem app {f f' a a' : Code} (hf : Twins o o' f f') (ha : Twins o o' a a') :
    Twins o o' (.app f a) (.app f' a') := by
  -- two names for the two parts
  let ρ : Code → Code → String → Code := fun f a x => if x = "f" then f else a
  have hρ : ∀ x, Twins o o' (ρ f a x) (ρ f' a' x) := by
    intro x
    by_cases hx : x = "f"
    · simpa [ρ, hx] using hf
    · simpa [ρ, hx] using ha
  exact .closure (.app (.var "f") (.var "a")) hρ
    (.app (.refl _) (.var (.refl _)) (.var (.refl _)))
    (.app (.refl _) (.var (.refl _)) (.var (.refl _)))

theorem apply {c c' : Code} {as as' : List Code} (h : Twins o o' c c')
    (has : List.Forall₂ (Twins o o') as as') : Twins o o' (c.apply as) (c'.apply as') := by
  induction has generalizing c c' with
  | nil => exact h
  | cons ha _ ih => exact ih (h.app ha)

/-- A leaf is its own twin. -/
theorem leaf {head : Code} (hleaf : head.spine = (head, [])) : Twins o o' head head := by
  cases head with
  | var x => exact .name x
  | const constant => exact .closure (.const constant) .name (.refl _) (.refl _)
  | comb combinator => exact .closure (.comb combinator) .name (.refl _) (.refl _)
  | app f a => simp [spine] at hleaf

/-- The two codes of a term. -/
theorem code (o o' : Bool) (t : Term) : Twins o o' (t.code o) (t.code o') :=
  .closure (siblings_code o o' t) .name (.refl _) (.refl _)

end Twins

/-! ### Twins at the head -/

/-- The heads of two spines show that they are twins. -/
inductive HeadTwins (o o' : Bool) : Code → Code → Prop
  | leaf {head : Code} {as as' : List Code} : head.spine = (head, []) →
      List.Forall₂ (Twins o o') as as' → HeadTwins o o' (head.apply as) (head.apply as')
  | function {ρ ρ' : String → Code} {b b' : Code} {gs gs' as as' : List Code} (x : String) :
      Siblings o o' b b' → (∀ y, Twins o o' (ρ y) (ρ' y)) →
      List.Forall₂ (Realizes ρ) gs (b.abstract o x).spine.2 →
      List.Forall₂ (Realizes ρ') gs' (b'.abstract o' x).spine.2 →
      List.Forall₂ (Twins o o') as as' →
      HeadTwins o o' ((b.abstract o x).spine.1.apply (gs ++ as))
        ((b'.abstract o' x).spine.1.apply (gs' ++ as'))
  | inert {c c' : Code} {as as' : List Code} : Inert c → Inert c' →
      List.Forall₂ (Twins o o') as as' → HeadTwins o o' (c.apply as) (c'.apply as')

namespace HeadTwins

variable {o o' : Bool} {s s' : Code}

theorem leaf_self (head : Code) (hleaf : head.spine = (head, [])) :
    HeadTwins o o' head head := leaf hleaf .nil

theorem twins (h : HeadTwins o o' s s') : Twins o o' s s' := by
  cases h with
  | leaf hleaf has => exact (Twins.leaf hleaf).apply has
  | @function ρ ρ' b b' gs gs' as as' x hb hρ hgs hgs' has =>
    rw [apply_append, apply_append]
    exact Twins.apply (.closure (.abstract x hb) hρ (.of_args hgs) (.of_args hgs')) has
  | inert hc hc' has => exact (Twins.inert hc hc').apply has

theorem app (h : HeadTwins o o' s s') {a a' : Code} (ha : Twins o o' a a') :
    HeadTwins o o' (.app s a) (.app s' a') := by
  have happend : ∀ {as as' : List Code}, List.Forall₂ (Twins o o') as as' →
      List.Forall₂ (Twins o o') (as ++ [a]) (as' ++ [a']) :=
    fun has => List.rel_append has (.cons ha .nil)
  cases h with
  | leaf hleaf has =>
    have hmore := leaf hleaf (happend has)
    rwa [apply_append, apply_append] at hmore
  | function x hb hρ hgs hgs' has =>
    have hmore := function x hb hρ hgs hgs' (happend has)
    rwa [← List.append_assoc, ← List.append_assoc, apply_append, apply_append _ _ [a']] at hmore
  | inert hc hc' has =>
    have hmore := inert hc hc' (happend has)
    rwa [apply_append, apply_append] at hmore

end HeadTwins

/-- Twins can be reduced until their heads show. -/
theorem Twins.view {o o' : Bool} {c c' : Code} (h : Twins o o' c c') :
    ∃ s s', Reduces c s ∧ Reduces c' s' ∧ HeadTwins o o' s s' := by
  induction h with
  | name x => exact ⟨_, _, .refl _, .refl _, .leaf_self (.var x) rfl⟩
  | inert hc hc' => exact ⟨_, _, .refl _, .refl _, .inert hc hc' .nil⟩
  | @closure ρ ρ' c c' e e' he hρ hc hc' ih =>
    induction he generalizing c c' with
    | var x =>
      cases hc with
      | var hc =>
        cases hc' with
        | var hc' =>
          obtain ⟨s, s', hs, hs', htwins⟩ := ih x
          exact ⟨s, s', hc.trans hs, hc'.trans hs', htwins⟩
    | const constant =>
      cases hc with
      | const hc =>
        cases hc' with
        | const hc' => exact ⟨_, _, hc, hc', .leaf_self (.const constant) rfl⟩
    | comb combinator =>
      cases hc with
      | comb hc =>
        cases hc' with
        | comb hc' => exact ⟨_, _, hc, hc', .leaf_self (.comb combinator) rfl⟩
    | app _ he₂ ih₁ _ =>
      cases hc with
      | @app _ f a _ _ hc hf ha =>
        cases hc' with
        | @app _ f' a' _ _ hc' hf' ha' =>
          obtain ⟨s, s', hs, hs', htwins⟩ := ih₁ hf hf'
          exact ⟨_, _, hc.trans (hs.apply [a]), hc'.trans (hs'.apply [a']),
            htwins.app (.closure he₂ hρ ha ha')⟩
    | abstract x hb _ =>
      obtain ⟨gs, hs, hgs⟩ := hc.function
      obtain ⟨gs', hs', hgs'⟩ := hc'.function
      refine ⟨_, _, hs, hs', ?_⟩
      have hheads := HeadTwins.function x hb hρ hgs hgs' .nil
      rwa [List.append_nil, List.append_nil] at hheads

end Code

end CoreCalculus
