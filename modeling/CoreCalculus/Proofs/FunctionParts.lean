/-
  CoreCalculus/Proofs/FunctionParts.lean
  ======================================
  **What a function is made of.**

  A function from bracket abstraction is normalized as the combinator that it is:
  argument after argument, and a function among them in the same way.  Which
  arguments it has depends on the rules that were used, but what is left in the end
  does not: these are the largest parts of the body that do not mention the variable
  (`OnParts`), each of them once.

  So a property of code that a combinator with too few arguments has exactly when its
  arguments have it, holds of a function when it holds of those parts of its body.
  Under several abstractions the variables are collected, and the parts that mention
  none of them count.
-/
import Mathlib.Data.List.Induction
import CoreCalculus.Proofs.ValueCode

namespace CoreCalculus

namespace Code

/-- The code mentions none of the names. -/
def Avoids (xs : List String) (e : Code) : Prop := ∀ x ∈ e.free, x ∉ xs

instance (xs : List String) (e : Code) : Decidable (e.Avoids xs) :=
  inferInstanceAs (Decidable (∀ x ∈ e.free, x ∉ xs))

/-- `N` holds of the largest parts that mention none of the names. -/
def OnParts (N : Code → Prop) (xs : List String) : Code → Prop
  | .app f a => if Avoids xs (.app f a) then N (.app f a) else OnParts N xs f ∧ OnParts N xs a
  | e => Avoids xs e → N e

variable {N : Code → Prop} {xs ys : List String} {e f a : Code}

theorem avoids_app_iff : Avoids xs (.app f a) ↔ Avoids xs f ∧ Avoids xs a := by
  simp only [Avoids, free, List.mem_append, or_imp, forall_and]

theorem avoids_apply_iff {es : List Code} :
    Avoids xs (e.apply es) ↔ Avoids xs e ∧ ∀ a ∈ es, Avoids xs a := by
  induction es generalizing e with
  | nil => simp [apply]
  | cons a es ih =>
    have hcons : e.apply (a :: es) = (e.app a).apply es := rfl
    rw [hcons, ih, avoids_app_iff, List.forall_mem_cons, and_assoc]

theorem onParts_iff (h : Avoids xs e) : OnParts N xs e ↔ N e := by
  cases e with
  | app f a => rw [OnParts, if_pos h]
  | _ => exact ⟨fun hN => hN h, fun hN _ => hN⟩

theorem onParts_app_iff (h : ¬ Avoids xs (.app f a)) :
    OnParts N xs (.app f a) ↔ OnParts N xs f ∧ OnParts N xs a := by
  rw [OnParts, if_neg h]

/-- Without names, the code is its only part. -/
theorem onParts_nil : OnParts N [] e ↔ N e := onParts_iff fun _ _ => List.not_mem_nil

/-- Only the names that the code mentions matter. -/
theorem onParts_congr (h : ∀ x ∈ e.free, x ∈ xs ↔ x ∈ ys) :
    OnParts N xs e ↔ OnParts N ys e := by
  have havoids : ∀ e : Code, (∀ x ∈ e.free, x ∈ xs ↔ x ∈ ys) → (Avoids xs e ↔ Avoids ys e) :=
    fun e h => forall_congr' fun x => forall_congr' fun hx => not_congr (h x hx)
  induction e with
  | app f a ihf iha =>
    have hparts := h
    simp only [free, List.mem_append, or_imp, forall_and] at hparts
    simp only [OnParts, havoids _ h, ihf hparts.1, iha hparts.2]
  | _ => exact imp_congr_left (havoids _ h)

theorem onParts_cons_iff {y : String} (h : y ∉ e.free) :
    OnParts N (y :: xs) e ↔ OnParts N xs e := by
  refine onParts_congr fun x hx => ?_
  have hxy : x ≠ y := fun heq => h (heq ▸ hx)
  simp [hxy]

/-! ### Combinators with too few arguments -/

/-- What such a combinator has, its arguments have. -/
def Analytic (N : Code → Prop) : Prop :=
  ∀ (combinator : Combinator) (es : List Code), es.length < combinator.arity →
    N (apply (.comb combinator) es) → ∀ e ∈ es, N e

/-- What its arguments have, such a combinator has. -/
def Synthetic (N : Code → Prop) : Prop :=
  ∀ (combinator : Combinator) (es : List Code), es.length < combinator.arity →
    (∀ e ∈ es, N e) → N (apply (.comb combinator) es)

theorem Analytic.onParts (hN : Analytic N) {combinator : Combinator} {es : List Code}
    (hlength : es.length < combinator.arity) (h : OnParts N xs (apply (.comb combinator) es)) :
    ∀ e ∈ es, OnParts N xs e := by
  induction es using List.reverseRec with
  | nil => simp
  | append_singleton es e ih =>
    by_cases havoids : Avoids xs (apply (.comb combinator) (es ++ [e]))
    · rw [onParts_iff havoids] at h
      intro d hd
      rw [onParts_iff ((avoids_apply_iff.1 havoids).2 d hd)]
      exact hN combinator _ hlength h d hd
    · rw [apply_append] at h havoids
      obtain ⟨hes, he⟩ := (onParts_app_iff havoids).1 h
      rw [List.length_append] at hlength
      rw [List.forall_mem_append, List.forall_mem_singleton]
      exact ⟨ih (Nat.lt_of_le_of_lt (Nat.le_add_right _ _) hlength) hes, he⟩

theorem Synthetic.onParts (hN : Synthetic N) {combinator : Combinator} {es : List Code}
    (hlength : es.length < combinator.arity) (h : ∀ e ∈ es, OnParts N xs e) :
    OnParts N xs (apply (.comb combinator) es) := by
  induction es using List.reverseRec with
  | nil => exact (onParts_iff (by simp [Avoids, apply, free])).2 (hN combinator [] hlength (by simp))
  | append_singleton es e ih =>
    by_cases havoids : Avoids xs (apply (.comb combinator) (es ++ [e]))
    · refine (onParts_iff havoids).2 (hN combinator _ hlength fun d hd => ?_)
      exact (onParts_iff ((avoids_apply_iff.1 havoids).2 d hd)).1 (h d hd)
    · rw [apply_append] at havoids ⊢
      rw [List.length_append] at hlength
      rw [List.forall_mem_append, List.forall_mem_singleton] at h
      refine (onParts_app_iff havoids).2 ⟨ih ?_ h.1, h.2⟩
      exact Nat.lt_of_le_of_lt (Nat.le_add_right _ _) hlength

/-! ### Functions -/

/-- A function is a combinator that lacks one argument. -/
theorem exists_abstract_eq (o : Bool) (y : String) (b : Code) :
    ∃ combinator : Combinator, (b.abstract o y).spine.2.length < combinator.arity ∧
      b.abstract o y = apply (.comb combinator) (b.abstract o y).spine.2 := by
  obtain ⟨combinator, -, hhead, hlength⟩ := isFunction_abstract o y b
  refine ⟨combinator, Nat.lt_of_succ_le (Nat.le_of_eq hlength), ?_⟩
  rw [← hhead, apply_spine]

/-- Where a part of the body of a function went: it is an argument as it is, or a function
    again, of which `motive` tells its arguments. -/
def ArgumentOf (o : Bool) (y : String) (motive : Code → List Code → Prop) (b e : Code) : Prop :=
  (y ∉ b.free ∧ e = b) ∨ (e = b.abstract o y ∧ motive b (b.abstract o y).spine.2)

/-- Induction along the rules of bracket abstraction, over the arguments of a function. -/
theorem abstract_args_induct {o : Bool} {y : String} {motive : Code → List Code → Prop}
    (const : ∀ b, y ∉ b.free → motive b [b])
    (self : motive (.var y) [])
    (app : ∀ b₁ b₂ e₁ e₂, y ∈ (Code.app b₁ b₂).free → ArgumentOf o y motive b₁ e₁ →
      ArgumentOf o y motive b₂ e₂ → motive (.app b₁ b₂) [e₁, e₂])
    (b : Code) : motive b (b.abstract o y).spine.2 := by
  induction b with
  | var z =>
    rw [abstract]
    split
    · rename_i hzy
      subst hzy
      exact self
    · rename_i hzy
      exact const _ (by simpa [free] using Ne.symm hzy)
  | const constant => exact const _ (by simp [free])
  | comb combinator => exact const _ (by simp [free])
  | app b₁ b₂ ih₁ ih₂ =>
    have hmem : ¬ (y ∉ b₁.free ∧ y ∉ b₂.free) → y ∈ (Code.app b₁ b₂).free := fun h =>
      Decidable.byContradiction fun hy => h (by simpa [free] using hy)
    rw [abstract]
    split_ifs with h₁ h₂ h₃
    · exact const _ (by simpa [free] using h₁)
    · exact app _ _ _ _ (hmem h₁) (.inr ⟨rfl, ih₁⟩) (.inr ⟨rfl, ih₂⟩)
    · have hy : y ∉ b₂.free := fun hy => h₂ (.inl ⟨h₃, hy⟩)
      exact app _ _ _ _ (hmem h₁) (.inr ⟨rfl, ih₁⟩) (.inl ⟨hy, rfl⟩)
    · exact app _ _ _ _ (hmem h₁) (.inl ⟨h₃, rfl⟩) (.inr ⟨rfl, ih₂⟩)

variable {o : Bool} {y : String}

theorem not_avoids_cons (h : y ∈ e.free) : ¬ Avoids (y :: xs) e :=
  fun havoids => havoids y h List.mem_cons_self

/-- What holds of the arguments of a function holds of the parts of its body. -/
theorem Analytic.body (hN : Analytic N) (b : Code) :
    (∀ e ∈ (b.abstract o y).spine.2, OnParts N xs e) → OnParts N (y :: xs) b := by
  have hpart : ∀ {b e : Code}, OnParts N xs e →
      ArgumentOf o y (fun b args => (∀ e ∈ args, OnParts N xs e) → OnParts N (y :: xs) b) b e →
      OnParts N (y :: xs) b := by
    rintro b e he (⟨hy, rfl⟩ | ⟨rfl, hb⟩)
    · exact (onParts_cons_iff hy).2 he
    · obtain ⟨combinator, hlength, heq⟩ := exists_abstract_eq o y b
      rw [heq] at he
      exact hb (hN.onParts hlength he)
  induction b using abstract_args_induct with
  | const b hy => exact fun h => (onParts_cons_iff hy).2 (h b List.mem_cons_self)
  | self => exact fun _ havoids => absurd havoids (not_avoids_cons (by simp [free]))
  | app b₁ b₂ e₁ e₂ hy h₁ h₂ =>
    intro h
    simp only [List.forall_mem_cons] at h
    exact (onParts_app_iff (not_avoids_cons hy)).2 ⟨hpart h.1 h₁, hpart h.2.1 h₂⟩

/-- What holds of the parts of its body holds of the arguments of a function. -/
theorem Synthetic.body (hN : Synthetic N) (b : Code) :
    OnParts N (y :: xs) b → ∀ e ∈ (b.abstract o y).spine.2, OnParts N xs e := by
  have hpart : ∀ {b e : Code}, OnParts N (y :: xs) b →
      ArgumentOf o y (fun b args => OnParts N (y :: xs) b → ∀ e ∈ args, OnParts N xs e) b e →
      OnParts N xs e := by
    rintro b e hbody (⟨hy, rfl⟩ | ⟨rfl, hb⟩)
    · exact (onParts_cons_iff hy).1 hbody
    · obtain ⟨combinator, hlength, heq⟩ := exists_abstract_eq o y b
      rw [heq]
      exact hN.onParts hlength (hb hbody)
  induction b using abstract_args_induct with
  | const b hy =>
    intro h
    rw [List.forall_mem_singleton]
    exact (onParts_cons_iff hy).1 h
  | self => exact fun _ _ he => absurd he List.not_mem_nil
  | app b₁ b₂ e₁ e₂ hy h₁ h₂ =>
    intro h
    obtain ⟨hb₁, hb₂⟩ := (onParts_app_iff (not_avoids_cons hy)).1 h
    rw [List.forall_mem_cons, List.forall_mem_singleton]
    exact ⟨hpart hb₁ h₁, hpart hb₂ h₂⟩

end Code

end CoreCalculus
