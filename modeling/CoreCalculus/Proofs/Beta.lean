/-
  CoreCalculus/Proofs/Beta.lean
  =============================
  **Bracket abstraction satisfies beta.**

  `[x] E` applied to `A` is rewritten to `E` with `A` for `x`.  The rules of the
  combinators are used at any position (`Code.Rewrites`), not only at the head as in
  reduction: after `S`, `B` or `C` has handed the argument on, the parts of the body are
  rewritten where they stand.  The rule of `Y` is not needed.

  Where `x` is not free in a part, that part is left as it is by `B` and `C`, and as a
  whole by `K`; putting `A` for `x` changes nothing there either.

  Several variables are abstracted from the last to the first, so the arguments are taken
  in the order of the variables, and a variable that is listed again has its last argument.
-/
import Mathlib.Logic.Relation
import CoreCalculus.Code.Reduction
import CoreCalculus.Proofs.Compilation

namespace CoreCalculus

open Relation

namespace Code

/-! ### Rewriting -/

/-- A rule of a combinator other than `Y` is applied somewhere in the code. -/
inductive Rewrites : Code → Code → Prop
  | contract {combinator : Combinator} (args : List Code) {c : Code} : combinator ≠ .y →
      contractComb combinator args = .contracted c → Rewrites (apply (.comb combinator) args) c
  | func {f f' : Code} (a : Code) : Rewrites f f' → Rewrites (.app f a) (.app f' a)
  | arg (f : Code) {a a' : Code} : Rewrites a a' → Rewrites (.app f a) (.app f a')

theorem rewrites_i (x : Code) : Rewrites (.app (.comb .i) x) x :=
  .contract [x] nofun rfl

theorem rewrites_k (x y : Code) : Rewrites (.app (.app (.comb .k) x) y) x :=
  .contract [x, y] nofun rfl

theorem rewrites_s (x y z : Code) :
    Rewrites (.app (.app (.app (.comb .s) x) y) z) (.app (.app x z) (.app y z)) :=
  .contract [x, y, z] nofun rfl

theorem rewrites_b (x y z : Code) :
    Rewrites (.app (.app (.app (.comb .b) x) y) z) (.app x (.app y z)) :=
  .contract [x, y, z] nofun rfl

theorem rewrites_c (x y z : Code) :
    Rewrites (.app (.app (.app (.comb .c) x) y) z) (.app (.app x z) y) :=
  .contract [x, y, z] nofun rfl

/-- Both parts of an application are rewritten, one after the other. -/
theorem rewrites_app {f f' a a' : Code} (hf : ReflTransGen Rewrites f f')
    (ha : ReflTransGen Rewrites a a') : ReflTransGen Rewrites (.app f a) (.app f' a') :=
  (hf.lift (Code.app · a) fun _ _ => .func a).trans (ha.lift (Code.app f') fun _ _ => .arg f')

theorem rewrites_apply {f f' : Code} (h : ReflTransGen Rewrites f f') (args : List Code) :
    ReflTransGen Rewrites (f.apply args) (f'.apply args) := by
  induction args generalizing f f' with
  | nil => exact h
  | cons a args ih => exact ih (rewrites_app h .refl)

/-! ### Abstraction -/

section

variable (optimize : Bool)

/-- An abstraction that is applied is rewritten to its body, with the argument for the variable.
    What else is put in the body plays no part: an abstraction has no names that could capture. -/
theorem abstract_subst_rewrites (x : String) (σ : String → Code) (c a : Code) :
    ReflTransGen Rewrites (.app ((c.abstract optimize x).subst σ) a)
      (c.subst (Function.update σ x a)) := by
  have hconst : ∀ c : Code, x ∉ c.free →
      ReflTransGen Rewrites (.app ((Code.app (.comb .k) c).subst σ) a)
        (c.subst (Function.update σ x a)) := by
    intro c hx
    rw [subst_update_eq hx]
    exact .single (rewrites_k (c.subst σ) a)
  induction c with
  | var y =>
    rw [abstract]
    split
    · rename_i hyx
      rw [hyx, subst, subst, Function.update_self]
      exact .single (rewrites_i a)
    · rename_i hyx
      exact hconst _ (by simpa [free] using Ne.symm hyx)
  | const constant => exact hconst _ List.not_mem_nil
  | comb combinator => exact hconst _ List.not_mem_nil
  | app f e ihf ihe =>
    rw [abstract]
    split_ifs with hneither hboth hfunc
    · exact hconst _ (by simpa [free] using hneither)
    · exact .head (rewrites_s _ _ a) (rewrites_app ihf ihe)
    · have hxe : x ∉ e.free := fun hxe => hboth (.inl ⟨hfunc, hxe⟩)
      have hbody : (Code.app f e).subst (Function.update σ x a) =
          .app (f.subst (Function.update σ x a)) (e.subst σ) := by
        rw [subst, subst_update_eq hxe]
      rw [hbody]
      exact .head (rewrites_c _ (e.subst σ) a) (rewrites_app ihf .refl)
    · have hbody : (Code.app f e).subst (Function.update σ x a) =
          .app (f.subst σ) (e.subst (Function.update σ x a)) := by
        rw [subst, subst_update_eq hfunc]
      rw [hbody]
      exact .head (rewrites_b (f.subst σ) _ a) (rewrites_app .refl ihe)

theorem abstract_rewrites (x : String) (c a : Code) :
    ReflTransGen Rewrites (.app (c.abstract optimize x) a) (c.subst (Function.update .var x a)) := by
  have h := abstract_subst_rewrites optimize x .var c a
  rwa [subst_var] at h

/-- Abstraction over several variables, applied to as many arguments: a variable that is listed
    again stands for its last argument. -/
theorem abstractAll_rewrites {xs : List String} {args : List Code} (σ : String → Code) (c : Code)
    (hlength : args.length = xs.length) :
    ReflTransGen Rewrites (((c.abstractAll optimize xs).subst σ).apply args)
      (c.subst (bindAll σ (xs.zip args))) := by
  induction xs generalizing σ args with
  | nil =>
    obtain rfl := List.length_eq_zero_iff.1 hlength
    exact .refl
  | cons x xs ih =>
    cases args with
    | nil => cases hlength
    | cons a args =>
      have hfirst := abstract_subst_rewrites optimize x σ (c.abstractAll optimize xs) a
      exact (rewrites_apply hfirst args).trans
        (ih (Function.update σ x a) (Nat.succ.inj hlength))

end

end Code

namespace Mixed

/-- An applicative tree is code. -/
theorem exists_ofCode_eq {m : Mixed} (h : m.isApplicative) : ∃ c, ofCode c = m := by
  induction m using induct with
  | app f a ihf iha =>
    rw [isApplicative, Bool.and_eq_true] at h
    obtain ⟨c, rfl⟩ := ihf h.1
    obtain ⟨d, rfl⟩ := iha h.2
    exact ⟨.app c d, rfl⟩
  | var x => exact ⟨.var x, rfl⟩
  | const constant => exact ⟨.const constant, rfl⟩
  | comb combinator => exact ⟨.comb combinator, rfl⟩
  | _ => cases h

/-- **Beta.**  Abstraction of an applicative body never fails; its code has no trace of the
    variable, and applied to an argument it is rewritten to the body with the argument for the
    variable. -/
theorem abstractVar_beta (optimize : Bool) (x : String) {body : Mixed} (h : body.isApplicative)
    (a : Code) :
    ∃ function f b, body.abstractVar optimize x = .ok function ∧ function.toCode = .ok f ∧
      body.toCode = .ok b ∧ x ∉ f.free ∧
      ReflTransGen Code.Rewrites (.app f a) (b.subst (Function.update .var x a)) := by
  obtain ⟨c, rfl⟩ := exists_ofCode_eq h
  refine ⟨_, c.abstract optimize x, c, abstractVar_ofCode optimize x c, toCode_ofCode _,
    toCode_ofCode c, fun hx => ?_, Code.abstract_rewrites optimize x c a⟩
  exact ((Code.mem_free_abstract optimize).1 hx).2 rfl

/-- Both halves have the variable, one as its head and one as its argument. -/
theorem abstractVar_beta_both :
    let body : Mixed := .app (.app (.var "x") (.var "y")) (.app (.var "z") (.var "x"))
    let function : Mixed := .app (.app (.comb .s)
      (.app (.app (.comb .c) (.comb .i)) (.var "y"))) (.app (.app (.comb .b) (.var "z")) (.comb .i))
    let a : Code := .comb .k
    body.isApplicative ∧ body.abstractVar true "x" = .ok function ∧
      ∃ f, function.toCode = .ok f ∧ "x" ∉ f.free ∧
        ReflTransGen Code.Rewrites (.app f a)
          (.app (.app (.comb .k) (.var "y")) (.app (.var "z") (.comb .k))) := by
  intro body function a
  have happlicative : body.isApplicative := rfl
  have hfunction : body.abstractVar true "x" = .ok function := rfl
  obtain ⟨function', f, b, habstract, hf, hb, hx, hrewrites⟩ :=
    abstractVar_beta true "x" happlicative a
  obtain rfl : function = function' := Except.ok.inj (hfunction.symm.trans habstract)
  obtain rfl := Except.ok.inj hb
  exact ⟨happlicative, hfunction, f, hf, hx, hrewrites⟩

end Mixed

end CoreCalculus
