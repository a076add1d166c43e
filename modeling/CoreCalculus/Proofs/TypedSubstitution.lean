/-
  CoreCalculus/Proofs/TypedSubstitution.lean
  ==========================================
  **Substitution keeps types.**

  A context interprets another one when it gives what stands for each name every type
  that the name had (`Interprets`).  With names standing for themselves this is
  weakening, with renamed names it is renaming, and with the values of replacements it
  is substitution; a term keeps its type under all three.

  Preparing a case renames its variables, and the types of the variables move along.
-/
import Mathlib.Data.List.Nodup
import CoreCalculus.Proofs.Substitution
import CoreCalculus.Proofs.Typing

namespace CoreCalculus

open Relation

/-! ### Interpretations -/

/-- In `c'`, what `f` puts for a name of `xs` has each type that the name has in `c`. -/
structure Interprets (c c' : Context) (xs : List String) (f : String → Term) : Prop where
  registry : c'.registry = c.registry
  typed : ∀ x ∈ xs, ∀ σ, HasType c (.var x) σ → HasType c' (f x) σ

theorem hasType_var_congr {c c' : Context} {x y : String}
    (h : c'.bindings.get? y = c.bindings.get? x) {σ : Ty} (hx : HasType c (.var x) σ) :
    HasType c' (.var y) σ := by
  obtain ⟨s, g, hs, rfl⟩ := hasType_var_iff.1 hx
  exact .var g (h.trans hs)

theorem hasType_var_extendAll_iff {c : Context} {Δ : List (String × Scheme)} {x : String}
    (hx : x ∉ Δ.map Prod.fst) {σ : Ty} :
    HasType (c.extendAll Δ) (.var x) σ ↔ HasType c (.var x) σ := by
  have hget : (c.extendAll Δ).bindings.get? x = c.bindings.get? x :=
    Table.get?_insertAll_of_not_mem hx
  exact ⟨hasType_var_congr hget.symm, hasType_var_congr hget⟩

namespace Interprets

variable {c c' : Context} {xs ys : List String} {f : String → Term}

theorem mono (h : Interprets c c' xs f) (hsub : ∀ y ∈ ys, y ∈ xs) : Interprets c c' ys f :=
  ⟨h.registry, fun y hy => h.typed y (hsub y hy)⟩

/-- Below the same bindings. -/
theorem extendAll (h : Interprets c c' xs .var) (Δ : List (String × Scheme))
    (hsub : ∀ y ∈ ys, y ∉ Δ.map Prod.fst → y ∈ xs) :
    Interprets (c.extendAll Δ) (c'.extendAll Δ) ys .var := by
  refine ⟨h.registry, fun y hy σ hσ => ?_⟩
  by_cases hyΔ : y ∈ Δ.map Prod.fst
  · exact hasType_var_congr (Table.get?_insertAll_of_mem _ _ hyΔ) hσ
  · rw [hasType_var_extendAll_iff hyΔ] at hσ ⊢
    exact h.typed y (hsub y hy hyΔ) σ hσ

end Interprets

theorem CaseTyped.of_bodies {c c' : Context} (hregistry : c'.registry = c.registry) {σ τ : Ty}
    {p : Pattern} {t t' : Term}
    (h : CaseTyped c σ τ (p, t))
    (ht : ∀ Δ : List (String × Scheme), Δ.map Prod.fst = p.vars →
      HasType (c.extendAll Δ) t τ → HasType (c'.extendAll Δ) t' τ) :
    CaseTyped c' σ τ (p, t') := by
  obtain ⟨Δ, hp, hnodup, hbody⟩ := h
  exact ⟨Δ, hregistry ▸ hp, hnodup, ht Δ hp.names_eq hbody⟩

theorem Term.mem_free_select {s : Term} {cases : List (Pattern × Term)} {e : Pattern × Term}
    (he : e ∈ cases) {y : String} (hy : y ∈ e.2.free) (hvars : y ∉ e.1.vars) :
    y ∈ (Term.select s cases).free := by
  rw [Term.free, Term.freeCases_eq_flatMap]
  refine List.mem_append_right _ (List.mem_flatMap.2 ⟨e, he, List.mem_filter.2 ⟨hy, ?_⟩⟩)
  exact decide_eq_true hvars

/-! ### Weakening -/

/-- A context that gives the free names of a term the types they had keeps its type. -/
theorem HasType.weaken {c c' : Context} {t : Term} {τ : Ty} (h : HasType c t τ)
    (hc : Interprets c c' t.free .var) : HasType c' t τ := by
  induction t using Term.induct generalizing c c' τ with
  | var x => exact hc.typed x (by simp [Term.free]) τ h
  | lit l =>
    obtain rfl := hasType_lit_iff.1 h
    exact .lit l
  | ctor name =>
    obtain ⟨d, s, g, hname, rfl⟩ := hasType_ctor_iff.1 h
    exact .ctor g (hc.registry ▸ hname)
  | app f a ihf iha =>
    obtain ⟨_, hf, σ, ha, rfl⟩ := hasType_app_iff.1 h
    exact .app (ihf hf (hc.mono (by simp +contextual [Term.free])))
      (iha ha (hc.mono (by simp +contextual [Term.free])))
  | binary op a b iha ihb =>
    obtain ⟨σ, ha, hb, hop⟩ := hasType_binary_iff.1 h
    exact .binary (iha ha (hc.mono (by simp +contextual [Term.free])))
      (ihb hb (hc.mono (by simp +contextual [Term.free]))) hop
  | not a ih =>
    obtain ⟨ha, rfl⟩ := hasType_not_iff.1 h
    exact .not (ih ha hc)
  | cond a b e iha ihb ihe =>
    obtain ⟨ha, hb, he⟩ := hasType_cond_iff.1 h
    exact .cond (iha ha (hc.mono (by simp +contextual [Term.free])))
      (ihb hb (hc.mono (by simp +contextual [Term.free])))
      (ihe he (hc.mono (by simp +contextual [Term.free])))
  | abs x t ih =>
    obtain ⟨σ, ρ, ht, rfl⟩ := hasType_abs_iff.1 h
    exact .abs (ih ht (hc.extendAll [(x, .mono σ)] (by simp +contextual [Term.free])))
  | fix x t ih =>
    have ht := hasType_fix_iff.1 h
    exact .fix (ih ht (hc.extendAll [(x, .mono τ)] (by simp +contextual [Term.free])))
  | select s cases ihs ihc =>
    obtain ⟨hne, σ, hs, hcases, hcovers⟩ := hasType_select_iff.1 h
    refine .select hne (ihs hs (hc.mono (by simp +contextual [Term.free]))) ?_
      (hc.registry ▸ hcovers)
    rw [casesTyped_iff] at hcases ⊢
    intro e he
    refine (hcases e he).of_bodies hc.registry fun Δ hΔ ht => ?_
    exact ihc e he ht (hc.extendAll Δ fun y hy hyΔ => Term.mem_free_select he hy (hΔ ▸ hyΔ))

/-! ### Renaming -/

/-- What stands for a name when `x` is renamed to `z`. -/
def renamed (x z y : String) : Term := .var (if y = x then z else y)

theorem renamed_of_ne {x z y : String} (h : y ≠ x) : renamed x z y = .var y := by
  rw [renamed, if_neg h]

namespace Interprets

variable {c c' : Context} {xs ys : List String} {x z : String}

/-- Below bindings of neither name. -/
theorem extendAll_renamed (h : Interprets c c' xs (renamed x z)) {Δ : List (String × Scheme)}
    (hx : x ∉ Δ.map Prod.fst) (hz : z ∉ Δ.map Prod.fst)
    (hsub : ∀ y ∈ ys, y ∉ Δ.map Prod.fst → y ∈ xs) :
    Interprets (c.extendAll Δ) (c'.extendAll Δ) ys (renamed x z) := by
  refine ⟨h.registry, fun y hy σ hσ => ?_⟩
  by_cases hyΔ : y ∈ Δ.map Prod.fst
  · have hyx : y ≠ x := fun heq => hx (heq ▸ hyΔ)
    rw [renamed_of_ne hyx]
    exact hasType_var_congr (Table.get?_insertAll_of_mem _ _ hyΔ) hσ
  · have hnew : (if y = x then z else y) ∉ Δ.map Prod.fst := by
      split
      · exact hz
      · exact hyΔ
    rw [hasType_var_extendAll_iff hyΔ] at hσ
    exact (hasType_var_extendAll_iff hnew).2 (h.typed y (hsub y hy hyΔ) σ hσ)

/-- Below a binding of the renamed name. -/
theorem extendAll_shadow (h : Interprets c c' xs (renamed x z)) {Δ : List (String × Scheme)}
    (hx : x ∈ Δ.map Prod.fst) (hsub : ∀ y ∈ ys, y ∉ Δ.map Prod.fst → y ∈ xs) :
    Interprets (c.extendAll Δ) (c'.extendAll Δ) ys .var := by
  have hkept : Interprets c c' (xs.filter (· ≠ x)) .var := by
    refine ⟨h.registry, fun y hy σ hσ => ?_⟩
    obtain ⟨hy, hyx⟩ := List.mem_filter.1 hy
    have hy := h.typed y hy σ hσ
    rwa [renamed_of_ne (by simpa using hyx)] at hy
  refine hkept.extendAll Δ fun y hy hyΔ => List.mem_filter.2 ⟨hsub y hy hyΔ, ?_⟩
  exact decide_eq_true fun heq => hyΔ (heq ▸ hx)

end Interprets

theorem HasType.rename {c c' : Context} {x z : String} {t : Term} {τ : Ty} (h : HasType c t τ)
    (hz : z ∉ t.names) (hc : Interprets c c' t.free (renamed x z)) :
    HasType c' (t.rename x z) τ := by
  induction t using Term.induct generalizing c c' τ with
  | var y => exact hc.typed y (by simp [Term.free]) τ h
  | lit l =>
    obtain rfl := hasType_lit_iff.1 h
    exact .lit l
  | ctor name =>
    obtain ⟨d, s, g, hname, rfl⟩ := hasType_ctor_iff.1 h
    exact .ctor g (hc.registry ▸ hname)
  | app f a ihf iha =>
    obtain ⟨_, hf, σ, ha, rfl⟩ := hasType_app_iff.1 h
    simp only [Term.names, List.mem_append, not_or] at hz
    exact .app (ihf hf hz.1 (hc.mono (by simp +contextual [Term.free])))
      (iha ha hz.2 (hc.mono (by simp +contextual [Term.free])))
  | binary op a b iha ihb =>
    obtain ⟨σ, ha, hb, hop⟩ := hasType_binary_iff.1 h
    simp only [Term.names, List.mem_append, not_or] at hz
    exact .binary (iha ha hz.1 (hc.mono (by simp +contextual [Term.free])))
      (ihb hb hz.2 (hc.mono (by simp +contextual [Term.free]))) hop
  | not a ih =>
    obtain ⟨ha, rfl⟩ := hasType_not_iff.1 h
    exact .not (ih ha hz hc)
  | cond a b e iha ihb ihe =>
    obtain ⟨ha, hb, he⟩ := hasType_cond_iff.1 h
    simp only [Term.names, List.mem_append, not_or] at hz
    exact .cond (iha ha hz.1.1 (hc.mono (by simp +contextual [Term.free])))
      (ihb hb hz.1.2 (hc.mono (by simp +contextual [Term.free])))
      (ihe he hz.2 (hc.mono (by simp +contextual [Term.free])))
  | abs y t ih =>
    obtain ⟨σ, ρ, ht, rfl⟩ := hasType_abs_iff.1 h
    simp only [Term.names, List.mem_cons, not_or] at hz
    have hfree : ∀ w ∈ t.free, w ∉ [(y, Scheme.mono σ)].map Prod.fst → w ∈ (Term.abs y t).free := by
      simp +contextual [Term.free]
    rw [Term.rename]
    split
    · rename_i hyx
      exact .abs (ht.weaken (hc.extendAll_shadow (by simp [hyx]) hfree))
    · rename_i hyx
      exact .abs (ih ht hz.2 (hc.extendAll_renamed (by simpa using Ne.symm hyx)
        (by simpa using hz.1) hfree))
  | fix y t ih =>
    have ht := hasType_fix_iff.1 h
    simp only [Term.names, List.mem_cons, not_or] at hz
    have hfree : ∀ w ∈ t.free, w ∉ [(y, Scheme.mono τ)].map Prod.fst → w ∈ (Term.fix y t).free := by
      simp +contextual [Term.free]
    rw [Term.rename]
    split
    · rename_i hyx
      exact .fix (ht.weaken (hc.extendAll_shadow (by simp [hyx]) hfree))
    · rename_i hyx
      exact .fix (ih ht hz.2 (hc.extendAll_renamed (by simpa using Ne.symm hyx)
        (by simpa using hz.1) hfree))
  | select s cases ihs ihc =>
    obtain ⟨hne, σ, hs, hcases, hcovers⟩ := hasType_select_iff.1 h
    simp only [Term.names, List.mem_append, not_or, Term.namesCases_eq_flatMap, List.mem_flatMap,
      not_exists, not_and] at hz
    rw [Term.rename, Term.renameCases_eq_map]
    refine .select (by simpa using hne)
      (ihs hs hz.1 (hc.mono (by simp +contextual [Term.free]))) ?_ ?_
    · rw [casesTyped_iff] at hcases ⊢
      rw [List.forall_mem_map]
      intro e he
      obtain ⟨hzvars, hznames⟩ := hz.2 e he
      refine (hcases e he).of_bodies hc.registry fun Δ hΔ ht => ?_
      have hfree : ∀ w ∈ e.2.free, w ∉ Δ.map Prod.fst → w ∈ (Term.select s cases).free :=
        fun w hw hwΔ => Term.mem_free_select he hw (hΔ ▸ hwΔ)
      split
      · rename_i hx
        exact ht.weaken (hc.extendAll_shadow (hΔ ▸ hx) hfree)
      · rename_i hx
        exact ihc e he ht hznames (hc.extendAll_renamed (hΔ ▸ hx) (hΔ ▸ hzvars) hfree)
    · rw [List.map_map]
      exact hc.registry ▸ hcovers

/-! ### Prepared cases -/

theorem PatternTyped.rename {r : Registry} {p : Pattern} {σ : Ty} {Δ : List (String × Scheme)}
    (h : PatternTyped r p σ Δ) (x z : String) :
    PatternTyped r (p.rename x z) σ (Δ.map fun e => (if e.1 = x then z else e.1, e.2)) := by
  induction p using Pattern.induct generalizing σ Δ with
  | var y =>
    obtain rfl := patternTyped_var_iff.1 h
    exact .var _ σ
  | lit l =>
    obtain ⟨rfl, rfl⟩ := patternTyped_lit_iff.1 h
    exact .lit l
  | ctor name subs ih =>
    obtain ⟨d, s, g, hname, hsubs, rfl⟩ := patternTyped_ctor_iff.1 h
    refine .ctor hname ?_
    rw [Pattern.renameAll_eq_map]
    generalize s.args.map (Ty.inst d.params g) = σs at hsubs
    clear h
    induction subs generalizing σs Δ with
    | nil =>
      obtain ⟨rfl, rfl⟩ := patternsTyped_nil_iff.1 hsubs
      exact .nil
    | cons p ps ihs =>
      rw [List.forall_mem_cons] at ih
      obtain ⟨σ, σs, Δ₁, Δ₂, hp, hps, rfl, rfl⟩ := patternsTyped_cons_iff.1 hsubs
      rw [List.map_append]
      exact .cons (ih.1 hp) (ihs ih.2 σs hps)

/-- Bindings whose names are changed, each to its own, are found under the changed names. -/
theorem get?_insertAll_renamed {t t' : Table String Scheme} {Δ : List (String × Scheme)}
    {x y z : String} (hz : z ∉ Δ.map Prod.fst) (hyz : y ≠ z)
    (h : y ∉ Δ.map Prod.fst → t'.get? (if y = x then z else y) = t.get? y) :
    (t'.insertAll (Δ.map fun e => (if e.1 = x then z else e.1, e.2))).get?
        (if y = x then z else y) = (t.insertAll Δ).get? y := by
  induction Δ generalizing t t' with
  | nil => exact h List.not_mem_nil
  | cons e Δ ih =>
    rw [List.map_cons, List.mem_cons, not_or] at hz
    refine @ih (t.insert e.1 e.2) (t'.insert (if e.1 = x then z else e.1) e.2) hz.2 fun hy => ?_
    have hsame : (if y = x then z else y) = (if e.1 = x then z else e.1) ↔ y = e.1 := by
      grind
    rw [Table.get?_insert, Table.get?_insert]
    simp only [hsame]
    split
    · rfl
    · rename_i hye
      refine h ?_
      rw [List.map_cons, List.mem_cons, not_or]
      exact ⟨hye, hy⟩

theorem Term.RenameStep.caseTyped {c : Context} {σ τ : Ty} {e e' : Pattern × Term}
    (h : Term.RenameStep e e') (he : CaseTyped c σ τ e) : CaseTyped c σ τ e' := by
  cases h with
  | @rename x z p b hvars hnames hx =>
    obtain ⟨Δ, hp, hnodup, hb⟩ := he
    refine ⟨_, hp.rename x z, ?_, ?_⟩
    · rw [Pattern.vars_rename]
      refine hnodup.map_on ?_
      grind
    · have hΔ : Δ.map Prod.fst = p.vars := hp.names_eq
      refine hb.rename hnames ⟨rfl, fun y hy ρ hρ => hasType_var_congr ?_ hρ⟩
      refine get?_insertAll_renamed (hΔ ▸ hvars) ?_ fun hyΔ => ?_
      · rintro rfl
        exact hnames (Term.mem_names_of_mem_free hy)
      · have hyx : y ≠ x := by
          rintro rfl
          exact hyΔ (hΔ ▸ hx hy)
        rw [if_neg hyx]

theorem Term.Prepared.caseTyped {live : Replacements} {c : Context} {σ τ : Ty}
    {e e' : Pattern × Term} (h : Term.Prepared live e e') (he : CaseTyped c σ τ e) :
    CaseTyped c σ τ e' := by
  obtain ⟨hrenamed, -, -⟩ := h
  induction hrenamed with
  | refl => exact he
  | tail _ hstep ih => exact hstep.caseTyped ih

/-- Preparing a case leaves the names that are free in it. -/
theorem Term.Prepared.mem_free_iff {live : Replacements} {e e' : Pattern × Term}
    (h : Term.Prepared live e e') {y : String} :
    y ∈ e'.2.free ∧ y ∉ e'.1.vars ↔ y ∈ e.2.free ∧ y ∉ e.1.vars := by
  have hbody := (h.nameless_eq []).2
  have hfree : ∀ e : Pattern × Term, y ∈ e.2.free ∧ y ∉ e.1.vars ↔
      y ∈ (e.2.nameless (e.1.vars.reverse ++ [])).freeNames := fun e => by
    simp [Term.mem_freeNames_nameless]
  rw [hfree, hfree, hbody]

/-- Coverage sees shapes only. -/
theorem Registry.Covers.of_shapes {r : Registry} {t : Ty} {ps qs : List Pattern}
    (hshapes : ps.map Shape.ofPattern = qs.map Shape.ofPattern) (h : r.Covers t ps) :
    r.Covers t qs := by
  have hvar : ∀ ps : List Pattern, (∃ x, .var x ∈ ps) ↔ .bind ∈ ps.map Shape.ofPattern := by
    intro ps
    rw [List.mem_map]
    constructor
    · rintro ⟨x, hx⟩
      exact ⟨_, hx, rfl⟩
    · rintro ⟨p, hp, heq⟩
      cases p with
      | var x => exact ⟨x, hp⟩
      | lit l => cases heq
      | ctor name subs => cases heq
  have hctor : ∀ (ps : List Pattern) (name : String), (∃ subs, .ctor name subs ∈ ps) ↔
      ∃ shapes, .ctor name shapes ∈ ps.map Shape.ofPattern := by
    intro ps name
    simp only [List.mem_map]
    constructor
    · rintro ⟨subs, hp⟩
      exact ⟨_, _, hp, rfl⟩
    · rintro ⟨shapes, p, hp, heq⟩
      cases p with
      | var x => cases heq
      | lit l => cases heq
      | ctor name' subs =>
        cases heq
        exact ⟨subs, hp⟩
  simp only [Covers, hvar, hctor, hshapes] at h ⊢
  exact h

/-! ### Substitution -/

/-- What stands for a name under replacements. -/
def Replacements.standIn (r : Replacements) (x : String) : Term := (r.get? x).getD (.var x)

/-- The result has the type of the term wherever what stands for its free names has theirs. -/
def KeepsType (r : Replacements) (t t' : Term) : Prop :=
  ∀ (c c' : Context) (τ : Ty), Interprets c c' t.free r.standIn → HasType c t τ → HasType c' t' τ

theorem HasType.extendAll {c : Context} {t : Term} {τ : Ty} (h : HasType c t τ)
    {Δ : List (String × Scheme)} (hΔ : ∀ y ∈ t.free, y ∉ Δ.map Prod.fst) :
    HasType (c.extendAll Δ) t τ :=
  h.weaken ⟨rfl, fun y hy _ hσ => (hasType_var_extendAll_iff (hΔ y hy)).2 hσ⟩

theorem Term.SubstCase.shape_eq {P : Replacements → Term → Term → Prop} {r : Replacements}
    {e e' : Pattern × Term} (h : Term.SubstCase P r e e') :
    Shape.ofPattern e'.1 = Shape.ofPattern e.1 := by
  rcases h with ⟨-, rfl⟩ | ⟨b, hprepared, -⟩
  · rfl
  · exact (hprepared.nameless_eq []).1

theorem Term.SubstCase.caseTyped {r : Replacements} {e e' : Pattern × Term}
    (h : Term.SubstCase KeepsType r e e') {c c' : Context} {σ τ : Ty} {xs : List String}
    (hc : Interprets c c' xs r.standIn) (hxs : ∀ y ∈ e.2.free, y ∉ e.1.vars → y ∈ xs)
    (he : CaseTyped c σ τ e) : CaseTyped c' σ τ e' := by
  rcases h with ⟨hempty, rfl⟩ | ⟨b, hprepared, hb⟩
  · refine he.of_bodies hc.registry fun Δ hΔ ht => ?_
    refine ht.weaken ⟨hc.registry, fun y hy ρ hρ => ?_⟩
    by_cases hyΔ : y ∈ Δ.map Prod.fst
    · exact hasType_var_congr (Table.get?_insertAll_of_mem _ _ hyΔ) hρ
    · rw [hasType_var_extendAll_iff hyΔ] at hρ ⊢
      have hyvars : y ∉ e'.1.vars := hΔ ▸ hyΔ
      have hnone := Replacements.get?_of_live_isEmpty hempty hyvars hy
      have hself := hc.typed y (hxs y hy hyvars) ρ hρ
      rwa [Replacements.standIn, hnone] at hself
  · obtain ⟨Δ, hp, hnodup, ht⟩ := hprepared.caseTyped he
    have hΔ : Δ.map Prod.fst = e'.1.vars := hp.names_eq
    refine ⟨Δ, hc.registry ▸ hp, hnodup, hb (c.extendAll Δ) (c'.extendAll Δ) τ ⟨hc.registry, ?_⟩ ht⟩
    intro y hy ρ hρ
    by_cases hyΔ : y ∈ Δ.map Prod.fst
    · rw [Replacements.standIn, hprepared.get?_eq_none y (hΔ ▸ hyΔ)]
      exact hasType_var_congr (Table.get?_insertAll_of_mem _ _ hyΔ) hρ
    · rw [hasType_var_extendAll_iff hyΔ] at hρ
      obtain ⟨hfree, hvars⟩ := hprepared.mem_free_iff.1 ⟨hy, hΔ ▸ hyΔ⟩
      have hlive : (r.live e.1.vars e.2).get? y = r.get? y := by
        rw [Replacements.get?_live, if_pos ⟨hvars, hfree⟩]
      have hvalue := hc.typed y (hxs y hfree hvars) ρ hρ
      rw [Replacements.standIn, ← hlive] at hvalue
      refine hvalue.extendAll fun w hw => ?_
      rw [hΔ]
      -- a name free in a value that is put in is captured, so it is no variable any more
      rcases hv : (r.live e.1.vars e.2).get? y with _ | v
      · rw [hv, Option.getD_none, Term.free, List.mem_singleton] at hw
        exact hw ▸ hΔ ▸ hyΔ
      · rw [hv, Option.getD_some] at hw
        intro hwvars
        exact hprepared.not_captured w hwvars (Replacements.mem_captured.2 ⟨y, v, hv, hw⟩)

theorem casesTyped_of_subst {r : Replacements} {cases cases' : List (Pattern × Term)}
    (h : List.Forall₂ (Term.SubstCase KeepsType r) cases cases') {c c' : Context} {σ τ : Ty}
    {xs : List String} (hc : Interprets c c' xs r.standIn)
    (hxs : ∀ e ∈ cases, ∀ y ∈ e.2.free, y ∉ e.1.vars → y ∈ xs)
    (hcases : ∀ e ∈ cases, CaseTyped c σ τ e) :
    (∀ e ∈ cases', CaseTyped c' σ τ e) ∧
      cases'.map (Shape.ofPattern ∘ Prod.fst) = cases.map (Shape.ofPattern ∘ Prod.fst) := by
  induction h with
  | nil => exact ⟨by simp, rfl⟩
  | cons he _ ih =>
    rw [List.forall_mem_cons] at hxs hcases
    obtain ⟨htyped, hshapes⟩ := ih hxs.2 hcases.2
    refine ⟨List.forall_mem_cons.2 ⟨he.caseTyped hc hxs.1 hcases.1, htyped⟩, ?_⟩
    rw [List.map_cons, List.map_cons, hshapes, Function.comp_apply, he.shape_eq]
    rfl

theorem keepsType_closed : Term.SubstClosed KeepsType where
  var r x c c' τ hc h := hc.typed x (by simp [Term.free]) τ h
  lit r l c c' τ hc h := by
    obtain rfl := hasType_lit_iff.1 h
    exact .lit l
  ctor r name c c' τ hc h := by
    obtain ⟨d, s, g, hname, rfl⟩ := hasType_ctor_iff.1 h
    exact .ctor g (hc.registry ▸ hname)
  app hf ha c c' τ hc h := by
    obtain ⟨_, htf, σ, hta, rfl⟩ := hasType_app_iff.1 h
    exact .app (hf c c' _ (hc.mono (by simp +contextual [Term.free])) htf)
      (ha c c' _ (hc.mono (by simp +contextual [Term.free])) hta)
  abs hcase c c' τ hc h := by
    obtain ⟨σ, ρ, ht, rfl⟩ := hasType_abs_iff.1 h
    refine .abs (caseTyped_var_iff.1 (hcase.caseTyped hc ?_ (caseTyped_var_iff.2 ht)))
    simp +contextual [Term.free, Pattern.vars]
  fix hcase c c' τ hc h := by
    have ht := hasType_fix_iff.1 h
    refine .fix (caseTyped_var_iff.1 (hcase.caseTyped hc ?_ (caseTyped_var_iff.2 ht)))
    simp +contextual [Term.free, Pattern.vars]
  binary op ha hb c c' τ hc h := by
    obtain ⟨σ, hta, htb, hop⟩ := hasType_binary_iff.1 h
    exact .binary (ha c c' σ (hc.mono (by simp +contextual [Term.free])) hta)
      (hb c c' σ (hc.mono (by simp +contextual [Term.free])) htb) hop
  not ha c c' τ hc h := by
    obtain ⟨hta, rfl⟩ := hasType_not_iff.1 h
    exact .not (ha c c' _ hc hta)
  cond ha hb he c c' τ hc h := by
    obtain ⟨hta, htb, hte⟩ := hasType_cond_iff.1 h
    exact .cond (ha c c' _ (hc.mono (by simp +contextual [Term.free])) hta)
      (hb c c' _ (hc.mono (by simp +contextual [Term.free])) htb)
      (he c c' _ (hc.mono (by simp +contextual [Term.free])) hte)
  select {r s s' cases cases'} hs hcases c c' τ hc h := by
    obtain ⟨hne, σ, hts, htcases, hcovers⟩ := hasType_select_iff.1 h
    have hfree : ∀ e ∈ cases, ∀ y ∈ e.2.free, y ∉ e.1.vars → y ∈ (Term.select s cases).free :=
      fun e he y hy hvars => Term.mem_free_select he hy hvars
    obtain ⟨hcases', hshapes⟩ := casesTyped_of_subst hcases hc hfree (casesTyped_iff.1 htcases)
    refine .select ?_ (hs c c' σ (hc.mono (by simp +contextual [Term.free])) hts)
      (casesTyped_iff.2 hcases') ?_
    · rintro rfl
      exact hne (List.map_eq_nil_iff.1 hshapes.symm)
    · refine Registry.Covers.of_shapes ?_ (hc.registry ▸ hcovers)
      rw [List.map_map, List.map_map, hshapes]

/-- **Substitution keeps types.**  A name that is not replaced has the types it had, and the
    value of one that is replaced has them too. -/
theorem HasType.substMany {c c' : Context} {r : Replacements} {t : Term} {τ : Ty}
    (h : HasType c t τ) (hc : Interprets c c' t.free r.standIn) (supply : Supply) :
    HasType c' (t.substMany r supply).1 τ :=
  Term.substMany_induct keepsType_closed r t supply c c' τ hc h

end CoreCalculus
