/-
  CoreCalculus/Proofs/Substitution.lean
  =====================================
  **Substitution keeps its meaning up to the names of binders.**

  Substitution below binders first renames the captured ones.  Whatever the supply
  was, what it ends with is a `Prepared` case: reached from the given one by renaming
  pattern variables to new names, and with no variable left that a replacement
  mentions.  A single binder is prepared as the case of a bare variable.

  `substMany_induct` says once what substitution does, without the supply and without
  the measure it ends on: every relation that is kept by the term formers and passes
  below prepared cases holds between a term and its substitution.  Relating nameless
  forms is one such relation.
-/
import Mathlib.Logic.Relation
import CoreCalculus.Proofs.Freshness
import CoreCalculus.Proofs.Nameless
import CoreCalculus.Term.Substitution

namespace CoreCalculus

open Relation

/-! ### Replacements -/

namespace Replacements

theorem mem_captured {r : Replacements} {y : String} :
    y ∈ r.captured ↔ ∃ x v, r.get? x = some v ∧ y ∈ v.free := by
  simp only [captured, Table.values, List.mem_flatMap, List.mem_map, Table.get?_eq_some_iff]
  constructor
  · rintro ⟨v, ⟨⟨x, w⟩, he, rfl⟩, hy⟩
    exact ⟨x, w, he, hy⟩
  · rintro ⟨x, v, he, hy⟩
    exact ⟨v, ⟨(x, v), he, rfl⟩, hy⟩

theorem get?_live (r : Replacements) (bound : List String) (body : Term) (x : String) :
    (r.live bound body).get? x = if x ∉ bound ∧ x ∈ body.free then r.get? x else none := by
  simp [live]

theorem captured_live {r : Replacements} {bound : List String} {body : Term} {y : String}
    (h : y ∈ (r.live bound body).captured) : y ∈ r.captured := by
  obtain ⟨x, v, hx, hy⟩ := mem_captured.1 h
  rw [get?_live] at hx
  split at hx
  · exact mem_captured.2 ⟨x, v, hx, hy⟩
  · cases hx

/-- With no live replacement, none is made for a name free in the body and not bound. -/
theorem get?_of_live_isEmpty {r : Replacements} {bound : List String} {body : Term} {x : String}
    (h : (r.live bound body).isEmpty) (hx : x ∉ bound) (hfree : x ∈ body.free) :
    r.get? x = none := by
  have hlive : (r.live bound body).get? x = none := by
    rw [Table.get?_eq_none_iff, Table.keys, List.isEmpty_iff.1 h]
    exact List.not_mem_nil
  rwa [get?_live, if_pos ⟨hx, hfree⟩] at hlive

/-- The replacements on nameless terms; their values are outside all binders. -/
def nameless (r : Replacements) (x : String) : Option Nameless :=
  (r.get? x).map (Term.nameless [])

end Replacements

/-! ### Prepared cases -/

namespace Term

theorem mem_free_rename {x y z : String} {t : Term} (h : y ∈ (t.rename x z).free) :
    (y ∈ t.free ∧ y ≠ x) ∨ y = z := by
  induction t using induct with
  | var w =>
    simp only [rename, free, List.mem_singleton] at h ⊢
    grind
  | lit l => simp [rename, free] at h
  | ctor c => simp [rename, free] at h
  | not t ih =>
    rw [rename, free] at h
    rw [free]
    exact ih h
  | app a b iha ihb | binary op a b iha ihb =>
    simp only [rename, free, List.mem_append] at h ⊢
    grind
  | cond a b c iha ihb ihc =>
    simp only [rename, free, List.mem_append] at h ⊢
    grind
  | abs w t ih | fix w t ih =>
    simp only [rename, free, List.mem_filter] at h ⊢
    grind
  | select s cs ihs ihc =>
    simp only [rename, free, renameCases_eq_map, freeCases_eq_flatMap, List.mem_append,
      List.flatMap_map, List.mem_flatMap, List.mem_filter] at h ⊢
    rcases h with h | ⟨c, hc, hy, hp⟩
    · rcases ihs h with h | h
      · exact .inl ⟨.inl h.1, h.2⟩
      · exact .inr h
    · have hp' : y ∉ c.1.vars := by simpa using hp
      have hbody : (y ∈ c.2.free ∧ y ≠ x) ∨ y = z := by
        split at hy
        · rename_i hx
          exact .inl ⟨hy, fun heq => hp' (heq ▸ hx)⟩
        · exact ihc c hc hy
      rcases hbody with h | h
      · exact .inl ⟨.inr ⟨c, hc, h.1, hp⟩, h.2⟩
      · exact .inr h

end Term

theorem Shape.ofPattern_rename (x z : String) (p : Pattern) :
    ofPattern (p.rename x z) = ofPattern p := by
  induction p using Pattern.induct with
  | var name => rfl
  | lit l => rfl
  | ctor name subs ih =>
    rw [Pattern.rename, ofPattern, ofPattern, Pattern.renameAll_eq_map, ofPatterns_eq_map,
      ofPatterns_eq_map, List.map_map]
    exact congrArg _ (List.map_congr_left ih)

namespace Term

/-- Rename one variable of a case to a name that the case does not have. -/
inductive RenameStep : Pattern × Term → Pattern × Term → Prop
  | rename {x z : String} {p : Pattern} {b : Term} (hvars : z ∉ p.vars) (hnames : z ∉ b.names)
      (hx : x ∈ b.free → x ∈ p.vars) : RenameStep (p, b) (p.rename x z, b.rename x z)

/-- The second case is the first, with its variables renamed out of the way of `live`. -/
structure Prepared (live : Replacements) (c c' : Pattern × Term) : Prop where
  renamed : ReflTransGen RenameStep c c'
  not_captured : ∀ y ∈ c'.1.vars, y ∉ live.captured
  get?_eq_none : ∀ y ∈ c'.1.vars, live.get? y = none

theorem freshBinder_spec (live : Replacements) (taken : List String) (x : String) (b : Term)
    (supply : Supply) : ∃ z supply', freshBinder live taken x b supply = (z, supply') ∧
      z ∉ live.captured ∧ z ∉ b.names ∧ live.get? z = none ∧ z ∉ taken := by
  have h := supply.freshName_not_mem x (live.captured ++ b.names ++ live.keys ++ taken)
  simp only [List.mem_append, not_or] at h
  exact ⟨_, _, rfl, h.1.1.1, h.1.1.2, Table.get?_eq_none_iff.2 h.1.2, h.2⟩

theorem Prepared.renameBinder {live : Replacements} {x : String} (b : Term) (supply : Supply)
    (hx : live.get? x = none) :
    Prepared live (.var x, b)
      (.var (renameBinder live x b supply).1, (renameBinder live x b supply).2.1) := by
  unfold Term.renameBinder
  split
  · rename_i hcaptured
    obtain ⟨z, supply', heq, hz, hnames, hkeys, _⟩ := freshBinder_spec live [] x b supply
    rw [heq]
    have hzx : z ≠ x := fun heq => hz (heq ▸ hcaptured)
    have hstep : RenameStep (.var x, b) (.var z, b.rename x z) := by
      have hstep := RenameStep.rename (x := x) (p := .var x) (by simpa [Pattern.vars] using hzx)
        hnames (by simp [Pattern.vars])
      simpa [Pattern.rename] using hstep
    refine ⟨.single hstep, ?_, ?_⟩
    · simpa [Pattern.vars] using hz
    · simpa [Pattern.vars] using hkeys
  · rename_i hcaptured
    exact ⟨.refl, by simpa [Pattern.vars] using hcaptured, by simpa [Pattern.vars] using hx⟩

/-- The variables yet to be looked at are among `bound`, and each of them is out of the body
    unless it is still a variable of the pattern. -/
theorem Prepared.renamePattern {live : Replacements} {bound taken : List String} {p : Pattern}
    {b : Term} (supply : Supply) (hvars : ∀ y ∈ p.vars, y ∈ taken)
    (hbound : ∀ y ∈ bound, y ∈ taken) (hfree : ∀ y ∈ bound, y ∈ b.free → y ∈ p.vars)
    (hcaptured : ∀ y ∈ p.vars, y ∈ live.captured → y ∈ bound)
    (hkeys : ∀ y ∈ p.vars, live.get? y = none) :
    Prepared live (p, b)
      ((renamePattern live bound taken p b supply).1,
        (renamePattern live bound taken p b supply).2.1) := by
  induction bound generalizing taken p b supply with
  | nil => exact ⟨.refl, fun y hy hc => by simpa using hcaptured y hy hc, hkeys⟩
  | cons x bound ih =>
    rw [List.forall_mem_cons] at hbound hfree
    unfold Term.renamePattern
    split
    · rename_i hx
      obtain ⟨z, supply', heq, hz, hnames, hzkeys, hztaken⟩ :=
        freshBinder_spec live taken x b supply
      rw [heq]
      have hzvars : z ∉ p.vars := fun h => hztaken (hvars z h)
      have hold : ∀ y ∈ (p.rename x z).vars, y = z ∨ (y ∈ p.vars ∧ y ≠ x) := by
        intro y hy
        rw [Pattern.vars_rename, List.mem_map] at hy
        obtain ⟨w, hw, rfl⟩ := hy
        split <;> simp_all
      have hnext := @ih (z :: taken) (p.rename x z) (b.rename x z) supply'
        (fun y hy => ?_) (fun y hy => List.mem_cons_of_mem z (hbound.2 y hy)) (fun y hy hyb => ?_)
        (fun y hy hyc => ?_) (fun y hy => ?_)
      · exact ⟨.head (.rename hzvars hnames hfree.1) hnext.renamed, hnext.not_captured,
          hnext.get?_eq_none⟩
      · rcases hold y hy with rfl | ⟨hy, _⟩
        · exact List.mem_cons_self
        · exact List.mem_cons_of_mem z (hvars y hy)
      · have hyz : y ≠ z := fun heq => hztaken (heq ▸ hbound.2 y hy)
        obtain ⟨hyb, hyx⟩ := (mem_free_rename hyb).resolve_right hyz
        rw [Pattern.vars_rename, List.mem_map]
        exact ⟨y, hfree.2 y hy hyb, if_neg hyx⟩
      · rcases hold y hy with rfl | ⟨hy, hyx⟩
        · exact absurd hyc hz
        · exact (List.mem_cons.1 (hcaptured y hy hyc)).resolve_left hyx
      · rcases hold y hy with rfl | ⟨hy, _⟩
        · exact hzkeys
        · exact hkeys y hy
    · rename_i hx
      refine ih supply hvars hbound.2 hfree.2 (fun y hy hyc => ?_) hkeys
      have hyx : y ≠ x := fun heq => hx (heq ▸ hyc)
      exact (List.mem_cons.1 (hcaptured y hy hyc)).resolve_left hyx

/-! ### What substitution does -/

/-- How a case is substituted into when `P` says how its body is: not at all when no
    replacement reaches it, and else after it was prepared. -/
def SubstCase (P : Replacements → Term → Term → Prop) (r : Replacements)
    (c c' : Pattern × Term) : Prop :=
  ((r.live c.1.vars c.2).isEmpty ∧ c' = c) ∨
    ∃ b, Prepared (r.live c.1.vars c.2) c (c'.1, b) ∧ P (r.live c.1.vars c.2) b c'.2

section

variable {P : Replacements → Term → Term → Prop}

/-- What is to be shown of a relation between terms and their substitutions. -/
structure SubstClosed (P : Replacements → Term → Term → Prop) : Prop where
  var (r : Replacements) (x : String) : P r (.var x) ((r.get? x).getD (.var x))
  lit (r : Replacements) (l : Literal) : P r (.lit l) (.lit l)
  ctor (r : Replacements) (name : String) : P r (.ctor name) (.ctor name)
  app {r : Replacements} {f f' a a' : Term} : P r f f' → P r a a' → P r (.app f a) (.app f' a')
  abs {r : Replacements} {x x' : String} {t t' : Term} :
    SubstCase P r (.var x, t) (.var x', t') → P r (.abs x t) (.abs x' t')
  fix {r : Replacements} {x x' : String} {t t' : Term} :
    SubstCase P r (.var x, t) (.var x', t') → P r (.fix x t) (.fix x' t')
  binary {r : Replacements} {a a' b b' : Term} (op : BinaryOp) :
    P r a a' → P r b b' → P r (.binary op a b) (.binary op a' b')
  not {r : Replacements} {a a' : Term} : P r a a' → P r (.not a) (.not a')
  cond {r : Replacements} {a a' b b' c c' : Term} :
    P r a a' → P r b b' → P r c c' → P r (.cond a b c) (.cond a' b' c')
  select {r : Replacements} {s s' : Term} {cs cs' : List (Pattern × Term)} :
    P r s s' → List.Forall₂ (SubstCase P r) cs cs' → P r (.select s cs) (.select s' cs')

mutual

theorem substMany_induct (hP : SubstClosed P) (r : Replacements) (t : Term) (supply : Supply) :
    P r t (substMany r t supply).1 := by
  cases t with
  | var x =>
    rw [substMany]
    exact hP.var r x
  | lit l =>
    rw [substMany]
    exact hP.lit r l
  | ctor name =>
    rw [substMany]
    exact hP.ctor r name
  | app f a =>
    rw [substMany]
    exact hP.app (substMany_induct hP r f _) (substMany_induct hP r a _)
  | abs x t =>
    rw [substMany]
    exact hP.abs (substUnder_induct hP r x t _)
  | fix x t =>
    rw [substMany]
    exact hP.fix (substUnder_induct hP r x t _)
  | binary op a b =>
    rw [substMany]
    exact hP.binary op (substMany_induct hP r a _) (substMany_induct hP r b _)
  | not a =>
    rw [substMany]
    exact hP.not (substMany_induct hP r a _)
  | cond a b c =>
    rw [substMany]
    exact hP.cond (substMany_induct hP r a _) (substMany_induct hP r b _)
      (substMany_induct hP r c _)
  | select s cs =>
    rw [substMany]
    exact hP.select (substMany_induct hP r s _) (substCases_induct hP r cs _)
termination_by (t.size, 0)
decreasing_by all_goals simp only [size, Prod.lex_def]; omega

theorem substUnder_induct (hP : SubstClosed P) (r : Replacements) (x : String) (t : Term)
    (supply : Supply) :
    SubstCase P r (.var x, t)
      (.var (substUnder r x t supply).1, (substUnder r x t supply).2.1) := by
  rw [substUnder]
  have hx : (r.live [x] t).get? x = none := by simp [Replacements.get?_live]
  dsimp only
  split
  · rename_i hempty
    exact .inl ⟨hempty, rfl⟩
  · exact .inr ⟨_, Prepared.renameBinder t supply hx, substMany_induct hP _ _ _⟩
termination_by (t.size, 1)
decreasing_by
  rw [size_renameBinder]
  exact Prod.Lex.right _ Nat.zero_lt_one

theorem substCases_induct (hP : SubstClosed P) (r : Replacements) (cs : List (Pattern × Term))
    (supply : Supply) : List.Forall₂ (SubstCase P r) cs (substCases r cs supply).1 := by
  match cs with
  | [] =>
    rw [substCases]
    exact .nil
  | (p, b) :: cs =>
    have hkeys : ∀ y ∈ p.vars, (r.live p.vars b).get? y = none := fun y hy => by
      simp [Replacements.get?_live, hy]
    rw [substCases]
    dsimp only
    split
    · rename_i hempty
      exact .cons (.inl ⟨hempty, rfl⟩) (substCases_induct hP r cs _)
    · have hprepared := Prepared.renamePattern (b := b) supply (fun _ hy => hy) (fun _ hy => hy)
        (fun _ hy _ => hy) (fun _ hy _ => hy) hkeys
      exact .cons (.inr ⟨_, hprepared, substMany_induct hP _ _ _⟩) (substCases_induct hP r cs _)
termination_by (sizeCases cs, 0)
decreasing_by all_goals simp only [size_renamePattern, sizeCases, Prod.lex_def]; omega

end

end

/-! ### Meaning -/

/-- Renaming the variables of a case changes neither its shape nor its body. -/
theorem RenameStep.nameless_eq {c c' : Pattern × Term} (h : RenameStep c c')
    (scope : List String) :
    Shape.ofPattern c'.1 = Shape.ofPattern c.1 ∧
      c'.2.nameless (c'.1.vars.reverse ++ scope) = c.2.nameless (c.1.vars.reverse ++ scope) := by
  cases h with
  | @rename x z p b hvars hnames hx =>
    refine ⟨Shape.ofPattern_rename x z p, ?_⟩
    dsimp only
    rw [Pattern.vars_rename, ← List.map_reverse]
    exact nameless_rename_binder hnames (by simpa using hvars) (by simpa using hx)

theorem Prepared.nameless_eq {live : Replacements} {c c' : Pattern × Term}
    (h : Prepared live c c') (scope : List String) :
    Shape.ofPattern c'.1 = Shape.ofPattern c.1 ∧
      c'.2.nameless (c'.1.vars.reverse ++ scope) = c.2.nameless (c.1.vars.reverse ++ scope) := by
  obtain ⟨hrenamed, -, -⟩ := h
  induction hrenamed with
  | refl => exact ⟨rfl, rfl⟩
  | tail _ hstep ih =>
    have hnext := hstep.nameless_eq scope
    exact ⟨hnext.1.trans ih.1, hnext.2.trans ih.2⟩

/-- No binder of the scope is replaced, or free in a replacement. -/
def Apart (r : Replacements) (scope : List String) : Prop :=
  ∀ y ∈ scope, y ∉ r.captured ∧ r.get? y = none

/-- The nameless form of the result is the substitution in the nameless form. -/
def Commutes (r : Replacements) (t t' : Term) : Prop :=
  ∀ scope, Apart r scope → t'.nameless scope = (t.nameless scope).subst r.nameless

theorem SubstCase.nameless_eq {r : Replacements} {c c' : Pattern × Term}
    (h : SubstCase Commutes r c c') {scope : List String} (hscope : Apart r scope) :
    Shape.ofPattern c'.1 = Shape.ofPattern c.1 ∧
      c'.2.nameless (c'.1.vars.reverse ++ scope) =
        (c.2.nameless (c.1.vars.reverse ++ scope)).subst r.nameless := by
  have hfree : ∀ x ∈ (c.2.nameless (c.1.vars.reverse ++ scope)).freeNames,
      x ∉ c.1.vars ∧ x ∈ c.2.free := fun x hx => by
    have hx := mem_freeNames_nameless.1 hx
    exact ⟨by simpa using (not_or.1 (mt List.mem_append.2 hx.2)).1, hx.1⟩
  rcases h with ⟨hempty, rfl⟩ | ⟨b, hprepared, hb⟩
  · refine ⟨rfl, (Nameless.subst_eq_self fun x hx => ?_).symm⟩
    rw [Replacements.nameless,
      Replacements.get?_of_live_isEmpty hempty (hfree x hx).1 (hfree x hx).2]
    rfl
  · obtain ⟨hshape, hbody⟩ := hprepared.nameless_eq scope
    refine ⟨hshape, ?_⟩
    rw [hb (c'.1.vars.reverse ++ scope) fun y hy => ?_, hbody]
    · refine Nameless.subst_congr fun x hx => ?_
      rw [Replacements.nameless, Replacements.nameless, Replacements.get?_live,
        if_pos (hfree x hx)]
    · rcases List.mem_append.1 hy with hy | hy
      · rw [List.mem_reverse] at hy
        exact ⟨hprepared.not_captured y hy, hprepared.get?_eq_none y hy⟩
      · refine ⟨fun hc => (hscope y hy).1 (Replacements.captured_live hc), ?_⟩
        rw [Replacements.get?_live, (hscope y hy).2, ite_self]

/-- A variable is replaced by a term that no binder of the scope captures. -/
theorem commutes_var (r : Replacements) (x : String) :
    Commutes r (.var x) ((r.get? x).getD (.var x)) := by
  intro scope hscope
  rw [nameless]
  rcases hx : r.get? x with _ | v
  · have hfree : ∀ y ∈ (Scope.resolve scope x).freeNames, r.nameless y = none := by
      intro y hy
      obtain rfl : y = x := by
        have hy := mem_freeNames_nameless (t := .var x) |>.1 hy
        simpa [free] using hy.1
      simp [Replacements.nameless, hx]
    rw [Nameless.subst_eq_self hfree]
    rfl
  · have hxs : x ∉ scope := fun h => by simpa [hx] using (hscope x h).2
    rw [Scope.resolve_of_not_mem hxs, Nameless.subst, Replacements.nameless, hx]
    refine nameless_congr fun y hy => ?_
    have hys : y ∉ scope := fun h =>
      (hscope y h).1 (Replacements.mem_captured.2 ⟨x, v, hx, hy⟩)
    rw [Scope.resolve_of_not_mem hys, Scope.resolve_of_not_mem List.not_mem_nil]

theorem commutes_closed : SubstClosed Commutes where
  var := commutes_var
  lit _ _ _ _ := rfl
  ctor _ _ _ _ := rfl
  app hf ha scope hs := by rw [nameless, nameless, Nameless.subst, hf scope hs, ha scope hs]
  abs h scope hs := by
    rw [nameless, nameless, Nameless.subst]
    exact congrArg _ (h.nameless_eq hs).2
  fix h scope hs := by
    rw [nameless, nameless, Nameless.subst]
    exact congrArg _ (h.nameless_eq hs).2
  binary op ha hb scope hs := by
    rw [nameless, nameless, Nameless.subst, ha scope hs, hb scope hs]
  not ha scope hs := by rw [nameless, nameless, Nameless.subst, ha scope hs]
  cond ha hb hc scope hs := by
    rw [nameless, nameless, Nameless.subst, ha scope hs, hb scope hs, hc scope hs]
  select hsub hcases scope hs := by
    rw [nameless, nameless, Nameless.subst, hsub scope hs]
    refine congrArg _ ?_
    induction hcases with
    | nil => rfl
    | cons hc _ ih =>
      obtain ⟨hshape, hbody⟩ := hc.nameless_eq hs
      rw [namelessCases, namelessCases, Nameless.substCases, hshape, hbody, ih]

theorem nameless_substMany (r : Replacements) (t : Term) (supply : Supply) :
    (substMany r t supply).1.nameless [] = (t.nameless []).subst r.nameless :=
  substMany_induct commutes_closed r t supply [] (by simp [Apart])

theorem mem_freeNames_nameless_nil {t : Term} {x : String} :
    x ∈ (t.nameless []).freeNames ↔ x ∈ t.free := by
  simp [mem_freeNames_nameless]

/-- **Substitution is capture-avoiding.**  Up to the names of binders it is the
    substitution for free names, and the names free in the result are those that the
    names free in the term stand for. -/
theorem substMany_captureAvoiding (r : Replacements) (t : Term) (supply : Supply) :
    (substMany r t supply).1.nameless [] = (t.nameless []).subst r.nameless ∧
      ∀ x, x ∈ (substMany r t supply).1.free ↔
        (x ∈ t.free ∧ x ∉ r.keys) ∨ ∃ y ∈ t.free, ∃ v, r.get? y = some v ∧ x ∈ v.free := by
  refine ⟨nameless_substMany r t supply, fun x => ?_⟩
  rw [← mem_freeNames_nameless_nil, nameless_substMany, Nameless.mem_freeNames_subst]
  simp only [mem_freeNames_nameless_nil]
  constructor
  · rintro ⟨y, hy, hx⟩
    rcases hv : r.get? y with _ | v
    · obtain rfl : x = y := by simpa [Replacements.nameless, hv, Nameless.freeNames] using hx
      exact .inl ⟨hy, Table.get?_eq_none_iff.1 hv⟩
    · have hx : x ∈ v.free := by
        simpa [Replacements.nameless, hv, mem_freeNames_nameless_nil] using hx
      exact .inr ⟨y, hy, v, hv, hx⟩
  · rintro (⟨hx, hr⟩ | ⟨y, hy, v, hv, hx⟩)
    · refine ⟨x, hx, ?_⟩
      simp [Replacements.nameless, Table.get?_eq_none_iff.2 hr, Nameless.freeNames]
    · refine ⟨y, hy, ?_⟩
      simpa [Replacements.nameless, hv, mem_freeNames_nameless_nil] using hx

end Term

end CoreCalculus
