/-
  CoreCalculus/Proofs/UnrenamedSubstitution.lean
  ==============================================
  **Substitution renames only when it must.**

  `replaceFree f` puts `f x` in the place of every free `x` and looks at no binder: it keeps
  every other node, and a free name of `f x` may come under a binder of the same name.
  Substitution is nothing else as long as that does not happen, and then it takes no id from
  the supply (`Term.staysInPlace`).

  What decides about it is which replacements reach the term at all.  A replacement for a name
  that is not free there never counts, whatever its value and whatever the binders, since it is
  not among the live ones at any depth.
-/
import CoreCalculus.Proofs.TypedSubstitution

namespace CoreCalculus

/-! ### Replacing in place -/

namespace Term

mutual

/-- The names that a term binds anywhere in it, with repetitions. -/
def binders : Term → List String
  | .var _ => []
  | .lit _ => []
  | .ctor _ => []
  | .app f a => f.binders ++ a.binders
  | .abs x t => x :: t.binders
  | .fix x t => x :: t.binders
  | .binary _ a b => a.binders ++ b.binders
  | .not a => a.binders
  | .cond a b e => a.binders ++ b.binders ++ e.binders
  | .select s cs => s.binders ++ bindersCases cs

def bindersCases : List (Pattern × Term) → List String
  | [] => []
  | (p, t) :: cs => p.vars ++ t.binders ++ bindersCases cs

end

/-- Below binders of `bound`, these names stand for themselves. -/
def shadow (f : String → Term) (bound : List String) (x : String) : Term :=
  if x ∈ bound then .var x else f x

mutual

/-- Put `f x` in the place of every free occurrence of every name `x`. -/
def replaceFree (f : String → Term) : Term → Term
  | .var x => f x
  | .lit l => .lit l
  | .ctor name => .ctor name
  | .app g a => .app (g.replaceFree f) (a.replaceFree f)
  | .abs x t => .abs x (t.replaceFree (shadow f [x]))
  | .fix x t => .fix x (t.replaceFree (shadow f [x]))
  | .binary op a b => .binary op (a.replaceFree f) (b.replaceFree f)
  | .not a => .not (a.replaceFree f)
  | .cond a b e => .cond (a.replaceFree f) (b.replaceFree f) (e.replaceFree f)
  | .select s cs => .select (s.replaceFree f) (replaceFreeCases f cs)

def replaceFreeCases (f : String → Term) : List (Pattern × Term) → List (Pattern × Term)
  | [] => []
  | (p, t) :: cs => (p, t.replaceFree (shadow f p.vars)) :: replaceFreeCases f cs

end

theorem shadow_var (bound : List String) : shadow .var bound = .var := by
  funext x
  rw [shadow, ite_self]

/-- Below the binders, the names that matter are the free ones that are not bound there. -/
theorem shadow_congr {f g : String → Term} {bound free : List String}
    (h : ∀ x ∈ free.filter (· ∉ bound), f x = g x) :
    ∀ x ∈ free, shadow f bound x = shadow g bound x := by
  intro x hx
  by_cases hbound : x ∈ bound
  · rw [shadow, shadow, if_pos hbound, if_pos hbound]
  · rw [shadow, shadow, if_neg hbound, if_neg hbound]
    exact h x (List.mem_filter.2 ⟨hx, decide_eq_true hbound⟩)

/-- Only the free names matter. -/
theorem replaceFree_congr {f g : String → Term} {t : Term} (h : ∀ x ∈ t.free, f x = g x) :
    t.replaceFree f = t.replaceFree g := by
  induction t using induct generalizing f g with
  | var x => exact h x (List.mem_singleton_self x)
  | lit l => rfl
  | ctor name => rfl
  | not a ih =>
    rw [free] at h
    rw [replaceFree, replaceFree, ih h]
  | app a b iha ihb | binary op a b iha ihb =>
    rw [free, List.forall_mem_append] at h
    rw [replaceFree, replaceFree, iha h.1, ihb h.2]
  | cond a b e iha ihb ihe =>
    rw [free, List.forall_mem_append, List.forall_mem_append] at h
    rw [replaceFree, replaceFree, iha h.1.1, ihb h.1.2, ihe h.2]
  | abs x t ih | fix x t ih =>
    rw [replaceFree, replaceFree, ih (shadow_congr (by simpa [free] using h))]
  | select s cs ihs ihc =>
    rw [free, List.forall_mem_append] at h
    obtain ⟨hs, hcs⟩ := h
    rw [replaceFree, replaceFree, ihs hs]
    have hcases : replaceFreeCases f cs = replaceFreeCases g cs := by
      induction cs with
      | nil => rfl
      | cons c cs ih =>
        rw [List.forall_mem_cons] at ihc
        rw [freeCases, List.forall_mem_append] at hcs
        rw [replaceFreeCases, replaceFreeCases, ihc.1 (shadow_congr hcs.1), ih ihc.2 hcs.2]
    rw [hcases]

theorem replaceFree_var (t : Term) : t.replaceFree .var = t := by
  induction t using induct with
  | select s cs ihs ihc =>
    have hcases : replaceFreeCases .var cs = cs := by
      induction cs with
      | nil => rfl
      | cons c cs ih =>
        rw [List.forall_mem_cons] at ihc
        rw [replaceFreeCases, shadow_var, ihc.1, ih ihc.2]
    rw [replaceFree, ihs, hcases]
  | _ => simp_all [replaceFree, shadow_var]

/-- Free names that are replaced by themselves change nothing. -/
theorem replaceFree_eq_self {f : String → Term} {t : Term} (h : ∀ x ∈ t.free, f x = .var x) :
    t.replaceFree f = t := by
  rw [replaceFree_congr h, replaceFree_var]

end Term

/-! ### Replacements that capture nothing -/

namespace Replacements

variable {r : Replacements}

/-- No binder of `binders` is free in what replaces a name of `free`. -/
def Spares (r : Replacements) (free binders : List String) : Prop :=
  ∀ x ∈ free, ∀ v, r.get? x = some v → ∀ y ∈ binders, y ∉ v.free

/-- Parts of a term are spared by what spares the term. -/
theorem Spares.parts {free free' binders binders' : List String}
    (h : r.Spares (free ++ free') (binders ++ binders')) :
    r.Spares free binders ∧ r.Spares free' binders' := by
  constructor
  · intro x hx v hv y hy
    exact h x (List.mem_append_left _ hx) v hv y (List.mem_append_left _ hy)
  · intro x hx v hv y hy
    exact h x (List.mem_append_right _ hx) v hv y (List.mem_append_right _ hy)

theorem standIn_of_none {x : String} (h : r.get? x = none) : r.standIn x = .var x := by
  rw [standIn, h]
  rfl

/-- Below binders the live replacements do what the shadowed ones do. -/
theorem standIn_live {bound : List String} {t : Term} :
    ∀ x ∈ t.free, (r.live bound t).standIn x = Term.shadow r.standIn bound x := by
  intro x hx
  rw [standIn, get?_live, Term.shadow]
  by_cases hbound : x ∈ bound
  · rw [if_neg (by simp [hbound]), if_pos hbound]
    rfl
  · rw [if_pos ⟨hbound, hx⟩, if_neg hbound]
    rfl

/-- Below binders that are spared, nothing is captured, there and further below. -/
theorem Spares.live {bound binders : List String} {t : Term}
    (h : r.Spares (t.free.filter (· ∉ bound)) (bound ++ binders)) :
    (∀ y ∈ bound, y ∉ (r.live bound t).captured) ∧ (r.live bound t).Spares t.free binders := by
  have hlive : ∀ x v, (r.live bound t).get? x = some v → ∀ y ∈ bound ++ binders, y ∉ v.free := by
    intro x v hx
    rw [get?_live] at hx
    split at hx
    · rename_i hreaches
      exact h x (List.mem_filter.2 ⟨hreaches.2, decide_eq_true hreaches.1⟩) v hx
    · cases hx
  constructor
  · intro y hy hcaptured
    obtain ⟨x, v, hx, hfree⟩ := mem_captured.1 hcaptured
    exact hlive x v hx y (List.mem_append_left _ hy) hfree
  · intro x _ v hv y hy
    exact hlive x v hv y (List.mem_append_right _ hy)

end Replacements

namespace Term

variable {r : Replacements}

theorem renameBinder_eq_self {x : String} (hx : x ∉ r.captured) (t : Term) (supply : Supply) :
    renameBinder r x t supply = (x, t, supply) := by
  rw [renameBinder, if_neg hx]

theorem renamePattern_eq_self {bound : List String} (h : ∀ y ∈ bound, y ∉ r.captured)
    (taken : List String) (p : Pattern) (t : Term) (supply : Supply) :
    renamePattern r bound taken p t supply = (p, t, supply) := by
  induction bound with
  | nil => rfl
  | cons x bound ih =>
    rw [List.forall_mem_cons] at h
    rw [renamePattern, if_neg h.1, ih h.2]

/-! ### Substitution in place -/

/-- Substitution in `t` replaces in place whenever the binders of `t` are spared. -/
def StaysInPlace (t : Term) : Prop :=
  ∀ (r : Replacements) (supply : Supply), r.Spares t.free t.binders →
    substMany r t supply = (t.replaceFree r.standIn, supply)

variable {bound : List String} {t : Term}

/-- Where no replacement is live, replacing in place changes nothing either. -/
theorem replaceFree_of_live_isEmpty (h : (r.live bound t).isEmpty) :
    t.replaceFree (shadow r.standIn bound) = t := by
  refine replaceFree_eq_self fun x hx => ?_
  by_cases hbound : x ∈ bound
  · rw [shadow, if_pos hbound]
  · rw [shadow, if_neg hbound]
    exact Replacements.standIn_of_none (Replacements.get?_of_live_isEmpty h hbound hx)

theorem StaysInPlace.live (ht : StaysInPlace t) (supply : Supply)
    (h : r.Spares (t.free.filter (· ∉ bound)) (bound ++ t.binders)) :
    substMany (r.live bound t) t supply = (t.replaceFree (shadow r.standIn bound), supply) := by
  rw [ht _ supply h.live.2, replaceFree_congr Replacements.standIn_live]

theorem StaysInPlace.under (ht : StaysInPlace t) (x : String) (supply : Supply)
    (h : r.Spares (t.free.filter (· ∉ [x])) ([x] ++ t.binders)) :
    substUnder r x t supply = (x, t.replaceFree (shadow r.standIn [x]), supply) := by
  rw [substUnder]
  dsimp only
  split
  · rename_i hempty
    rw [replaceFree_of_live_isEmpty hempty]
  · rw [renameBinder_eq_self (h.live.1 x (List.mem_singleton_self x)), ht.live supply h]

theorem StaysInPlace.cases {cs : List (Pattern × Term)} (hcs : ∀ c ∈ cs, StaysInPlace c.2)
    (supply : Supply) (h : r.Spares (freeCases cs) (bindersCases cs)) :
    substCases r cs supply = (replaceFreeCases r.standIn cs, supply) := by
  induction cs with
  | nil =>
    rw [substCases]
    rfl
  | cons c cs ih =>
    obtain ⟨p, t⟩ := c
    rw [List.forall_mem_cons] at hcs
    obtain ⟨hbody, hothers⟩ : r.Spares (t.free.filter (· ∉ p.vars)) (p.vars ++ t.binders) ∧
        r.Spares (freeCases cs) (bindersCases cs) := h.parts
    rw [substCases, ih hcs.2 hothers, replaceFreeCases]
    dsimp only
    split
    · rename_i hempty
      rw [replaceFree_of_live_isEmpty hempty]
    · rw [renamePattern_eq_self hbody.live.1, hcs.1.live supply hbody, ih hcs.2 hothers]

theorem staysInPlace (t : Term) : StaysInPlace t := by
  induction t using induct with
  | var x =>
    intro r supply _
    rw [substMany]
    rfl
  | lit l =>
    intro r supply _
    rw [substMany]
    rfl
  | ctor name =>
    intro r supply _
    rw [substMany]
    rfl
  | not a ih =>
    intro r supply h
    simp only [substMany, ih r supply h, replaceFree]
  | app a b iha ihb | binary op a b iha ihb =>
    intro r supply h
    obtain ⟨ha, hb⟩ : r.Spares a.free a.binders ∧ r.Spares b.free b.binders := h.parts
    simp only [substMany, iha r supply ha, ihb r supply hb, replaceFree]
  | cond a b e iha ihb ihe =>
    intro r supply h
    obtain ⟨hab, he⟩ : r.Spares (a.free ++ b.free) (a.binders ++ b.binders) ∧
        r.Spares e.free e.binders := h.parts
    obtain ⟨ha, hb⟩ := hab.parts
    simp only [substMany, iha r supply ha, ihb r supply hb, ihe r supply he, replaceFree]
  | abs x t ih | fix x t ih =>
    intro r supply h
    have hbody : r.Spares (t.free.filter (· ∉ [x])) ([x] ++ t.binders) := by
      simpa [free, binders] using h
    simp only [substMany, ih.under x supply hbody, replaceFree]
  | select s cs ihs ihc =>
    intro r supply h
    obtain ⟨hs, hcs⟩ : r.Spares s.free s.binders ∧ r.Spares (freeCases cs) (bindersCases cs) :=
      h.parts
    simp only [substMany, ihs r supply hs, StaysInPlace.cases ihc supply hcs, replaceFree]

/-- **Renaming only when it must be.**  If no binder of the term is free in a replacement, every
    free occurrence of a replaced name is replaced where it stands, and nothing else changes, the
    supply included.  If no replaced name is free in the term, nothing changes at all, whatever
    its binders. -/
theorem substMany_unrenamed (r : Replacements) (t : Term) (supply : Supply) :
    ((∀ y ∈ t.binders, y ∉ r.captured) →
        t.substMany r supply = (t.replaceFree r.standIn, supply)) ∧
      ((∀ x ∈ t.free, r.get? x = none) → t.substMany r supply = (t, supply)) := by
  constructor
  · intro hbinders
    refine staysInPlace t r supply ?_
    intro x _ v hv y hy hfree
    exact hbinders y hy (Replacements.mem_captured.2 ⟨x, v, hv, hfree⟩)
  · intro hunused
    have hspares : r.Spares t.free t.binders := by
      intro x hx v hv
      rw [hunused x hx] at hv
      cases hv
    rw [staysInPlace t r supply hspares, replaceFree_eq_self]
    intro x hx
    exact Replacements.standIn_of_none (hunused x hx)

end Term

/-- The `x` that is free is replaced, below three binders, and the one that a pattern binds is
    not.  A value with those binders free in it is not put anywhere, so they keep their names. -/
theorem substMany_unrenamed_match :
    let cases (t : Term) : List (Pattern × Term) :=
      [(.ctor "Box" [.var "h"], .binary .add (.var "h") t), (.var "x", .var "x")]
    let t : Term := .abs "y" (.fix "f" (.select (.var "y") (cases (.var "x"))))
    let value : Term := .app (.var "g") (.var "z")
    let t' : Term := .abs "y" (.fix "f" (.select (.var "y") (cases value)))
    let r : Replacements := .ofList [("x", value)]
    let r' : Replacements := .ofList [("h", .app (.var "y") (.var "f"))]
    ((∀ y ∈ t.binders, y ∉ r.captured) ∧ t.substMany r ⟨0⟩ = (t', ⟨0⟩)) ∧
      ((∀ x ∈ t.free, r'.get? x = none) ∧ t.substMany r' ⟨0⟩ = (t, ⟨0⟩)) := by
  intro cases t value t' r r'
  have hbinders : ∀ y ∈ t.binders, y ∉ r.captured := by decide
  have hunused : ∀ x ∈ t.free, r'.get? x = none := by decide
  exact ⟨⟨hbinders, (Term.substMany_unrenamed r t ⟨0⟩).1 hbinders⟩,
    ⟨hunused, (Term.substMany_unrenamed r' t ⟨0⟩).2 hunused⟩⟩

end CoreCalculus
