/-
  CoreCalculus/Proofs/Nameless.lean
  =================================
  **Terms without bound names.**

  A bound variable is its distance to its binder, counted over the binders in
  between; a free one keeps its name.  Terms that differ only in the names of their
  binders have the same nameless form, so that form is what a term means up to
  renaming.

  A scope lists the binders around a term, innermost first.  The variables of a
  pattern enter it one after another, so the last of several equal ones is the one
  that is seen.  The nameless form of a term depends on its scope only through what
  the scope makes of the names free in the term (`nameless_congr`), and renaming a
  binder to a new name changes nothing (`nameless_rename`).

  Since a free name is never an index, substitution for free names puts a nameless
  term in as it is, below any number of binders.
-/
import CoreCalculus.Code.Shape
import CoreCalculus.Term

namespace CoreCalculus

inductive Nameless where
  | free (name : String)
  | bound (index : Nat)
  | lit (literal : Literal)
  | app (func arg : Nameless)
  | abs (body : Nameless)
  | binary (op : BinaryOp) (left right : Nameless)
  | not (operand : Nameless)
  | cond (test yes no : Nameless)
  | fix (body : Nameless)
  | ctor (name : String)
  | select (subject : Nameless) (cases : List (Shape × Nameless))
deriving Inhabited

namespace Nameless

/-- Induction with a hypothesis for the body of every case. -/
@[elab_as_elim]
theorem induct {motive : Nameless → Prop}
    (free : ∀ name, motive (.free name))
    (bound : ∀ index, motive (.bound index))
    (lit : ∀ literal, motive (.lit literal))
    (app : ∀ func arg, motive func → motive arg → motive (.app func arg))
    (abs : ∀ body, motive body → motive (.abs body))
    (binary : ∀ op left right, motive left → motive right → motive (.binary op left right))
    (not : ∀ operand, motive operand → motive (.not operand))
    (cond : ∀ test yes no, motive test → motive yes → motive no → motive (.cond test yes no))
    (fix : ∀ body, motive body → motive (.fix body))
    (ctor : ∀ name, motive (.ctor name))
    (select : ∀ subject cases, motive subject → (∀ c ∈ cases, motive c.2) →
      motive (.select subject cases))
    (n : Nameless) : motive n :=
  Nameless.rec (motive_1 := motive) (motive_2 := fun cs => ∀ c ∈ cs, motive c.2)
    (motive_3 := fun c => motive c.2)
    free bound lit app abs binary not cond fix ctor select
    (by simp) (fun _ _ h hs => List.forall_mem_cons.2 ⟨h, hs⟩) (fun _ _ h => h) n

/-! ### Free names and their substitution -/

mutual

def freeNames : Nameless → List String
  | .free x => [x]
  | .bound _ => []
  | .lit _ => []
  | .app f a => f.freeNames ++ a.freeNames
  | .abs t => t.freeNames
  | .binary _ a b => a.freeNames ++ b.freeNames
  | .not a => a.freeNames
  | .cond a b c => a.freeNames ++ b.freeNames ++ c.freeNames
  | .fix t => t.freeNames
  | .ctor _ => []
  | .select s cs => s.freeNames ++ freeNamesCases cs

def freeNamesCases : List (Shape × Nameless) → List String
  | [] => []
  | (_, t) :: cs => t.freeNames ++ freeNamesCases cs

end

mutual

/-- Replace free names, all at once. -/
def subst (r : String → Option Nameless) : Nameless → Nameless
  | .free x => (r x).getD (.free x)
  | .bound i => .bound i
  | .lit l => .lit l
  | .app f a => .app (f.subst r) (a.subst r)
  | .abs t => .abs (t.subst r)
  | .binary op a b => .binary op (a.subst r) (b.subst r)
  | .not a => .not (a.subst r)
  | .cond a b c => .cond (a.subst r) (b.subst r) (c.subst r)
  | .fix t => .fix (t.subst r)
  | .ctor c => .ctor c
  | .select s cs => .select (s.subst r) (substCases r cs)

def substCases (r : String → Option Nameless) : List (Shape × Nameless) → List (Shape × Nameless)
  | [] => []
  | (p, t) :: cs => (p, t.subst r) :: substCases r cs

end

theorem freeNamesCases_eq_flatMap (cs : List (Shape × Nameless)) :
    freeNamesCases cs = cs.flatMap fun c => c.2.freeNames := by
  induction cs with
  | nil => rfl
  | cons c cs ih => simp [freeNamesCases, ih]

theorem substCases_eq_map (r : String → Option Nameless) (cs : List (Shape × Nameless)) :
    substCases r cs = cs.map fun c => (c.1, c.2.subst r) := by
  induction cs with
  | nil => rfl
  | cons c cs ih => simp [substCases, ih]

/-- Only the free names matter. -/
theorem subst_congr {r r' : String → Option Nameless} {n : Nameless}
    (h : ∀ x ∈ n.freeNames, r x = r' x) : n.subst r = n.subst r' := by
  induction n using induct with
  | free x => rw [subst, subst, h x (by simp [freeNames])]
  | bound i => rfl
  | lit l => rfl
  | ctor c => rfl
  | abs t ih | fix t ih | not t ih =>
    rw [freeNames] at h
    rw [subst, subst, ih h]
  | app a b iha ihb | binary op a b iha ihb =>
    simp only [freeNames, List.mem_append, or_imp, forall_and] at h
    rw [subst, subst, iha h.1, ihb h.2]
  | cond a b c iha ihb ihc =>
    simp only [freeNames, List.mem_append, or_imp, forall_and] at h
    rw [subst, subst, iha h.1.1, ihb h.1.2, ihc h.2]
  | select s cs ihs ihc =>
    simp only [freeNames, List.mem_append, or_imp, forall_and, freeNamesCases_eq_flatMap,
      List.mem_flatMap] at h
    rw [subst, subst, ihs h.1, substCases_eq_map, substCases_eq_map]
    refine congrArg _ (List.map_congr_left fun c hc => ?_)
    rw [ihc c hc fun x hx => h.2 x ⟨c, hc, hx⟩]

theorem subst_none (n : Nameless) : n.subst (fun _ => none) = n := by
  induction n using induct with
  | select s cs ihs ihc =>
    have hcases : (cs.map fun c => (c.1, c.2.subst fun _ => none)) = cs.map id :=
      List.map_congr_left fun c hc => by rw [ihc c hc]; rfl
    rw [subst, ihs, substCases_eq_map, hcases, List.map_id]
  | _ => simp_all [subst]

/-- Without a replacement for a free name nothing changes. -/
theorem subst_eq_self {r : String → Option Nameless} {n : Nameless}
    (h : ∀ x ∈ n.freeNames, r x = none) : n.subst r = n := by
  rw [subst_congr h, subst_none]

theorem mem_freeNames_subst {r : String → Option Nameless} {n : Nameless} {y : String} :
    y ∈ (n.subst r).freeNames ↔ ∃ x ∈ n.freeNames, y ∈ ((r x).getD (.free x)).freeNames := by
  induction n using induct with
  | free x => simp [subst, freeNames]
  | bound i => simp [subst, freeNames]
  | lit l => simp [subst, freeNames]
  | ctor c => simp [subst, freeNames]
  | abs t ih | fix t ih | not t ih => simpa only [subst, freeNames] using ih
  | app a b iha ihb | binary op a b iha ihb =>
    simp only [subst, freeNames, List.mem_append, iha, ihb, or_and_right, exists_or]
  | cond a b c iha ihb ihc =>
    simp only [subst, freeNames, List.mem_append, iha, ihb, ihc, or_and_right, exists_or]
  | select s cs ihs ihc =>
    simp only [subst, freeNames, List.mem_append, ihs, or_and_right, exists_or,
      freeNamesCases_eq_flatMap, substCases_eq_map, List.flatMap_map, List.mem_flatMap]
    refine or_congr_right ?_
    constructor
    · rintro ⟨c, hc, hy⟩
      obtain ⟨x, hx, hy⟩ := (ihc c hc).1 hy
      exact ⟨x, ⟨c, hc, hx⟩, hy⟩
    · rintro ⟨x, ⟨c, hc, hx⟩, hy⟩
      exact ⟨c, hc, (ihc c hc).2 ⟨x, hx, hy⟩⟩

end Nameless

/-! ### Scopes -/

namespace Scope

/-- The distance of a name to its innermost binder. -/
def place : List String → String → Option Nat
  | [], _ => none
  | y :: scope, x => if x = y then some 0 else (place scope x).map (· + 1)

/-- What a scope makes of a name. -/
def resolve (scope : List String) (x : String) : Nameless :=
  match place scope x with
  | some i => .bound i
  | none => .free x

theorem place_eq_none_iff {scope : List String} {x : String} :
    place scope x = none ↔ x ∉ scope := by
  induction scope with
  | nil => simp [place]
  | cons y scope ih =>
    rw [place]
    split
    · simp_all
    · simp_all

theorem place_append (binders scope : List String) (x : String) :
    place (binders ++ scope) x =
      (place binders x).or ((place scope x).map (· + binders.length)) := by
  induction binders with
  | nil => simp [place]
  | cons y binders ih =>
    rw [List.cons_append, place, place]
    split
    · rfl
    · rw [ih]
      cases place binders x <;> cases place scope x <;> simp
      omega

theorem resolve_of_not_mem {scope : List String} {x : String} (h : x ∉ scope) :
    resolve scope x = .free x := by
  rw [resolve, place_eq_none_iff.2 h]

/-- Scopes that agree on a name agree on it below more binders. -/
theorem resolve_append_congr (binders : List String) {scope scope' : List String} {x : String}
    (h : x ∉ binders → resolve scope x = resolve scope' x) :
    resolve (binders ++ scope) x = resolve (binders ++ scope') x := by
  rw [resolve, resolve, place_append, place_append]
  rcases hp : place binders x with _ | i
  · have heq := h (place_eq_none_iff.1 hp)
    rw [resolve, resolve] at heq
    cases hs : place scope x <;> cases hs' : place scope' x <;> simp_all
  · rfl

/-- The same for a name and its renaming, below binders that are neither. -/
theorem resolve_append_rename {x z y : String} {binders scope scope' : List String}
    (hx : x ∉ binders) (hz : z ∉ binders)
    (h : y ∉ binders → resolve scope' (if y = x then z else y) = resolve scope y) :
    resolve (binders ++ scope') (if y = x then z else y) = resolve (binders ++ scope) y := by
  by_cases hyx : y = x
  · subst hyx
    have heq := h hx
    rw [if_pos rfl] at heq ⊢
    rw [resolve, resolve, place_append, place_append, place_eq_none_iff.2 hx,
      place_eq_none_iff.2 hz]
    rw [resolve, resolve] at heq
    cases hs : place scope y <;> cases hs' : place scope' z <;> simp_all
  · rw [if_neg hyx] at h ⊢
    exact resolve_append_congr binders h

/-- Renaming a binder to a name apart from the others moves nothing. -/
theorem place_map_rename {x z y : String} {binders : List String} (hz : z ∉ binders)
    (hy : y ≠ z) :
    place (binders.map fun w => if w = x then z else w) (if y = x then z else y) =
      place binders y := by
  induction binders with
  | nil => rfl
  | cons w binders ih =>
    rw [List.mem_cons, not_or] at hz
    rw [List.map_cons, place, place, ih hz.2]
    have hiff : (if y = x then z else y) = (if w = x then z else w) ↔ y = w := by
      grind
    simp only [hiff]

theorem resolve_map_rename {x z y : String} {binders scope : List String} (hz : z ∉ binders)
    (hy : y ≠ z) (hx : y = x → x ∈ binders) :
    resolve ((binders.map fun w => if w = x then z else w) ++ scope) (if y = x then z else y) =
      resolve (binders ++ scope) y := by
  rw [resolve, resolve, place_append, place_append, place_map_rename hz hy, List.length_map]
  rcases hp : place binders y with _ | i
  · have hyx : y ≠ x := fun h => place_eq_none_iff.1 hp (h ▸ hx h)
    rw [if_neg hyx]
  · rfl

end Scope

/-! ### The nameless form of a term -/

namespace Term

mutual

/-- The term without bound names, inside the binders of `scope`. -/
def nameless (scope : List String) : Term → Nameless
  | .var x => Scope.resolve scope x
  | .lit l => .lit l
  | .ctor c => .ctor c
  | .app f a => .app (f.nameless scope) (a.nameless scope)
  | .abs x t => .abs (t.nameless (x :: scope))
  | .fix x t => .fix (t.nameless (x :: scope))
  | .binary op a b => .binary op (a.nameless scope) (b.nameless scope)
  | .not a => .not (a.nameless scope)
  | .cond a b c => .cond (a.nameless scope) (b.nameless scope) (c.nameless scope)
  | .select s cs => .select (s.nameless scope) (namelessCases scope cs)

def namelessCases (scope : List String) : List (Pattern × Term) → List (Shape × Nameless)
  | [] => []
  | (p, t) :: cs =>
    (Shape.ofPattern p, t.nameless (p.vars.reverse ++ scope)) :: namelessCases scope cs

end

theorem namelessCases_eq_map (scope : List String) (cs : List (Pattern × Term)) :
    namelessCases scope cs =
      cs.map fun c => (Shape.ofPattern c.1, c.2.nameless (c.1.vars.reverse ++ scope)) := by
  induction cs with
  | nil => rfl
  | cons c cs ih => simp [namelessCases, ih]

/-- A scope matters only through what it makes of the free names. -/
theorem nameless_congr {scope scope' : List String} {t : Term}
    (h : ∀ x ∈ t.free, Scope.resolve scope x = Scope.resolve scope' x) :
    t.nameless scope = t.nameless scope' := by
  induction t using induct generalizing scope scope' with
  | var x => exact h x (by simp [free])
  | lit l => rfl
  | ctor c => rfl
  | not t ih =>
    rw [free] at h
    rw [nameless, nameless, ih h]
  | app a b iha ihb | binary op a b iha ihb =>
    simp only [free, List.mem_append, or_imp, forall_and] at h
    rw [nameless, nameless, iha h.1, ihb h.2]
  | cond a b c iha ihb ihc =>
    simp only [free, List.mem_append, or_imp, forall_and] at h
    rw [nameless, nameless, iha h.1.1, ihb h.1.2, ihc h.2]
  | abs y t ih | fix y t ih =>
    rw [nameless, nameless]
    refine congrArg _ (ih fun x hx => Scope.resolve_append_congr [y] fun hxy => h x ?_)
    exact List.mem_filter.2 ⟨hx, by simpa using hxy⟩
  | select s cs ihs ihc =>
    simp only [free, List.mem_append, or_imp, forall_and, freeCases_eq_flatMap,
      List.mem_flatMap, List.mem_filter] at h
    rw [nameless, nameless, ihs h.1, namelessCases_eq_map, namelessCases_eq_map]
    refine congrArg _ (List.map_congr_left fun c hc => ?_)
    refine congrArg _ (ihc c hc fun x hx => Scope.resolve_append_congr _ fun hxp => ?_)
    exact h.2 x ⟨c, hc, hx, by simpa using hxp⟩

/-- Below a binder of the renamed name, the names that are not bound there agree as before. -/
theorem nameless_rename_shadowed {x z : String} (binders : List String)
    {scope scope' : List String} {t : Term} (hx : x ∈ binders)
    (h : ∀ y ∈ t.free, y ∉ binders →
      Scope.resolve scope' (if y = x then z else y) = Scope.resolve scope y) :
    t.nameless (binders ++ scope') = t.nameless (binders ++ scope) := by
  refine nameless_congr fun y hy => Scope.resolve_append_congr binders fun hyb => ?_
  have hyx : y ≠ x := fun heq => hyb (heq ▸ hx)
  simpa [hyx] using h y hy hyb

theorem renameCases_eq_map (x z : String) (cs : List (Pattern × Term)) :
    renameCases x z cs =
      cs.map fun c => (c.1, if x ∈ c.1.vars then c.2 else c.2.rename x z) := by
  induction cs with
  | nil => rfl
  | cons c cs ih => simp [renameCases, ih]

/-- **Renaming.**  When the scopes agree on every free name after its renaming, so do the
    nameless forms. -/
theorem nameless_rename {x z : String} {scope scope' : List String} {t : Term} (hz : z ∉ t.names)
    (h : ∀ y ∈ t.free,
      Scope.resolve scope' (if y = x then z else y) = Scope.resolve scope y) :
    (t.rename x z).nameless scope' = t.nameless scope := by
  induction t using induct generalizing scope scope' with
  | var y => exact h y (by simp [free])
  | lit l => rfl
  | ctor c => rfl
  | not t ih =>
    rw [free] at h
    rw [names] at hz
    rw [rename, nameless, nameless, ih hz h]
  | app a b iha ihb | binary op a b iha ihb =>
    simp only [free, List.mem_append, or_imp, forall_and] at h
    simp only [names, List.mem_append, not_or] at hz
    rw [rename, nameless, nameless, iha hz.1 h.1, ihb hz.2 h.2]
  | cond a b c iha ihb ihc =>
    simp only [free, List.mem_append, or_imp, forall_and] at h
    simp only [names, List.mem_append, not_or] at hz
    rw [rename, nameless, nameless, iha hz.1.1 h.1.1, ihb hz.1.2 h.1.2, ihc hz.2 h.2]
  | abs y t ih | fix y t ih =>
    rw [names, List.mem_cons, not_or] at hz
    have hfree : ∀ w ∈ t.free, w ∉ [y] →
        Scope.resolve scope' (if w = x then z else w) = Scope.resolve scope w := fun w hw hwy =>
      h w (List.mem_filter.2 ⟨hw, by simpa using hwy⟩)
    rw [rename, nameless, nameless]
    refine congrArg _ ?_
    split
    · rename_i hyx
      exact nameless_rename_shadowed [y] (by simp [hyx]) hfree
    · rename_i hyx
      exact ih hz.2 fun w hw => Scope.resolve_append_rename (by simpa using Ne.symm hyx)
        (by simpa using hz.1) (hfree w hw)
  | select s cs ihs ihc =>
    simp only [free, List.mem_append, or_imp, forall_and, freeCases_eq_flatMap,
      List.mem_flatMap, List.mem_filter] at h
    simp only [names, List.mem_append, not_or, namesCases_eq_flatMap, List.mem_flatMap,
      not_exists, not_and] at hz
    rw [rename, nameless, nameless, ihs hz.1 h.1, renameCases_eq_map, namelessCases_eq_map,
      namelessCases_eq_map, List.map_map]
    refine congrArg _ (List.map_congr_left fun c hc => congrArg (Prod.mk _) ?_)
    have hfree : ∀ w ∈ c.2.free, w ∉ c.1.vars.reverse →
        Scope.resolve scope' (if w = x then z else w) = Scope.resolve scope w := fun w hw hwp =>
      h.2 w ⟨c, hc, hw, by simpa using hwp⟩
    dsimp only
    split
    · rename_i hx
      exact nameless_rename_shadowed _ (by simpa using hx) hfree
    · rename_i hx
      exact ihc c hc (hz.2 c hc).2 fun w hw => Scope.resolve_append_rename (by simpa using hx)
        (by simpa using (hz.2 c hc).1) (hfree w hw)

/-- Renaming one of the binders around a term. -/
theorem nameless_rename_binder {x z : String} {binders scope : List String} {t : Term}
    (hz : z ∉ t.names) (hzb : z ∉ binders) (hx : x ∈ t.free → x ∈ binders) :
    (t.rename x z).nameless ((binders.map fun w => if w = x then z else w) ++ scope) =
      t.nameless (binders ++ scope) := by
  refine nameless_rename hz fun y hy => Scope.resolve_map_rename hzb ?_ ?_
  · rintro rfl
    exact hz (mem_names_of_mem_free hy)
  · rintro rfl
    exact hx hy

/-- The free names of the nameless form are those the scope does not bind. -/
theorem mem_freeNames_nameless {scope : List String} {t : Term} {y : String} :
    y ∈ (t.nameless scope).freeNames ↔ y ∈ t.free ∧ y ∉ scope := by
  induction t using induct generalizing scope with
  | var x =>
    rw [nameless, free, List.mem_singleton, Scope.resolve]
    rcases hp : Scope.place scope x with _ | i
    · rw [Scope.place_eq_none_iff] at hp
      simp only [Nameless.freeNames, List.mem_singleton]
      exact ⟨fun h => ⟨h, h ▸ hp⟩, fun h => h.1⟩
    · have hx : x ∈ scope := Decidable.byContradiction fun hx => by
        rw [Scope.place_eq_none_iff.2 hx] at hp
        cases hp
      simp only [Nameless.freeNames, List.not_mem_nil, false_iff, not_and]
      rintro rfl hy
      exact hy hx
  | lit l => simp [nameless, Nameless.freeNames, free]
  | ctor c => simp [nameless, Nameless.freeNames, free]
  | not t ih => simpa only [nameless, Nameless.freeNames, free] using ih
  | app a b iha ihb | binary op a b iha ihb =>
    simp only [nameless, Nameless.freeNames, free, List.mem_append, iha, ihb, or_and_right]
  | cond a b c iha ihb ihc =>
    simp only [nameless, Nameless.freeNames, free, List.mem_append, iha, ihb, ihc, or_and_right]
  | abs x t ih | fix x t ih =>
    simp only [nameless, Nameless.freeNames, free, ih, List.mem_filter, List.mem_cons, not_or,
      decide_not, Bool.not_eq_true', decide_eq_false_iff_not, and_assoc]
  | select s cs ihs ihc =>
    simp only [nameless, Nameless.freeNames, free, List.mem_append, ihs, or_and_right,
      Nameless.freeNamesCases_eq_flatMap, namelessCases_eq_map, freeCases_eq_flatMap,
      List.flatMap_map, List.mem_flatMap, List.mem_filter]
    refine or_congr_right ?_
    constructor
    · rintro ⟨c, hc, hy⟩
      rw [ihc c hc, List.mem_append, not_or, List.mem_reverse] at hy
      exact ⟨⟨c, hc, hy.1, by simpa using hy.2.1⟩, hy.2.2⟩
    · rintro ⟨⟨c, hc, hy, hp⟩, hs⟩
      refine ⟨c, hc, (ihc c hc).2 ⟨hy, ?_⟩⟩
      rw [List.mem_append, not_or, List.mem_reverse]
      exact ⟨by simpa using hp, hs⟩

end Term

end CoreCalculus
