/-
  CoreCalculus/Proofs/PatternInstances.lean
  =========================================
  **Matching undoes instantiation.**

  A pattern is a term with holes: its variables are the holes, and a constructor pattern is
  the constructor applied to the terms of its sub-patterns, one after another.  Matching goes
  the other way.  It takes the whole spine of a value at once, compares its length, and
  descends into the arguments, which may be applications themselves.

  Both meet in one equation, which holds for all patterns, also when a variable is repeated: a
  value is the instance under `σ` exactly when what is captured, by position, are the values of
  `σ` at the variables (`capture?_eq_some_map_iff`).  When no variable is repeated, any values
  by position come from an assignment, and the bindings by name are that assignment.
-/
import Mathlib.Data.List.Nodup
import CoreCalculus.Proofs.Closed
import CoreCalculus.Proofs.ValueCode

namespace CoreCalculus

/-! ### Bindings by name and values by position -/

namespace Table

variable {κ α : Type} [DecidableEq κ]

/-- When every key is listed once, looking up sees the list. -/
theorem get?_ofList_eq_some_iff {pairs : List (κ × α)} (h : (pairs.map Prod.fst).Nodup) {k : κ}
    {a : α} : (ofList pairs).get? k = some a ↔ (k, a) ∈ pairs := by
  refine ⟨mem_of_get?_ofList, fun hmem => ?_⟩
  obtain ⟨b, hb, hmem'⟩ := exists_get?_insertAll .empty (List.mem_map_of_mem hmem)
  have hpair : (k, a) = (k, b) := List.inj_on_of_nodup_map h hmem hmem' rfl
  rw [(Prod.mk.inj hpair).2]
  exact hb

omit [DecidableEq κ] in
theorem forall_mem_zip_iff {ks : List κ} (hks : ks.Nodup) {as : List α}
    (hlength : ks.length = as.length) {f : κ → α} :
    (∀ k ∈ ks, (k, f k) ∈ ks.zip as) ↔ as = ks.map f := by
  induction ks generalizing as with
  | nil =>
    rw [List.length_nil, eq_comm, List.length_eq_zero_iff] at hlength
    simp [hlength]
  | cons k ks ih =>
    cases as with
    | nil => cases hlength
    | cons a as =>
      rw [List.nodup_cons] at hks
      have htail : ∀ l ∈ ks, (l, f l) ∈ (k, a) :: ks.zip as ↔ (l, f l) ∈ ks.zip as := by
        intro l hl
        refine ⟨fun h => (List.mem_cons.1 h).resolve_left fun heq => ?_, List.mem_cons_of_mem _⟩
        cases heq
        exact hks.1 hl
      have hhead : (k, f k) ∈ (k, a) :: ks.zip as ↔ a = f k := by
        rw [List.mem_cons, Prod.mk.injEq, eq_self, true_and, eq_comm]
        exact or_iff_left fun h => hks.1 (List.of_mem_zip h).1
      rw [List.forall_mem_cons, List.zip_cons_cons, hhead, forall₂_congr htail,
        ih hks.2 (Nat.succ.inj hlength), List.map_cons, List.cons.injEq]

/-- The bindings of different names to values are an assignment exactly when the values are those
    of the assignment. -/
theorem forall_get?_ofList_zip_iff {ks : List κ} (hks : ks.Nodup) {as : List α}
    (hlength : ks.length = as.length) {f : κ → α} :
    (∀ k ∈ ks, (ofList (ks.zip as)).get? k = some (f k)) ↔ as = ks.map f := by
  have hkeys : (ks.zip as).map Prod.fst = ks := List.map_fst_zip (Nat.le_of_eq hlength)
  rw [← forall_mem_zip_iff hks hlength]
  exact forall₂_congr fun k _ => get?_ofList_eq_some_iff (hkeys.symm ▸ hks)

theorem contains_ofList_zip_iff {ks : List κ} {as : List α} (hlength : ks.length = as.length)
    {k : κ} : (ofList (ks.zip as)).contains k = true ↔ k ∈ ks := by
  rw [contains, Option.isSome_iff_ne_none, ne_eq, get?_ofList_zip_eq_none_iff hlength,
    Classical.not_not]

end Table

/-! ### Instances -/

namespace Pattern

mutual

/-- The pattern as a term, with a term in the place of each variable. -/
def instantiate (σ : String → Term) : Pattern → Term
  | .var x => σ x
  | .lit l => .lit l
  | .ctor name subs => (Term.ctor name).apply (instantiateAll σ subs)

def instantiateAll (σ : String → Term) : List Pattern → List Term
  | [] => []
  | p :: ps => p.instantiate σ :: instantiateAll σ ps

end

theorem length_instantiateAll (σ : String → Term) (ps : List Pattern) :
    (instantiateAll σ ps).length = ps.length := by
  induction ps with
  | nil => rfl
  | cons p ps ih => rw [instantiateAll, List.length_cons, List.length_cons, ih]

theorem captureAll?_eq_some_map_iff {σ : String → Term} {ps : List Pattern}
    (ih : ∀ p ∈ ps, ∀ v, p.capture? v = some (p.vars.map σ) ↔ v = p.instantiate σ)
    {vs : List Term} (hlength : vs.length = ps.length) :
    captureAll? ps vs = some ((varsAll ps).map σ) ↔ vs = instantiateAll σ ps := by
  induction ps generalizing vs with
  | nil =>
    rw [List.length_nil, List.length_eq_zero_iff] at hlength
    subst hlength
    exact iff_of_true rfl rfl
  | cons p ps ihs =>
    cases vs with
    | nil => cases hlength
    | cons v vs =>
      rw [List.forall_mem_cons] at ih
      rw [captureAll?_cons_eq_some_iff, varsAll, List.map_append, instantiateAll, List.cons.injEq,
        ← ih.1 v, ← ihs ih.2 (Nat.succ.inj hlength)]
      constructor
      · rintro ⟨first, rest, hfirst, hrest, heq⟩
        -- as many values are captured as there are variables
        have hfirst_length : (p.vars.map σ).length = first.length := by
          rw [List.length_map, length_of_capture? hfirst]
        obtain ⟨rfl, rfl⟩ := List.append_inj heq hfirst_length
        exact ⟨hfirst, hrest⟩
      · rintro ⟨hfirst, hrest⟩
        exact ⟨_, _, hfirst, hrest, rfl⟩

/-- A value is an instance exactly when the pattern captures from it what stands for its
    variables. -/
theorem capture?_eq_some_map_iff (σ : String → Term) (p : Pattern) (v : Term) :
    p.capture? v = some (p.vars.map σ) ↔ v = p.instantiate σ := by
  induction p using induct generalizing v with
  | var x => simp [capture?, vars, instantiate]
  | lit l =>
    rw [capture?, instantiate, vars, List.map_nil]
    constructor
    · intro h
      split at h
      · rename_i hl
        exact Term.eq_lit_of_literal? hl
      · cases h
    · rintro rfl
      exact if_pos rfl
  | ctor name subs ih =>
    rw [capture?, instantiate, vars]
    constructor
    · intro h
      split at h
      · rename_i hspine
        have hargs := (captureAll?_eq_some_map_iff ih hspine.2).1 h
        rw [← v.apply_spine, hspine.1, hargs]
      · cases h
    · rintro rfl
      rw [(Term.IsConstant.ctor name).spine_apply,
        if_pos ⟨rfl, length_instantiateAll σ subs⟩]
      exact (captureAll?_eq_some_map_iff ih (length_instantiateAll σ subs)).2 rfl

/-- The bindings of a match bind the variables of the pattern, and the assignments that they are
    part of are those that make the pattern the value. -/
theorem bindings_of_match? {p : Pattern} (hp : p.vars.Nodup) {v : Term} {b : Table String Term}
    (h : p.match? v = some b) : (∀ x, b.contains x = true ↔ x ∈ p.vars) ∧
      ∀ σ : String → Term, v = p.instantiate σ ↔ ∀ x ∈ p.vars, b.get? x = some (σ x) := by
  rw [match?_eq, Option.map_eq_some_iff] at h
  obtain ⟨vs, hvs, rfl⟩ := h
  have hlength := (length_of_capture? hvs).symm
  refine ⟨fun x => Table.contains_ofList_zip_iff hlength, fun σ => ?_⟩
  rw [← capture?_eq_some_map_iff, hvs, Option.some.injEq,
    Table.forall_get?_ofList_zip_iff hp hlength]

theorem exists_match?_instantiate (p : Pattern) (σ : String → Term) :
    ∃ b, p.match? (p.instantiate σ) = some b := by
  rw [match?_eq, (capture?_eq_some_map_iff σ p _).2 rfl]
  exact ⟨_, rfl⟩

/-- **Matching is the inverse of instantiation**, for patterns without repeated variables.  A
    pattern takes exactly its instances; the bindings then bind exactly its variables, and they are
    the one assignment to these variables of which the value is the instance.  Conversely, every
    instance is taken and gives its assignment back. -/
theorem match?_instance {p : Pattern} (hp : p.vars.Nodup) :
    (∀ v, (∃ b, p.match? v = some b) ↔ ∃ σ, v = p.instantiate σ) ∧
      (∀ v b, p.match? v = some b → (∀ x, b.contains x = true ↔ x ∈ p.vars) ∧
        ∀ σ : String → Term, v = p.instantiate σ ↔ ∀ x ∈ p.vars, b.get? x = some (σ x)) ∧
      ∀ σ : String → Term, ∃ b, p.match? (p.instantiate σ) = some b ∧
        (∀ x, b.contains x = true ↔ x ∈ p.vars) ∧ ∀ x ∈ p.vars, b.get? x = some (σ x) := by
  refine ⟨fun v => ⟨?_, ?_⟩, fun v b h => bindings_of_match? hp h, fun σ => ?_⟩
  · rintro ⟨b, h⟩
    obtain ⟨hkeys, hinstance⟩ := bindings_of_match? hp h
    refine ⟨fun x => (b.get? x).getD default, (hinstance _).2 fun x hx => ?_⟩
    obtain ⟨w, hw⟩ := Option.isSome_iff_exists.1 ((hkeys x).2 hx)
    rw [hw, Option.getD_some]
  · rintro ⟨σ, rfl⟩
    exact p.exists_match?_instantiate σ
  · obtain ⟨b, h⟩ := p.exists_match?_instantiate σ
    obtain ⟨hkeys, hinstance⟩ := bindings_of_match? hp h
    exact ⟨b, h, hkeys, (hinstance σ).1 rfl⟩

/-- The first variable is bound to an application, which is not part of the spine that the
    pattern is compared with. -/
theorem match?_instance_list :
    let p : Pattern := .ctor "Cons" [.var "x", .ctor "Cons" [.lit (.int 2), .var "xs"]]
    let one : Term := .app (.ctor "Some") (.lit (.int 1))
    let rest : Term := .ctor "Nil"
    p.vars.Nodup ∧
      ∃ b, p.match? (.app (.app (.ctor "Cons") one)
          (.app (.app (.ctor "Cons") (.lit (.int 2))) rest)) = some b ∧
        b.get? "x" = some one ∧ b.get? "xs" = some rest := by
  intro p one rest
  have hp : p.vars.Nodup := by decide
  obtain ⟨b, hb, -, hvalues⟩ :=
    (match?_instance hp).2.2 fun x => if x = "x" then one else rest
  exact ⟨hp, b, hb, hvalues "x" (by decide), hvalues "xs" (by decide)⟩

end Pattern

end CoreCalculus
