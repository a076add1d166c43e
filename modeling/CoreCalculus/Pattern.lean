/-
  CoreCalculus/Pattern.lean
  =========================
  **Patterns** of the cases of a match: a variable takes any value, a literal
  takes itself, and a constructor pattern takes that constructor applied to as
  many arguments as it has sub-patterns, each argument by its own sub-pattern.

  Sub-patterns are kept in a list, so the induction principle `Pattern.induct`
  is stated here once, with the hypothesis for every member of that list.
-/
import CoreCalculus.Literal

namespace CoreCalculus

inductive Pattern where
  | var (name : String)
  | lit (literal : Literal)
  | ctor (name : String) (subs : List Pattern)
deriving Inhabited

namespace Pattern

/-- Induction with a hypothesis for every sub-pattern. -/
@[elab_as_elim]
theorem induct {motive : Pattern → Prop}
    (var : ∀ name, motive (.var name))
    (lit : ∀ literal, motive (.lit literal))
    (ctor : ∀ name subs, (∀ p ∈ subs, motive p) → motive (.ctor name subs))
    (p : Pattern) : motive p :=
  Pattern.rec (motive_1 := motive) (motive_2 := fun ps => ∀ p ∈ ps, motive p)
    var lit ctor (by simp) (fun _ _ h hs => List.forall_mem_cons.2 ⟨h, hs⟩) p

/-! ### Deciding equality -/

mutual

/-- Structural comparison. -/
def same : Pattern → Pattern → Bool
  | .var x, .var y => x == y
  | .lit a, .lit b => a == b
  | .ctor c ps, .ctor d qs => c == d && sameAll ps qs
  | _, _ => false

def sameAll : List Pattern → List Pattern → Bool
  | [], [] => true
  | p :: ps, q :: qs => p.same q && sameAll ps qs
  | _, _ => false

end

theorem sameAll_iff {ps qs : List Pattern}
    (h : ∀ p ∈ ps, ∀ q, p.same q = true ↔ p = q) : sameAll ps qs = true ↔ ps = qs := by
  induction ps generalizing qs with
  | nil => cases qs <;> simp [sameAll]
  | cons p ps ih =>
    cases qs with
    | nil => simp [sameAll]
    | cons q qs =>
      rw [List.forall_mem_cons] at h
      simp [sameAll, h.1 q, ih h.2]

theorem same_iff (p q : Pattern) : p.same q = true ↔ p = q := by
  induction p using induct generalizing q with
  | var x => cases q <;> simp [same]
  | lit a => cases q <;> simp [same]
  | ctor c ps ih =>
    cases q with
    | ctor d qs => simp [same, sameAll_iff ih]
    | _ => simp [same]

instance : DecidableEq Pattern := fun p q => decidable_of_iff _ (same_iff p q)

/-! ### Variables -/

mutual

/-- The variables a pattern binds, left to right, with repetitions. -/
def vars : Pattern → List String
  | .var name => [name]
  | .lit _ => []
  | .ctor _ subs => varsAll subs

def varsAll : List Pattern → List String
  | [] => []
  | p :: ps => p.vars ++ varsAll ps

end

theorem varsAll_eq_flatMap (ps : List Pattern) : varsAll ps = ps.flatMap vars := by
  induction ps with
  | nil => rfl
  | cons p ps ih => simp [varsAll, ih]

/-- A bare variable takes every value. -/
def isCatchAll : Pattern → Bool
  | .var _ => true
  | _ => false

mutual

/-- Every occurrence of the variable `x` becomes `z`. -/
def rename (x z : String) : Pattern → Pattern
  | .var name => .var (if name = x then z else name)
  | .lit literal => .lit literal
  | .ctor name subs => .ctor name (renameAll x z subs)

def renameAll (x z : String) : List Pattern → List Pattern
  | [] => []
  | p :: ps => p.rename x z :: renameAll x z ps

end

theorem renameAll_eq_map (x z : String) (ps : List Pattern) :
    renameAll x z ps = ps.map (rename x z) := by
  induction ps with
  | nil => rfl
  | cons p ps ih => simp [renameAll, ih]

theorem vars_rename (x z : String) (p : Pattern) :
    (p.rename x z).vars = p.vars.map fun y => if y = x then z else y := by
  induction p using induct with
  | var name => simp [rename, vars]
  | lit literal => simp [rename, vars]
  | ctor name subs ih =>
    rw [rename, vars, vars, renameAll_eq_map, varsAll_eq_flatMap, varsAll_eq_flatMap,
      List.flatMap_map, List.map_flatMap, List.flatMap_def, List.flatMap_def,
      List.map_congr_left ih]

end Pattern

end CoreCalculus
