/-
  CoreCalculus/Code/Shape.lean
  ============================
  **Shapes**: patterns whose variables have lost their names.  What a shape binds
  is handed on by position, left to right.
-/
import CoreCalculus.Pattern

namespace CoreCalculus

inductive Shape where
  | bind
  | lit (literal : Literal)
  | ctor (name : String) (subs : List Shape)
deriving Inhabited

namespace Shape

/-- Induction with a hypothesis for every sub-shape. -/
@[elab_as_elim]
theorem induct {motive : Shape → Prop}
    (bind : motive .bind)
    (lit : ∀ literal, motive (.lit literal))
    (ctor : ∀ name subs, (∀ s ∈ subs, motive s) → motive (.ctor name subs))
    (s : Shape) : motive s :=
  Shape.rec (motive_1 := motive) (motive_2 := fun ss => ∀ s ∈ ss, motive s)
    bind lit ctor (by simp) (fun _ _ h hs => List.forall_mem_cons.2 ⟨h, hs⟩) s

/-! ### Deciding equality -/

mutual

/-- Structural comparison. -/
def same : Shape → Shape → Bool
  | .bind, .bind => true
  | .lit a, .lit b => a == b
  | .ctor c ss, .ctor d ts => c == d && sameAll ss ts
  | _, _ => false

def sameAll : List Shape → List Shape → Bool
  | [], [] => true
  | s :: ss, t :: ts => s.same t && sameAll ss ts
  | _, _ => false

end

theorem sameAll_iff {ss ts : List Shape}
    (h : ∀ s ∈ ss, ∀ t, s.same t = true ↔ s = t) : sameAll ss ts = true ↔ ss = ts := by
  induction ss generalizing ts with
  | nil => cases ts <;> simp [sameAll]
  | cons s ss ih =>
    cases ts with
    | nil => simp [sameAll]
    | cons t ts =>
      rw [List.forall_mem_cons] at h
      simp [sameAll, h.1 t, ih h.2]

theorem same_iff (s t : Shape) : s.same t = true ↔ s = t := by
  induction s using induct generalizing t with
  | bind => cases t <;> simp [same]
  | lit a => cases t <;> simp [same]
  | ctor c ss ih =>
    cases t with
    | ctor d ts => simp [same, sameAll_iff ih]
    | _ => simp [same]

instance : DecidableEq Shape := fun s t => decidable_of_iff _ (same_iff s t)

/-! ### Shapes of patterns -/

mutual

/-- A pattern without the names of its variables. -/
def ofPattern : Pattern → Shape
  | .var _ => .bind
  | .lit l => .lit l
  | .ctor name subs => .ctor name (ofPatterns subs)

def ofPatterns : List Pattern → List Shape
  | [] => []
  | p :: ps => ofPattern p :: ofPatterns ps

end

mutual

/-- How many sub-terms a shape binds. -/
def binds : Shape → Nat
  | .bind => 1
  | .lit _ => 0
  | .ctor _ subs => bindsAll subs

def bindsAll : List Shape → Nat
  | [] => 0
  | s :: ss => s.binds + bindsAll ss

end

theorem ofPatterns_eq_map (ps : List Pattern) : ofPatterns ps = ps.map ofPattern := by
  induction ps with
  | nil => rfl
  | cons p ps ih => simp [ofPatterns, ih]

/-- A shape binds as many sub-terms as its pattern has variables. -/
theorem binds_ofPattern (p : Pattern) : (ofPattern p).binds = p.vars.length := by
  induction p using Pattern.induct with
  | var name => rfl
  | lit l => rfl
  | ctor name subs ih =>
    simp only [ofPattern, binds, Pattern.vars]
    induction subs with
    | nil => rfl
    | cons p ps ihs =>
      rw [List.forall_mem_cons] at ih
      simp [ofPatterns, bindsAll, Pattern.varsAll, ih.1, ihs ih.2]

end Shape

/-- Patterns of one shape have as many variables. -/
theorem Pattern.length_vars_eq {p q : Pattern} (h : Shape.ofPattern p = Shape.ofPattern q) :
    p.vars.length = q.vars.length := by
  rw [← Shape.binds_ofPattern, ← Shape.binds_ofPattern, h]

end CoreCalculus
