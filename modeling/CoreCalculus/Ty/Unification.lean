/-
  CoreCalculus/Ty/Unification.lean
  ================================
  **Unification** of types in a session.

  Both types are resolved first.  Equal types need nothing; a variable is bound to
  the other side, unless it occurs in it; arrows, products, applications and
  instances of one data type are unified part by part, from left to right, and
  each part is resolved again, so that it sees the bindings made before it.

  After a success the solution is closed; after a failure it is what it was.
-/
import CoreCalculus.Run
import CoreCalculus.Ty.Printer
import CoreCalculus.Ty.Solution

namespace CoreCalculus

/-- Why two types do not unify. -/
inductive UnifyError where
  | mismatch (expected found : Ty)
  | occurs (v : TypeVar) (ty : Ty)
deriving DecidableEq

def UnifyError.message : UnifyError → String
  | .mismatch expected found =>
    "type mismatch: expected " ++ expected.render ++ ", found " ++ found.render
  | .occurs v ty =>
    "occurs check: cannot construct infinite type " ++ v.render ++ " = " ++ ty.render

/-- The solution is the state of a unification. -/
abbrev Unification (α : Type) := Run Solution UnifyError α

namespace Ty

/-- Bind a variable to a resolved type. -/
def bindVar (v : TypeVar) (t : Ty) : Unification Unit :=
  if v.id ∈ t.ids then Run.fail (.occurs v t) else Run.update fun s => ((), s.insert v.id t)

/-- Unify two lists of types member by member. -/
def unifyAll (unifyOne : Ty → Ty → Unification Unit) : List Ty → List Ty → Unification Unit
  | t :: ts, u :: us => do
    unifyOne t u
    unifyAll unifyOne ts us
  | _, _ => pure ()

/-- Make two types equal by binding variables. -/
def unifyTypes : Nat → Ty → Ty → Unification Unit
  | 0, _, _ => Run.outOfFuel
  | fuel + 1, t, u => do
    let t ← Run.read? fun s => Solution.resolve s fuel t
    let u ← Run.read? fun s => Solution.resolve s fuel u
    if t.alike u then pure ()
    else
      match t, u with
      | .var v, u => bindVar v u
      | t, .var v => bindVar v t
      | .func a b, .func c d => do
        unifyTypes fuel a c
        unifyTypes fuel b d
      | .prod a b, .prod c d => do
        unifyTypes fuel a c
        unifyTypes fuel b d
      | .app a b, .app c d => do
        unifyTypes fuel a c
        unifyTypes fuel b d
      | .adt m ts, .adt n us =>
        if m = n ∧ ts.length = us.length then unifyAll (unifyTypes fuel) ts us
        else Run.fail (.mismatch t u)
      | t, u => Run.fail (.mismatch t u)

/-- Unify two types in a session.  The answer is the new solution. -/
def unify (fuel : Nat) (t u : Ty) : Unification Solution := fun s =>
  match unifyTypes fuel t u s with
  | none => none
  | some (.ok (), s') => (Solution.close s' fuel).map fun closed => (.ok closed, closed)
  | some (.error e, _) => some (.error e, s)

/-- A failed unification leaves the solution as it was. -/
theorem state_of_unify_eq_error {fuel : Nat} {t u : Ty} {s s' : Solution} {e : UnifyError}
    (h : unify fuel t u s = some (.error e, s')) : s' = s := by
  unfold unify at h
  split at h
  · simp at h
  · simp at h
  · simp_all

end Ty

end CoreCalculus
