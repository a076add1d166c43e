/-
  CoreCalculus/Ty/Solution.lean
  =============================
  **Bindings of type variables**, as unification collects them.

  A bound value may mention bound variables again.  `resolve` chases them to the
  end; fuel counts the hops, and is never used up unless a variable reaches
  itself.  `close` replaces the bound variables in all bindings at the same time,
  one hop in a round, until a round changes nothing.  After that, for bindings
  without a cycle, no value mentions a bound variable (`isResolved`).
-/
import CoreCalculus.Ty

namespace CoreCalculus

/-- Types for variables, by id. -/
abbrev Solution := Table Nat Ty

mutual

/-- Replace every variable by a type, if all of them get one. -/
def Ty.subst? (f : TypeVar → Option Ty) : Ty → Option Ty
  | .var v => f v
  | .const name => some (.const name)
  | .func a b => do return .func (← a.subst? f) (← b.subst? f)
  | .prod a b => do return .prod (← a.subst? f) (← b.subst? f)
  | .app a b => do return .app (← a.subst? f) (← b.subst? f)
  | .adt name ts => do return .adt name (← Ty.substAll? f ts)

def Ty.substAll? (f : TypeVar → Option Ty) : List Ty → Option (List Ty)
  | [] => some []
  | t :: ts => do return (← t.subst? f) :: (← Ty.substAll? f ts)

end

/-- Replacing all variables succeeds with `t.subst g` when each variable of `t` gets
    what `g` says. -/
theorem Ty.subst?_eq_some {f : TypeVar → Option Ty} {g : TypeVar → Ty} {t : Ty}
    (h : ∀ v ∈ t.vars, f v = some (g v)) : t.subst? f = some (t.subst g) := by
  induction t using Ty.induct with
  | adt name ts ih =>
    rw [Ty.vars, Ty.varsAll_eq_flatMap] at h
    have hall : Ty.substAll? f ts = some (Ty.substAll g ts) := by
      induction ts with
      | nil => rfl
      | cons t ts ihs =>
        rw [List.forall_mem_cons] at ih
        simp only [List.flatMap_cons, List.mem_append] at h
        rw [Ty.substAll?, ih.1 fun v hv => h v (.inl hv), ihs ih.2 fun v hv => h v (.inr hv)]
        rfl
    rw [Ty.subst?, hall]
    rfl
  | var v => exact h v (by simp [Ty.vars])
  | const name => rfl
  | _ => simp_all [Ty.vars, Ty.subst, Ty.subst?]

namespace Solution

/-- Replace bound variables until none is left. -/
def resolve (s : Solution) : Nat → Ty → Option Ty
  | 0, _ => none
  | fuel + 1, t => t.subst? fun v =>
    match s.get? v.id with
    | some bound => s.resolve fuel bound
    | none => some (.var v)

/-- One hop: the bound variables of each value are replaced by their values. -/
def oneHop (s : Solution) : Solution := s.map (Ty.replace s)

/-- Hop until nothing changes. -/
def close (s : Solution) : Nat → Option Solution
  | 0 => none
  | fuel + 1 => if (oneHop s).agrees Ty.alike s then some s else close (oneHop s) fuel

/-- No value mentions a bound variable. -/
def isResolved (s : Solution) : Bool :=
  s.values.all fun t => t.vars.all fun v => !s.contains v.id

end Solution

end CoreCalculus
