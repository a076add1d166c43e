/-
  CoreCalculus/Ty.lean
  ====================
  **Types and schemes.**

  A type variable is its id; it may carry a hint, the name it is printed with.
  Types are compared up to hints: `t.erase` drops them, and `t.alike u` compares
  what is left.  Hints still travel with the types they were declared in, since
  they are printed.

  Everything about the variables of a type goes through `vars`, its variables in
  order of occurrence, and `subst`, their simultaneous replacement.
-/
import CoreCalculus.Literal
import CoreCalculus.Table

namespace CoreCalculus

/-! ### Largest numbers -/

theorem max?_append (xs ys : List Nat) : (xs ++ ys).max? = max xs.max? ys.max? := by
  induction xs with
  | nil => exact Option.max_none_left.symm
  | cons x xs ih =>
    rw [List.cons_append, List.max?_cons, List.max?_cons, ih]
    cases xs.max? <;> cases ys.max? <;> simp [Nat.max_assoc]

theorem foldl_max_some (m : Option Nat) (xs : List Nat) :
    xs.foldl (fun m i => max m (some i)) m = max m xs.max? := by
  induction xs generalizing m with
  | nil => exact Option.max_none_right.symm
  | cons x xs ih =>
    rw [List.foldl_cons, ih, List.max?_cons]
    cases m <;> cases xs.max? <;> simp [Nat.max_assoc]

/-- Parts without a number do not count. -/
theorem max?_filterMap {α : Type} {f : α → Option Nat} {g : α → List Nat}
    (h : ∀ a, f a = (g a).max?) (l : List α) : (l.filterMap f).max? = (l.flatMap g).max? := by
  induction l with
  | nil => rfl
  | cons a l ih =>
    rw [List.flatMap_cons, max?_append, ← ih, ← h]
    rcases hf : f a with _ | n
    · rw [List.filterMap_cons_none hf, Option.max_none_left]
    · rw [List.filterMap_cons_some hf, List.max?_cons]
      cases (l.filterMap f).max? <;> rfl

theorem max?_flatMap_congr {α : Type} {f g : α → List Nat} (h : ∀ a, (f a).max? = (g a).max?)
    (l : List α) : (l.flatMap f).max? = (l.flatMap g).max? :=
  (max?_filterMap (fun _ => rfl) l).symm.trans (max?_filterMap h l)

/-! ### Type variables and types -/

/-- A type variable, with the name it is printed with, if it has one.  Any number may be an id; a
    program whose ids are machine words has those below `2 ^ 64`. -/
structure TypeVar where
  id : Nat
  hint : Option String
deriving DecidableEq, Inhabited

/-- Types.  `app` applies an abstract type to an argument, `adt` is an instance of a
    declared data type. -/
inductive Ty where
  | var (v : TypeVar)
  | const (name : String)
  | func (arg result : Ty)
  | prod (left right : Ty)
  | app (target arg : Ty)
  | adt (name : String) (params : List Ty)
deriving Inhabited

namespace Ty

/-- Induction with a hypothesis for every parameter of a data type. -/
@[elab_as_elim]
theorem induct {motive : Ty → Prop}
    (var : ∀ v, motive (.var v))
    (const : ∀ name, motive (.const name))
    (func : ∀ arg result, motive arg → motive result → motive (.func arg result))
    (prod : ∀ left right, motive left → motive right → motive (.prod left right))
    (app : ∀ target arg, motive target → motive arg → motive (.app target arg))
    (adt : ∀ name params, (∀ p ∈ params, motive p) → motive (.adt name params))
    (t : Ty) : motive t :=
  Ty.rec (motive_1 := motive) (motive_2 := fun ts => ∀ t ∈ ts, motive t)
    var const func prod app adt (by simp) (fun _ _ h hs => List.forall_mem_cons.2 ⟨h, hs⟩) t

/-! ### Deciding equality -/

mutual

/-- Structural comparison, hints included. -/
def same : Ty → Ty → Bool
  | .var v, .var w => v == w
  | .const a, .const b => a == b
  | .func a b, .func c d => a.same c && b.same d
  | .prod a b, .prod c d => a.same c && b.same d
  | .app a b, .app c d => a.same c && b.same d
  | .adt m ts, .adt n us => m == n && sameAll ts us
  | _, _ => false

def sameAll : List Ty → List Ty → Bool
  | [], [] => true
  | t :: ts, u :: us => t.same u && sameAll ts us
  | _, _ => false

end

theorem sameAll_iff {ts us : List Ty}
    (h : ∀ t ∈ ts, ∀ u, t.same u = true ↔ t = u) : sameAll ts us = true ↔ ts = us := by
  induction ts generalizing us with
  | nil => cases us <;> simp [sameAll]
  | cons t ts ih =>
    cases us with
    | nil => simp [sameAll]
    | cons u us =>
      rw [List.forall_mem_cons] at h
      simp [sameAll, h.1 u, ih h.2]

theorem same_iff (t u : Ty) : t.same u = true ↔ t = u := by
  induction t using induct generalizing u with
  | adt m ts ih =>
    cases u with
    | adt n us => simp [same, sameAll_iff ih]
    | _ => simp [same]
  | _ => cases u <;> simp [same, *]

instance : DecidableEq Ty := fun t u => decidable_of_iff _ (same_iff t u)

/-! ### Making types -/

def int : Ty := .const "Int"

def bool : Ty := .const "Bool"

def ofLiteral : Literal → Ty
  | .int _ => int
  | .bool _ => bool

/-- The function type from the arguments, one after another, to the result. -/
def curried (args : List Ty) (result : Ty) : Ty := args.foldr .func result

/-- The name of the outermost type constructor, if there is one. -/
def headName? : Ty → Option String
  | .const name => some name
  | .adt name _ => some name
  | .app target _ => target.headName?
  | _ => none

/-! ### Variables -/

mutual

/-- The variables of a type in order of occurrence, with repetitions. -/
def vars : Ty → List TypeVar
  | .var v => [v]
  | .const _ => []
  | .func a b => a.vars ++ b.vars
  | .prod a b => a.vars ++ b.vars
  | .app a b => a.vars ++ b.vars
  | .adt _ ts => varsAll ts

def varsAll : List Ty → List TypeVar
  | [] => []
  | t :: ts => t.vars ++ varsAll ts

end

mutual

/-- Replace every variable by a type, all at once. -/
def subst (f : TypeVar → Ty) : Ty → Ty
  | .var v => f v
  | .const name => .const name
  | .func a b => .func (a.subst f) (b.subst f)
  | .prod a b => .prod (a.subst f) (b.subst f)
  | .app a b => .app (a.subst f) (b.subst f)
  | .adt name ts => .adt name (substAll f ts)

def substAll (f : TypeVar → Ty) : List Ty → List Ty
  | [] => []
  | t :: ts => t.subst f :: substAll f ts

end

theorem varsAll_eq_flatMap (ts : List Ty) : varsAll ts = ts.flatMap vars := by
  induction ts with
  | nil => rfl
  | cons t ts ih => simp [varsAll, ih]

theorem substAll_eq_map (f : TypeVar → Ty) (ts : List Ty) : substAll f ts = ts.map (subst f) := by
  induction ts with
  | nil => rfl
  | cons t ts ih => simp [substAll, ih]

/-- Only the variables that occur matter. -/
theorem subst_congr {f g : TypeVar → Ty} {t : Ty} (h : ∀ v ∈ t.vars, f v = g v) :
    t.subst f = t.subst g := by
  induction t using induct with
  | adt name ts ih =>
    rw [vars, varsAll_eq_flatMap] at h
    rw [subst, subst, substAll_eq_map, substAll_eq_map]
    exact congrArg _ (List.map_congr_left fun t ht =>
      ih t ht fun v hv => h v (List.mem_flatMap.2 ⟨t, ht, hv⟩))
  | var v => exact h v (by simp [vars])
  | const name => rfl
  | _ => simp_all [vars, subst]

theorem subst_subst (f g : TypeVar → Ty) (t : Ty) :
    (t.subst f).subst g = t.subst fun v => (f v).subst g := by
  induction t using induct with
  | adt name ts ih =>
    simp only [subst, substAll_eq_map, List.map_map]
    exact congrArg _ (List.map_congr_left ih)
  | _ => simp_all [subst]

theorem subst_var (t : Ty) : t.subst .var = t := by
  induction t using induct with
  | adt name ts ih =>
    rw [subst, substAll_eq_map, List.map_congr_left ih, List.map_id']
  | _ => simp_all [subst]

/-- The ids of the variables of a type, with repetitions. -/
def ids (t : Ty) : List Nat := t.vars.map TypeVar.id

/-- The largest id in a type, if it has variables. -/
def maxId? (t : Ty) : Option Nat := t.vars.foldl (fun m v => max m (some v.id)) none

theorem maxId?_eq (t : Ty) : t.maxId? = t.ids.max? := by
  have h := foldl_max_some none t.ids
  rwa [ids, List.foldl_map, Option.max_none_left] at h

/-- Replace the variables that a table binds. -/
def replace (bindings : Table Nat Ty) (t : Ty) : Ty :=
  t.subst fun v => (bindings.get? v.id).getD (.var v)

/-- Keep the first variable of each id. -/
def firstOfEachId : List TypeVar → List TypeVar
  | [] => []
  | v :: vs => v :: (firstOfEachId vs).filter (·.id ≠ v.id)

/-- The variables of a type, each once, ordered by their first occurrence. -/
def distinctVars (t : Ty) : List TypeVar := firstOfEachId t.vars

/-- The variables of a type, each once, in ascending order of their ids. -/
def sortedVars (t : Ty) : List TypeVar := t.distinctVars.mergeSort fun v w => v.id ≤ w.id

/-! ### Hints -/

/-- Drop all hints. -/
def erase (t : Ty) : Ty := t.subst fun v => .var ⟨v.id, none⟩

/-- Equality up to hints. -/
def alike (t u : Ty) : Bool := t.erase = u.erase

/-- The hint of the variable at position `index`: `a` to `z`, then `a1` to `z1`,
    and so on. -/
def letterName (index : Nat) : String :=
  let letter := String.singleton (Char.ofNat ('a'.toNat + index % 26))
  if index < 26 then letter else letter ++ Nat.repr (index / 26)

/-- Renumber the variables from `0` in order of their first occurrence, and name them
    by letters. -/
def normalize (t : Ty) : Ty :=
  t.subst fun v =>
    let index := t.distinctVars.findIdx (·.id = v.id)
    .var ⟨index, some (letterName index)⟩

end Ty

/-! ### Schemes -/

/-- A type with quantified variables. -/
structure Scheme where
  vars : List TypeVar
  ty : Ty
deriving DecidableEq, Inhabited

namespace Scheme

/-- Nothing is quantified. -/
def mono (ty : Ty) : Scheme := ⟨[], ty⟩

/-- All ids that a scheme mentions, quantified ones included. -/
def ids (s : Scheme) : List Nat := s.vars.map TypeVar.id ++ s.ty.ids

def erase (s : Scheme) : Scheme := ⟨s.vars.map fun v => ⟨v.id, none⟩, s.ty.erase⟩

/-- Equality up to hints. -/
def alike (s t : Scheme) : Bool := s.erase = t.erase

end Scheme

end CoreCalculus
