/-
  CoreCalculus/Proofs/Flattening.lean
  ===================================
  **Flat types**: a name applied to arguments one by one is the data type of that name with
  all of them as parameters, and one without parameters is a constant.

  The printer does not tell these apart, and flattening changes nothing else: not the
  variables, and so not their places in the normal form.
-/
import CoreCalculus.Proofs.TypeNormalization

namespace CoreCalculus

namespace Ty

/-- Apply a type to one more argument, which is the last parameter when the type has a name. -/
def withArg (t a : Ty) : Ty :=
  match t with
  | .const name => .adt name [a]
  | .adt name params => .adt name (params ++ [a])
  | t => .app t a

mutual

/-- Gather the arguments of each name. -/
def flatten : Ty → Ty
  | .var v => .var v
  | .const name => .const name
  | .func a b => .func a.flatten b.flatten
  | .prod a b => .prod a.flatten b.flatten
  | .app a b => a.flatten.withArg b.flatten
  | .adt name [] => .const name
  | .adt name (t :: ts) => .adt name (t.flatten :: flattenAll ts)

def flattenAll : List Ty → List Ty
  | [] => []
  | t :: ts => t.flatten :: flattenAll ts

end

theorem flattenAll_eq_map (ts : List Ty) : flattenAll ts = ts.map flatten := by
  induction ts with
  | nil => rfl
  | cons t ts ih => rw [flattenAll, ih, List.map_cons]

theorem foldl_withArg_adt (name : String) (params ts : List Ty) :
    ts.foldl withArg (.adt name params) = .adt name (params ++ ts) := by
  induction ts generalizing params with
  | nil => rw [List.foldl_nil, List.append_nil]
  | cons t ts ih => rw [List.foldl_cons, withArg, ih, List.append_assoc, List.singleton_append]

/-- A data type is its name applied to the parameters. -/
theorem flatten_adt (name : String) (ts : List Ty) :
    (Ty.adt name ts).flatten = (ts.map flatten).foldl withArg (.const name) := by
  cases ts with
  | nil => rfl
  | cons t ts =>
    rw [flatten, flattenAll_eq_map, List.map_cons, List.foldl_cons, withArg, foldl_withArg_adt,
      List.singleton_append]

/-! ### Variables -/

theorem withArg_subst_var (f : TypeVar → TypeVar) (t a : Ty) :
    (t.withArg a).subst (fun v => .var (f v)) =
      (t.subst fun v => .var (f v)).withArg (a.subst fun v => .var (f v)) := by
  cases t <;> simp [withArg, subst, substAll_eq_map]

theorem flatten_subst_var (f : TypeVar → TypeVar) (t : Ty) :
    (t.subst fun v => .var (f v)).flatten = t.flatten.subst fun v => .var (f v) := by
  induction t using induct with
  | var v => rfl
  | const name => rfl
  | func a b iha ihb | prod a b iha ihb => simp only [subst, flatten, iha, ihb]
  | app a b iha ihb => simp only [subst, flatten, iha, ihb, withArg_subst_var]
  | adt name ts ih =>
    cases ts with
    | nil => rfl
    | cons t ts =>
      rw [List.forall_mem_cons] at ih
      simp only [subst, substAll_eq_map, flatten, flattenAll_eq_map, List.map_map, List.map_cons,
        ih.1]
      exact congrArg _ (congrArg _ (List.map_congr_left ih.2))

theorem vars_withArg (t a : Ty) : (t.withArg a).vars = t.vars ++ a.vars := by
  cases t <;> simp [withArg, vars, varsAll_eq_flatMap]

theorem vars_flatten (t : Ty) : t.flatten.vars = t.vars := by
  induction t using induct with
  | var v => rfl
  | const name => rfl
  | func a b iha ihb | prod a b iha ihb => simp only [vars, flatten, iha, ihb]
  | app a b iha ihb => rw [flatten, vars_withArg, iha, ihb, vars]
  | adt name ts ih =>
    cases ts with
    | nil => rfl
    | cons t ts =>
      rw [List.forall_mem_cons] at ih
      simp only [flatten, flattenAll_eq_map, vars, varsAll, varsAll_eq_flatMap, List.flatMap_map,
        ih.1]
      exact congrArg _ (List.flatMap_congr ih.2)

theorem erase_flatten (t : Ty) : t.flatten.erase = t.erase.flatten :=
  (flatten_subst_var _ t).symm

theorem rename_flatten (ρ : Nat → Nat) (t : Ty) : t.flatten.rename ρ = (t.rename ρ).flatten :=
  (flatten_subst_var _ t).symm

theorem place_flatten (t : Ty) (i : Nat) : t.flatten.place i = t.place i := by
  rw [place, order, distinctVars, vars_flatten, place, order, distinctVars]

theorem normalize_flatten (t : Ty) : t.flatten.normalize = t.normalize.flatten := by
  rw [normalize_eq, normalize_eq, assign, assign, flatten_subst_var]
  simp only [place_flatten]

/-! ### Text -/

theorem renderArgs_concat (ts : List Ty) (a : Ty) :
    renderArgs (ts ++ [a]) = renderArgs ts ++ (" " ++ a.renderAt 2) := by
  induction ts with
  | nil => simp only [List.nil_append, renderArgs, String.append_empty, String.empty_append]
  | cons t ts ih => rw [List.cons_append, renderArgs, ih, renderArgs, ← String.append_assoc]

/-- The printer has one text for an application, flat or not. -/
theorem renderAt_withArg (level : Nat) (t a : Ty) :
    (t.withArg a).renderAt level =
      parenthesize (1 < level) (t.renderAt 1 ++ " " ++ a.renderAt 2) := by
  cases t with
  | const name => simp only [withArg, renderAt, renderArgs, String.append_empty]
  | adt name ts =>
    cases ts with
    | nil => simp only [withArg, List.nil_append, renderAt, renderArgs, String.append_empty]
    | cons t ts =>
      have htarget : (Ty.adt name (t :: ts)).renderAt 1 =
          name ++ " " ++ t.renderAt 2 ++ renderArgs ts := rfl
      rw [withArg, List.cons_append, renderAt, renderArgs_concat, htarget]
      simp only [String.append_assoc]
  | _ => rfl

theorem renderAt_flatten (level : Nat) (t : Ty) : t.flatten.renderAt level = t.renderAt level := by
  induction t using induct generalizing level with
  | var v => rfl
  | const name => rfl
  | func a b iha ihb | prod a b iha ihb => simp only [flatten, renderAt, iha, ihb]
  | app a b iha ihb => rw [flatten, renderAt_withArg, iha, ihb, renderAt]
  | adt name ts ih =>
    cases ts with
    | nil => rfl
    | cons t ts =>
      rw [List.forall_mem_cons] at ih
      have hargs : renderArgs (ts.map flatten) = renderArgs ts := by
        replace ih := ih.2
        induction ts with
        | nil => rfl
        | cons t ts ihs =>
          rw [List.forall_mem_cons] at ih
          rw [List.map_cons, renderArgs, renderArgs, ih.1, ihs ih.2]
      rw [flatten, flattenAll_eq_map, renderAt, renderAt, ih.1, hargs]

end Ty

end CoreCalculus
