/-
  CoreCalculus/Proofs/Assignment.lean
  ===================================
  **Assignments**: a type for every id, carried out on types at once.

  An assignment reads the id of a variable and never its hint, so types that are
  alike go to the same type (`assign_eq_of_alike`).  Dropping hints is itself an
  assignment (`erase_eq_assign`), and what holds of all assignments exactly
  therefore holds of them up to hints.

  The size of a type gives the occurs check its reason: a type that properly
  contains a variable is larger than the variable under every assignment
  (`assign_ne_of_occurs`).
-/
import CoreCalculus.Ty

namespace CoreCalculus

/-- A type for every id. -/
abbrev Assignment := Nat → Ty

namespace Ty

/-- Carry out an assignment. -/
def assign (θ : Assignment) (t : Ty) : Ty := t.subst fun v => θ v.id

section Equations

variable (θ : Assignment)

@[simp] theorem assign_var (v : TypeVar) : (var v).assign θ = θ v.id := rfl

@[simp] theorem assign_const (name : String) : (const name).assign θ = const name := rfl

@[simp] theorem assign_func (a b : Ty) :
    (func a b).assign θ = func (a.assign θ) (b.assign θ) := rfl

@[simp] theorem assign_prod (a b : Ty) :
    (prod a b).assign θ = prod (a.assign θ) (b.assign θ) := rfl

@[simp] theorem assign_app (a b : Ty) :
    (app a b).assign θ = app (a.assign θ) (b.assign θ) := rfl

@[simp] theorem assign_adt (name : String) (ts : List Ty) :
    (adt name ts).assign θ = adt name (ts.map (assign θ)) := by
  rw [assign, subst, substAll_eq_map]
  rfl

@[simp] theorem assign_int : int.assign θ = int := rfl

@[simp] theorem assign_bool : bool.assign θ = bool := rfl

@[simp] theorem assign_ofLiteral (l : Literal) : (ofLiteral l).assign θ = ofLiteral l := by
  cases l <;> rfl

theorem subst_curried (f : TypeVar → Ty) (args : List Ty) (result : Ty) :
    (curried args result).subst f = curried (args.map (subst f)) (result.subst f) := by
  induction args with
  | nil => rfl
  | cons arg args ih =>
    simp only [curried, List.foldr_cons, List.map_cons, subst] at ih ⊢
    rw [ih]

end Equations

/-! ### Ids -/

section Ids

@[simp] theorem ids_var (v : TypeVar) : (var v).ids = [v.id] := rfl

@[simp] theorem ids_const (name : String) : (const name).ids = [] := rfl

@[simp] theorem ids_func (a b : Ty) : (func a b).ids = a.ids ++ b.ids := by simp [ids, vars]

@[simp] theorem ids_prod (a b : Ty) : (prod a b).ids = a.ids ++ b.ids := by simp [ids, vars]

@[simp] theorem ids_app (a b : Ty) : (app a b).ids = a.ids ++ b.ids := by simp [ids, vars]

@[simp] theorem ids_adt (name : String) (ts : List Ty) : (adt name ts).ids = ts.flatMap ids := by
  rw [ids, vars, varsAll_eq_flatMap, List.map_flatMap]
  rfl

theorem mem_ids_curried {i : Nat} {args : List Ty} {result : Ty} :
    i ∈ (curried args result).ids ↔ (∃ a ∈ args, i ∈ a.ids) ∨ i ∈ result.ids := by
  induction args with
  | nil => simp [curried]
  | cons a args ih =>
    rw [curried] at ih
    rw [curried, List.foldr_cons, ids_func, List.mem_append, ih]
    simp [or_assoc]

theorem mem_ids {i : Nat} {t : Ty} : i ∈ t.ids ↔ ∃ v ∈ t.vars, v.id = i := List.mem_map

theorem vars_subst (f : TypeVar → Ty) (t : Ty) : (t.subst f).vars = t.vars.flatMap (vars ∘ f) := by
  induction t using induct with
  | adt name ts ih =>
    rw [subst, vars, vars, substAll_eq_map, varsAll_eq_flatMap, varsAll_eq_flatMap,
      List.flatMap_map, List.flatMap_assoc, List.flatMap_def, List.flatMap_def]
    exact congrArg _ (List.map_congr_left ih)
  | _ => simp_all [subst, vars]

theorem mem_ids_subst {f : TypeVar → Ty} {t : Ty} {i : Nat} :
    i ∈ (t.subst f).ids ↔ ∃ v ∈ t.vars, i ∈ (f v).ids := by
  rw [ids, vars_subst]
  simp only [List.mem_map, List.mem_flatMap, Function.comp_apply, ids]
  constructor
  · rintro ⟨w, ⟨v, hv, hw⟩, rfl⟩
    exact ⟨v, hv, w, hw, rfl⟩
  · rintro ⟨v, hv, w, hw, rfl⟩
    exact ⟨w, ⟨v, hv, hw⟩, rfl⟩

end Ids

/-! ### Composition -/

/-- Only the ids that occur matter. -/
theorem assign_congr {θ θ' : Assignment} {t : Ty} (h : ∀ i ∈ t.ids, θ i = θ' i) :
    t.assign θ = t.assign θ' :=
  subst_congr fun v hv => h v.id (mem_ids.2 ⟨v, hv, rfl⟩)

theorem assign_subst (f : TypeVar → Ty) (θ : Assignment) (t : Ty) :
    (t.subst f).assign θ = t.subst fun v => (f v).assign θ := subst_subst f _ t

theorem assign_assign (θ ρ : Assignment) (t : Ty) :
    (t.assign θ).assign ρ = t.assign fun i => (θ i).assign ρ := subst_subst _ _ t

theorem subst_eq_assign {f : TypeVar → Ty} {θ : Assignment} {t : Ty}
    (h : ∀ v ∈ t.vars, f v = θ v.id) : t.subst f = t.assign θ := subst_congr h

/-! ### Hints -/

/-- The assignment that leaves every variable as it is, without a hint. -/
def plain : Assignment := fun i => .var ⟨i, none⟩

theorem erase_eq_assign (t : Ty) : t.erase = t.assign plain := rfl

@[simp] theorem ids_erase (t : Ty) : t.erase.ids = t.ids := by
  rw [ids, erase, vars_subst, ids]
  induction t.vars with
  | nil => rfl
  | cons v vs ih => simpa [vars] using ih

@[simp] theorem assign_erase (θ : Assignment) (t : Ty) : t.erase.assign θ = t.assign θ := by
  rw [erase_eq_assign, assign_assign]
  rfl

theorem erase_assign (θ : Assignment) (t : Ty) :
    (t.assign θ).erase = t.assign fun i => (θ i).erase := assign_assign θ plain t

@[simp] theorem erase_erase (t : Ty) : t.erase.erase = t.erase := assign_erase plain t

theorem alike_iff {t u : Ty} : t.alike u = true ↔ t.erase = u.erase := decide_eq_true_iff

theorem alike_refl (t : Ty) : t.alike t = true := alike_iff.2 rfl

/-- Hints make no difference to an assignment. -/
theorem assign_eq_of_alike {t u : Ty} (h : t.alike u = true) (θ : Assignment) :
    t.assign θ = u.assign θ := by
  rw [← assign_erase θ t, alike_iff.1 h, assign_erase]

/-- If a replacement changes at most hints, it does so at every variable. -/
theorem erase_eq_of_subst_alike {f : TypeVar → Ty} {t : Ty} (h : (t.subst f).alike t = true) :
    ∀ v ∈ t.vars, (f v).erase = plain v.id := by
  rw [alike_iff, erase, erase, subst_subst] at h
  induction t using induct with
  | adt name ts ih =>
    intro v hv
    rw [vars, varsAll_eq_flatMap, List.mem_flatMap] at hv
    obtain ⟨t, ht, hv⟩ := hv
    simp only [subst, substAll_eq_map, adt.injEq, true_and] at h
    exact ih t ht (List.map_inj_left.1 h t ht) v hv
  | var v =>
    intro w hw
    rw [vars, List.mem_singleton] at hw
    subst hw
    exact h
  | const name => simp [vars]
  | func a b iha ihb | prod a b iha ihb | app a b iha ihb =>
    intro v hv
    simp only [subst, func.injEq, prod.injEq, app.injEq] at h
    rw [vars, List.mem_append] at hv
    rcases hv with hv | hv
    · exact iha h.1 v hv
    · exact ihb h.2 v hv

/-! ### Size and the occurs check -/

mutual

/-- Number of nodes. -/
def size : Ty → Nat
  | .var _ => 1
  | .const _ => 1
  | .func a b => a.size + b.size + 1
  | .prod a b => a.size + b.size + 1
  | .app a b => a.size + b.size + 1
  | .adt _ ts => sizeAll ts + 1

def sizeAll : List Ty → Nat
  | [] => 0
  | t :: ts => t.size + sizeAll ts

end

theorem size_le_sizeAll {t : Ty} {ts : List Ty} (h : t ∈ ts) : t.size ≤ sizeAll ts := by
  induction ts with
  | nil => simp at h
  | cons u us ih =>
    rw [sizeAll]
    rcases List.mem_cons.1 h with rfl | h
    · omega
    · have := ih h
      omega

/-- What a variable is assigned is no larger than what a type with that variable is. -/
theorem size_le_size_assign (θ : Assignment) {i : Nat} {t : Ty} (h : i ∈ t.ids) :
    (θ i).size ≤ (t.assign θ).size := by
  induction t using induct with
  | var v =>
    rw [ids_var, List.mem_singleton] at h
    rw [h]
    exact Nat.le_refl _
  | const name => simp at h
  | func a b iha ihb | prod a b iha ihb | app a b iha ihb =>
    simp only [ids_func, ids_prod, ids_app, List.mem_append] at h
    simp only [assign_func, assign_prod, assign_app, size]
    rcases h with h | h
    · have := iha h
      omega
    · have := ihb h
      omega
  | adt name ts ih =>
    rw [ids_adt, List.mem_flatMap] at h
    obtain ⟨t, ht, hi⟩ := h
    have hle := ih t ht hi
    have hmem : (t.assign θ).size ≤ sizeAll (ts.map (assign θ)) :=
      size_le_sizeAll (List.mem_map_of_mem ht)
    rw [assign_adt, size]
    omega

/-- **Occurs check.**  No assignment makes a variable equal to a type that properly contains
    it. -/
theorem assign_ne_of_occurs (θ : Assignment) {i : Nat} {t : Ty} (h : i ∈ t.ids)
    (hvar : ∀ v, t ≠ .var v) : θ i ≠ t.assign θ := by
  intro heq
  have hsize : (θ i).size = (t.assign θ).size := congrArg size heq
  cases t with
  | var v => exact hvar v rfl
  | const name => simp at h
  | func a b | prod a b | app a b =>
    simp only [ids_func, ids_prod, ids_app, List.mem_append] at h
    simp only [assign_func, assign_prod, assign_app, size] at hsize
    rcases h with h | h
    · have := size_le_size_assign θ h
      omega
    · have := size_le_size_assign θ h
      omega
  | adt name ts =>
    rw [ids_adt, List.mem_flatMap] at h
    obtain ⟨t, ht, hi⟩ := h
    have hle := size_le_size_assign θ hi
    have hmem : (t.assign θ).size ≤ sizeAll (ts.map (assign θ)) :=
      size_le_sizeAll (List.mem_map_of_mem ht)
    rw [assign_adt, size] at hsize
    omega

end Ty

end CoreCalculus
