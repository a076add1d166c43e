/-
  CoreCalculus/Proofs/OpenContext.lean
  ====================================
  **Contexts under an assignment of their free type variables.**

  A scheme keeps its quantified variables: they are moved out of the way, beyond every
  id that the assignment brings in for the free ones.  The parameters of a data type
  are its quantified variables, and any other variable of its signatures is free.

  What such a scheme can be used at is what the old one can, read under the assignment
  (`Ty.inst_avoiding`): quantified variables get any types, free ones what they are
  assigned.  The typing rules in an assigned context are restated in this form.
-/
import CoreCalculus.Proofs.Assignment
import CoreCalculus.Proofs.Typing

namespace CoreCalculus

/-- The least number beyond all those listed. -/
def beyond (ids : List Nat) : Nat :=
  match ids.max? with
  | some i => i + 1
  | none => 0

theorem lt_beyond {ids : List Nat} {i : Nat} (h : i ∈ ids) : i < beyond ids := by
  rcases hmax : ids.max? with _ | m
  · rw [List.max?_eq_none_iff.1 hmax] at h
    exact absurd h List.not_mem_nil
  · have hle := (List.max?_eq_some_iff.1 hmax).2 i h
    rw [beyond, hmax]
    exact Nat.lt_succ_of_le hle

/-! ### Quantified variables -/

namespace Assignment

/-- `g` for the listed variables, and `θ` for the others. -/
def override (θ : Assignment) (vars : List TypeVar) (g : Nat → Ty) : Assignment :=
  fun i => if i ∈ vars.map TypeVar.id then g i else θ i

theorem override_nil (θ : Assignment) (g : Nat → Ty) : override θ [] g = θ := by
  funext i
  simp [override]

theorem override_congr {θ θ' : Assignment} {vars : List TypeVar} {i : Nat} (g : Nat → Ty)
    (h : i ∉ vars.map TypeVar.id → θ i = θ' i) : override θ vars g i = override θ' vars g i := by
  rw [override, override]
  split
  · rfl
  · rename_i hvars
    exact h hvars

/-- Listed variables move beyond `n`, the others are assigned. -/
def avoiding (θ : Assignment) (n : Nat) (vars : List TypeVar) : Assignment :=
  override θ vars fun i => .var ⟨n + i, none⟩

/-- The least number beyond all that the assignment brings in for the listed ids. -/
def room (θ : Assignment) (ids : List Nat) : Nat := beyond (ids.flatMap fun i => (θ i).ids)

theorem lt_room {θ : Assignment} {ids : List Nat} {i j : Nat} (hi : i ∈ ids)
    (hj : j ∈ (θ i).ids) : j < room θ ids :=
  lt_beyond (List.mem_flatMap.2 ⟨i, hi, hj⟩)

theorem room_congr {θ θ' : Assignment} {ids : List Nat} (h : ∀ i ∈ ids, θ i = θ' i) :
    room θ ids = room θ' ids := by
  have hmap : (ids.map fun i => (θ i).ids) = ids.map fun i => (θ' i).ids :=
    List.map_congr_left fun i hi => by rw [h i hi]
  rw [room, room, List.flatMap_def, List.flatMap_def, hmap]

end Assignment

/-- The listed variables, moved beyond `n`. -/
def shiftVars (n : Nat) (vars : List TypeVar) : List TypeVar := vars.map fun v => ⟨n + v.id, none⟩

theorem mem_shiftVars {n i : Nat} {vars : List TypeVar} :
    i ∈ (shiftVars n vars).map TypeVar.id ↔ ∃ j ∈ vars.map TypeVar.id, n + j = i := by
  rw [shiftVars, List.map_map, ← List.mem_map, List.map_map]
  rfl

/-- An instance, after the assignment, is an assignment that takes the instance along. -/
theorem Ty.inst_avoiding {θ : Assignment} {n : Nat} {vars : List TypeVar} {t : Ty}
    (g : Nat → Ty)
    (hn : ∀ i ∈ t.ids, i ∉ vars.map TypeVar.id → ∀ j ∈ (θ i).ids, j < n) :
    (t.assign (θ.avoiding n vars)).inst (shiftVars n vars) g =
      t.assign (θ.override vars fun i => g (n + i)) := by
  rw [inst, assign, subst_subst]
  refine subst_congr fun v hv => ?_
  have hid : v.id ∈ t.ids := mem_ids.2 ⟨v, hv, rfl⟩
  by_cases hvars : v.id ∈ vars.map TypeVar.id
  · simp only [Assignment.avoiding, Assignment.override, if_pos hvars, subst]
    exact if_pos (mem_shiftVars.2 ⟨v.id, hvars, rfl⟩)
  · simp only [Assignment.avoiding, Assignment.override, if_neg hvars]
    -- the ids of an assigned type are below `n`, so none of them is a moved one
    have hself : ∀ w ∈ (θ v.id).vars,
        (if w.id ∈ (shiftVars n vars).map TypeVar.id then g w.id else .var w) = .var w := by
      intro w hw
      refine if_neg fun hmem => ?_
      obtain ⟨j, _, hj⟩ := mem_shiftVars.1 hmem
      have hlt := hn v.id hid hvars w.id (mem_ids.2 ⟨w, hw, rfl⟩)
      omega
    rw [subst_congr hself, subst_var]

/-! ### Schemes -/

namespace Scheme

/-- The ids of the variables that are not quantified. -/
def freeIds (s : Scheme) : List Nat := s.ty.ids.filter (· ∉ s.vars.map TypeVar.id)

theorem mem_freeIds {s : Scheme} {i : Nat} :
    i ∈ s.freeIds ↔ i ∈ s.ty.ids ∧ i ∉ s.vars.map TypeVar.id := by
  rw [freeIds, List.mem_filter, decide_eq_true_iff]

/-- Assign the free variables. -/
def subst (θ : Assignment) (s : Scheme) : Scheme :=
  let n := θ.room s.freeIds
  ⟨shiftVars n s.vars, s.ty.assign (θ.avoiding n s.vars)⟩

theorem mem_ids_of_mem_freeIds {s : Scheme} {i : Nat} (h : i ∈ s.freeIds) : i ∈ s.ids :=
  List.mem_append_right _ (mem_freeIds.1 h).1

theorem subst_congr {θ θ' : Assignment} {s : Scheme} (h : ∀ i ∈ s.freeIds, θ i = θ' i) :
    s.subst θ = s.subst θ' := by
  rw [subst, subst, Assignment.room_congr h]
  refine congrArg _ (Ty.assign_congr fun i hi => Assignment.override_congr _ fun hvars => ?_)
  exact h i (mem_freeIds.2 ⟨hi, hvars⟩)

@[simp] theorem subst_mono (θ : Assignment) (t : Ty) : (mono t).subst θ = mono (t.assign θ) := by
  rw [subst, mono, Assignment.avoiding, Assignment.override_nil]
  rfl

/-- What an assigned scheme can be used at. -/
theorem inst_subst_iff {θ : Assignment} {s : Scheme} {τ : Ty} :
    (∃ g, τ = (s.subst θ).ty.inst (s.subst θ).vars g) ↔
      ∃ g, τ = s.ty.assign (θ.override s.vars g) := by
  have hinst : ∀ g, (s.subst θ).ty.inst (s.subst θ).vars g =
      s.ty.assign (θ.override s.vars fun i => g (θ.room s.freeIds + i)) := fun g =>
    Ty.inst_avoiding g fun i hi hvars j hj => Assignment.lt_room (mem_freeIds.2 ⟨hi, hvars⟩) hj
  constructor
  · rintro ⟨g, rfl⟩
    exact ⟨_, hinst g⟩
  · rintro ⟨g, rfl⟩
    refine ⟨fun j => g (j - θ.room s.freeIds), ?_⟩
    rw [hinst]
    simp only [Nat.add_sub_cancel_left]

end Scheme

/-! ### Data types -/

namespace DataType

/-- The ids of the variables in signatures that are not parameters. -/
def freeIds (d : DataType) : List Nat :=
  (d.constructors.flatMap fun s => s.args.flatMap Ty.ids).filter (· ∉ d.params.map TypeVar.id)

theorem mem_freeIds {d : DataType} {s : Signature} {t : Ty} {i : Nat} (hs : s ∈ d.constructors)
    (ht : t ∈ s.args) (hi : i ∈ t.ids) (hparams : i ∉ d.params.map TypeVar.id) :
    i ∈ d.freeIds := by
  refine List.mem_filter.2 ⟨?_, decide_eq_true hparams⟩
  exact List.mem_flatMap.2 ⟨s, hs, List.mem_flatMap.2 ⟨t, ht, hi⟩⟩

theorem mem_ids_of_mem_freeIds {d : DataType} {i : Nat} (h : i ∈ d.freeIds) : i ∈ d.ids :=
  List.mem_append_right _ (List.mem_filter.1 h).1

/-- Assign the variables of a signature. -/
def substSignature (θ : Assignment) (s : Signature) : Signature := ⟨s.name, s.args.map (Ty.assign θ)⟩

/-- Assign the free variables. -/
def subst (θ : Assignment) (d : DataType) : DataType :=
  let n := θ.room d.freeIds
  ⟨d.name, shiftVars n d.params, d.constructors.map (substSignature (θ.avoiding n d.params))⟩

theorem subst_congr {θ θ' : Assignment} {d : DataType} (h : ∀ i ∈ d.freeIds, θ i = θ' i) :
    d.subst θ = d.subst θ' := by
  rw [subst, subst, Assignment.room_congr h]
  refine congrArg _ (List.map_congr_left fun s hs => congrArg _ (List.map_congr_left fun t ht => ?_))
  refine Ty.assign_congr fun i hi => Assignment.override_congr _ fun hparams => ?_
  exact h i (mem_freeIds hs ht hi hparams)

theorem find?_subst (θ : Assignment) (d : DataType) (name : String) :
    (d.subst θ).find? name =
      (d.find? name).map (substSignature (θ.avoiding (θ.room d.freeIds) d.params)) := by
  rw [find?, find?, subst, List.find?_map]
  rfl

theorem constructorNames_subst (θ : Assignment) (d : DataType) :
    (d.subst θ).constructorNames = d.constructorNames := by
  rw [constructorNames, constructorNames, subst, List.map_map]
  rfl

theorem mem_ids_selfType {d : DataType} {i : Nat} :
    i ∈ d.selfType.ids ↔ i ∈ d.params.map TypeVar.id := by
  rw [selfType, Ty.ids_adt, List.flatMap_map]
  simp [eq_comm]

/-- The arguments of a constructor, in the assigned data type at `g`. -/
theorem inst_subst_args {θ : Assignment} {d : DataType} {s : Signature} (g : Nat → Ty)
    (hs : s ∈ d.constructors) :
    (substSignature (θ.avoiding (θ.room d.freeIds) d.params) s).args.map
        (Ty.inst (d.subst θ).params g) =
      s.args.map (Ty.assign (θ.override d.params fun i => g (θ.room d.freeIds + i))) := by
  rw [substSignature, List.map_map]
  refine List.map_congr_left fun t ht => ?_
  exact Ty.inst_avoiding g fun i hi hparams j hj =>
    Assignment.lt_room (mem_freeIds hs ht hi hparams) hj

/-- The assigned data type at `g`. -/
theorem inst_subst_selfType {θ : Assignment} {d : DataType} (g : Nat → Ty) :
    (d.subst θ).selfType.inst (d.subst θ).params g =
      d.selfType.assign (θ.override d.params fun i => g (θ.room d.freeIds + i)) := by
  have hself : (d.subst θ).selfType =
      d.selfType.assign (θ.avoiding (θ.room d.freeIds) d.params) := by
    rw [selfType, selfType, Ty.assign_adt, List.map_map, subst, shiftVars, List.map_map]
    refine congrArg _ (List.map_congr_left fun v hv => ?_)
    have hmem : v.id ∈ d.params.map TypeVar.id := List.mem_map_of_mem hv
    simp [Assignment.avoiding, Assignment.override, hmem]
  rw [hself]
  exact Ty.inst_avoiding g fun i hi hparams => absurd (mem_ids_selfType.1 hi) hparams

end DataType

/-! ### Contexts -/

namespace Registry

def subst (θ : Assignment) (r : Registry) : Registry := ⟨r.types.map (DataType.subst θ), r.owners⟩

theorem constructor?_subst (θ : Assignment) (r : Registry) (name : String) :
    (r.subst θ).constructor? name = (r.constructor? name).map fun e =>
      (e.1.subst θ,
        DataType.substSignature (θ.avoiding (θ.room e.1.freeIds) e.1.params) e.2) := by
  simp only [constructor?, subst, Table.get?_map]
  rcases r.owners.get? name with _ | owner
  · rfl
  · rcases hd : r.types.get? owner with _ | d
    · simp [hd]
    · rcases hs : d.find? name with _ | s
      · simp [hd, hs, DataType.find?_subst]
      · simp [hd, hs, DataType.find?_subst]

theorem mem_constructors {r : Registry} {name : String} {d : DataType} {s : Signature}
    (h : r.constructor? name = some (d, s)) : s ∈ d.constructors := by
  simp only [constructor?, Option.bind_eq_bind, Option.bind_eq_some_iff, Option.pure_def,
    Option.some.injEq, Prod.mk.injEq] at h
  obtain ⟨_, _, e, _, s', hs, rfl, rfl⟩ := h
  exact List.mem_of_find?_eq_some hs

theorem covers_subst_iff {θ : Assignment} {r : Registry} {σ : Ty} {patterns : List Pattern} :
    (r.subst θ).Covers σ patterns ↔ r.Covers σ patterns := by
  rw [Covers, Covers]
  refine or_congr_right ?_
  rcases σ.headName? with _ | name
  · simp
  · simp only [Option.bind_some, subst, Table.get?_map, Option.map_eq_some_iff,
      forall_exists_index, and_imp, forall_apply_eq_imp_iff₂, DataType.constructorNames_subst]

theorem subst_congr {θ θ' : Assignment} {r : Registry}
    (h : ∀ d ∈ r.types.values, ∀ i ∈ d.freeIds, θ i = θ' i) : r.subst θ = r.subst θ' := by
  have htypes : r.types.map (DataType.subst θ) = r.types.map (DataType.subst θ') :=
    Table.map_congr fun d hd => DataType.subst_congr (h d hd)
  rw [subst, subst, htypes]

end Registry

namespace Context

/-- The ids of the variables that are not quantified. -/
def freeIds (c : Context) : List Nat :=
  c.bindings.values.flatMap Scheme.freeIds ++ c.registry.types.values.flatMap DataType.freeIds

/-- Assign the free variables. -/
def subst (θ : Assignment) (c : Context) : Context :=
  ⟨c.bindings.map (Scheme.subst θ), c.registry.subst θ⟩

theorem mem_ids_of_mem_freeIds {c : Context} {i : Nat} (h : i ∈ c.freeIds) : i ∈ c.ids := by
  rcases List.mem_append.1 h with h | h
  · obtain ⟨s, hs, hi⟩ := List.mem_flatMap.1 h
    exact List.mem_append_left _
      (List.mem_flatMap.2 ⟨s, hs, Scheme.mem_ids_of_mem_freeIds hi⟩)
  · obtain ⟨d, hd, hi⟩ := List.mem_flatMap.1 h
    exact List.mem_append_right _
      (List.mem_flatMap.2 ⟨d, hd, DataType.mem_ids_of_mem_freeIds hi⟩)

theorem subst_extend (θ : Assignment) (c : Context) (x : String) (σ : Ty) :
    (c.extend x (.mono σ)).subst θ = (c.subst θ).extend x (.mono (σ.assign θ)) := by
  rw [extend, extend, subst, subst, Table.map_insert, Scheme.subst_mono]

theorem subst_extendAll (θ : Assignment) (c : Context) (Δ : List (String × Scheme)) :
    (c.extendAll Δ).subst θ =
      (c.subst θ).extendAll (Δ.map fun e => (e.1, e.2.subst θ)) := by
  rw [extendAll, extendAll, subst, subst, Table.map_insertAll]

theorem subst_congr {θ θ' : Assignment} {c : Context} (h : ∀ i ∈ c.freeIds, θ i = θ' i) :
    c.subst θ = c.subst θ' := by
  have hbindings : c.bindings.map (Scheme.subst θ) = c.bindings.map (Scheme.subst θ') :=
    Table.map_congr fun s hs => Scheme.subst_congr fun i hi =>
      h i (List.mem_append_left _ (List.mem_flatMap.2 ⟨s, hs, hi⟩))
  have hregistry : c.registry.subst θ = c.registry.subst θ' :=
    Registry.subst_congr fun d hd i hi =>
      h i (List.mem_append_right _ (List.mem_flatMap.2 ⟨d, hd, hi⟩))
  rw [subst, subst, hbindings, hregistry]

end Context

/-! ### Hints -/

namespace Assignment

/-- Drop the hints of all types. -/
def erase (θ : Assignment) : Assignment := fun i => (θ i).erase

theorem room_erase (θ : Assignment) (ids : List Nat) : room (erase θ) ids = room θ ids := by
  simp only [room, erase, Ty.ids_erase]

theorem avoiding_erase (θ : Assignment) (n : Nat) (vars : List TypeVar) :
    avoiding (erase θ) n vars = erase (avoiding θ n vars) := by
  funext i
  simp only [avoiding, override, erase]
  split <;> rfl

end Assignment

theorem erase_shiftVars (n : Nat) (vars : List TypeVar) :
    ((shiftVars n vars).map fun v => (⟨v.id, none⟩ : TypeVar)) = shiftVars n vars := by
  rw [shiftVars, List.map_map]
  rfl

theorem Scheme.erase_subst (θ : Assignment) (s : Scheme) :
    (s.subst θ).erase = s.subst (Assignment.erase θ) := by
  simp only [subst, Scheme.erase, Assignment.room_erase, Assignment.avoiding_erase,
    erase_shiftVars, Ty.erase_assign]
  rfl

theorem DataType.erase_subst (θ : Assignment) (d : DataType) :
    (d.subst θ).erase = d.subst (Assignment.erase θ) := by
  simp only [subst, DataType.erase, Assignment.room_erase, Assignment.avoiding_erase,
    erase_shiftVars, List.map_map]
  refine congrArg _ (List.map_congr_left fun s _ => ?_)
  simp only [substSignature, Function.comp_apply, List.map_map]
  exact congrArg _ (List.map_congr_left fun t _ => Ty.erase_assign _ t)

/-- Drop all hints. -/
def Registry.erase (r : Registry) : Registry := ⟨r.types.map DataType.erase, r.owners⟩

/-- Drop all hints. -/
def Context.erase (c : Context) : Context := ⟨c.bindings.map Scheme.erase, c.registry.erase⟩

theorem Context.erase_subst (θ : Assignment) (c : Context) :
    (c.subst θ).erase = c.subst (Assignment.erase θ) := by
  simp only [subst, Context.erase, Registry.subst, Registry.erase, Table.map_map,
    Function.comp_def, Scheme.erase_subst, DataType.erase_subst]

/-- The rules as they compare types, up to hints. -/
def Context.Types (c : Context) (t : Term) (τ : Ty) : Prop := HasType c.erase t τ.erase

/-! ### The typing rules in an assigned context -/

section

variable {θ : Assignment}

theorem hasType_subst_var_iff {c : Context} {x : String} {τ : Ty} :
    HasType (c.subst θ) (.var x) τ ↔ ∃ s, c.bindings.get? x = some s ∧
      ∃ g, τ = s.ty.assign (θ.override s.vars g) := by
  rw [hasType_var_iff]
  simp only [Context.subst, Table.get?_map, Option.map_eq_some_iff]
  constructor
  · rintro ⟨_, g, ⟨s, hs, rfl⟩, hτ⟩
    exact ⟨s, hs, Scheme.inst_subst_iff.1 ⟨g, hτ⟩⟩
  · rintro ⟨s, hs, hτ⟩
    obtain ⟨g, hτ⟩ := Scheme.inst_subst_iff.2 hτ
    exact ⟨_, g, ⟨s, hs, rfl⟩, hτ⟩

/-- A constructor of an assigned registry, used at some types, is one of the registry, read
    under the assignment. -/
theorem exists_constructor?_subst_iff (r : Registry) (name : String)
    (Q : List Ty → Ty → Prop) :
    (∃ d s g, (r.subst θ).constructor? name = some (d, s) ∧
        Q (s.args.map (Ty.inst d.params g)) (d.selfType.inst d.params g)) ↔
      ∃ d s, r.constructor? name = some (d, s) ∧
        ∃ g, Q (s.args.map (Ty.assign (θ.override d.params g)))
          (d.selfType.assign (θ.override d.params g)) := by
  rw [Registry.constructor?_subst]
  simp only [Option.map_eq_some_iff, Prod.exists, Prod.mk.injEq]
  constructor
  · rintro ⟨_, _, g, ⟨d, s, hname, rfl, rfl⟩, hQ⟩
    rw [DataType.inst_subst_args g (Registry.mem_constructors hname),
      DataType.inst_subst_selfType] at hQ
    exact ⟨d, s, hname, _, hQ⟩
  · rintro ⟨d, s, hname, g, hQ⟩
    refine ⟨_, _, fun j => g (j - θ.room d.freeIds), ⟨d, s, hname, rfl, rfl⟩, ?_⟩
    rw [DataType.inst_subst_args _ (Registry.mem_constructors hname),
      DataType.inst_subst_selfType]
    simpa only [Nat.add_sub_cancel_left] using hQ

theorem hasType_subst_ctor_iff {c : Context} {name : String} {τ : Ty} :
    HasType (c.subst θ) (.ctor name) τ ↔ ∃ d s, c.registry.constructor? name = some (d, s) ∧
      ∃ g, τ = (d.constructorScheme s).ty.assign (θ.override d.params g) := by
  rw [hasType_ctor_iff]
  simp only [DataType.constructorScheme, Ty.inst_curried, Ty.assign, Ty.subst_curried]
  exact exists_constructor?_subst_iff c.registry name fun args self => τ = Ty.curried args self

theorem patternTyped_subst_ctor_iff {r : Registry} {name : String} {subs : List Pattern}
    {σ : Ty} {Δ : List (String × Scheme)} :
    PatternTyped (r.subst θ) (.ctor name subs) σ Δ ↔
      ∃ d s, r.constructor? name = some (d, s) ∧
        ∃ g, PatternsTyped (r.subst θ) subs (s.args.map (Ty.assign (θ.override d.params g))) Δ ∧
          σ = d.selfType.assign (θ.override d.params g) := by
  rw [patternTyped_ctor_iff]
  exact exists_constructor?_subst_iff r name fun args self =>
    PatternsTyped (r.subst θ) subs args Δ ∧ σ = self

end

end CoreCalculus
