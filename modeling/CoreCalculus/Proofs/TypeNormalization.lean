/-
  CoreCalculus/Proofs/TypeNormalization.lean
  ==========================================
  **Normalization of types is a canonical form.**

  A renaming that is one-to-one moves the variables of a type but not their order of first
  occurrence, so the place of a variable in that order (`Ty.place`) is all that normalization
  keeps of it.  Conversely, two types with the same normal form have as many variables, and the
  renaming that takes each variable of the one to the variable in the same place of the other
  turns the one into the other.

  The new ids may well be ids that the type had before; nothing is confused, since all
  variables are replaced at the same time and the new ids are places in the old order.
-/
import Mathlib.Data.List.Basic
import Mathlib.Data.List.GetD
import Mathlib.Data.List.Nodup
import CoreCalculus.Proofs.OpenContext
import CoreCalculus.Ty.Printer

namespace CoreCalculus

namespace Ty

/-! ### Variables in order of first occurrence -/

theorem mem_of_mem_firstOfEachId {v : TypeVar} {vs : List TypeVar} (h : v ∈ firstOfEachId vs) :
    v ∈ vs := by
  induction vs with
  | nil => exact h
  | cons w vs ih =>
    rw [firstOfEachId, List.mem_cons] at h
    rw [List.mem_cons]
    exact h.imp_right fun h => ih (List.mem_filter.1 h).1

theorem mem_ids_firstOfEachId {i : Nat} {vs : List TypeVar} :
    i ∈ (firstOfEachId vs).map TypeVar.id ↔ i ∈ vs.map TypeVar.id := by
  induction vs with
  | nil => rfl
  | cons w vs ih =>
    rw [firstOfEachId, List.map_cons, List.map_cons, List.mem_cons, List.mem_cons, ← ih]
    by_cases hi : i = w.id
    · simp [hi]
    · refine or_congr_right ?_
      simp only [List.mem_map, List.mem_filter, decide_eq_true_eq]
      constructor
      · rintro ⟨v, ⟨hv, -⟩, rfl⟩
        exact ⟨v, hv, rfl⟩
      · rintro ⟨v, hv, rfl⟩
        exact ⟨v, ⟨hv, hi⟩, rfl⟩

theorem nodup_ids_firstOfEachId (vs : List TypeVar) :
    ((firstOfEachId vs).map TypeVar.id).Nodup := by
  induction vs with
  | nil => exact List.nodup_nil
  | cons w vs ih =>
    rw [firstOfEachId, List.map_cons, List.nodup_cons]
    constructor
    · simp
    · exact ih.sublist (List.filter_sublist.map _)

/-- Variables that keep apart what was apart, and only that, stay in order. -/
theorem firstOfEachId_map {f : TypeVar → TypeVar} {vs : List TypeVar}
    (h : ∀ v ∈ vs, ∀ w ∈ vs, (f v).id = (f w).id ↔ v.id = w.id) :
    firstOfEachId (vs.map f) = (firstOfEachId vs).map f := by
  induction vs with
  | nil => rfl
  | cons v vs ih =>
    have hvs : ∀ w ∈ vs, ∀ w' ∈ vs, (f w).id = (f w').id ↔ w.id = w'.id := by
      intro w hw w' hw'
      exact h w (List.mem_cons_of_mem v hw) w' (List.mem_cons_of_mem v hw')
    rw [List.map_cons, firstOfEachId, firstOfEachId, ih hvs, List.filter_map, List.map_cons]
    have hothers : ∀ w ∈ firstOfEachId vs,
        ((fun w : TypeVar => decide (w.id ≠ (f v).id)) ∘ f) w = decide (w.id ≠ v.id) := by
      intro w hw
      have hiff := h w (List.mem_cons_of_mem v (mem_of_mem_firstOfEachId hw)) v List.mem_cons_self
      simp only [Function.comp_apply, ne_eq, hiff]
    rw [List.filter_congr hothers]

/-- The ids of a type, each once, by first occurrence. -/
def order (t : Ty) : List Nat := t.distinctVars.map TypeVar.id

theorem mem_order {t : Ty} {i : Nat} : i ∈ t.order ↔ i ∈ t.ids := mem_ids_firstOfEachId

theorem nodup_order (t : Ty) : t.order.Nodup := nodup_ids_firstOfEachId t.vars

/-- The place of an id in the order of first occurrence. -/
def place (t : Ty) (i : Nat) : Nat := t.order.idxOf i

theorem place_lt_iff {t : Ty} {i : Nat} : t.place i < t.order.length ↔ i ∈ t.ids := by
  rw [place, List.idxOf_lt_length_iff, mem_order]

theorem place_inj {t : Ty} {i j : Nat} (hi : i ∈ t.ids) : t.place i = t.place j ↔ i = j :=
  List.idxOf_inj (mem_order.2 hi)

/-- The id in the given place. -/
theorem getD_place {t : Ty} {i : Nat} (hi : i ∈ t.ids) : t.order.getD (t.place i) 0 = i := by
  have hlt : t.place i < t.order.length := place_lt_iff.2 hi
  rw [List.getD_eq_getElem _ _ hlt]
  exact List.getElem_idxOf hlt

/-- The places of the variables in their order. -/
theorem map_place_order (t : Ty) : t.order.map t.place = List.range t.order.length := by
  refine List.ext_getElem (by simp) fun k hk hk' => ?_
  rw [List.getElem_map, List.getElem_range]
  exact t.nodup_order.idxOf_getElem k (by simpa using hk)

/-! ### Replacing variables by variables -/

theorem vars_subst_var (f : TypeVar → TypeVar) (t : Ty) :
    (t.subst fun v => .var (f v)).vars = t.vars.map f := by
  rw [vars_subst, List.map_eq_flatMap]
  rfl

theorem distinctVars_subst_var {f : TypeVar → TypeVar} {t : Ty}
    (h : ∀ v ∈ t.vars, ∀ w ∈ t.vars, (f v).id = (f w).id ↔ v.id = w.id) :
    (t.subst fun v => .var (f v)).distinctVars = t.distinctVars.map f := by
  rw [distinctVars, vars_subst_var, firstOfEachId_map h, distinctVars]

/-- Rename the variables; hints stay. -/
def rename (ρ : Nat → Nat) (t : Ty) : Ty := t.subst fun v => .var ⟨ρ v.id, v.hint⟩

theorem erase_rename (ρ : Nat → Nat) (t : Ty) :
    (t.rename ρ).erase = t.assign fun i => plain (ρ i) := subst_subst _ _ t

theorem order_rename {ρ : Nat → Nat} (hρ : ρ.Injective) (t : Ty) :
    (t.rename ρ).order = t.order.map ρ := by
  rw [order, rename, distinctVars_subst_var fun v _ w _ => hρ.eq_iff, order, List.map_map,
    List.map_map]
  rfl

theorem place_rename {ρ : Nat → Nat} (hρ : ρ.Injective) (t : Ty) (i : Nat) :
    (t.rename ρ).place (ρ i) = t.place i := by
  rw [place, order_rename hρ, List.idxOf, List.findIdx_map, place, List.idxOf]
  have hsame : ((fun k => k == ρ i) ∘ ρ) = fun j => j == i := by
    funext j
    rw [Function.comp_apply, Bool.eq_iff_iff, beq_iff_eq, beq_iff_eq, hρ.eq_iff]
  rw [hsame]

theorem order_erase (t : Ty) : t.erase.order = t.order := by
  have herase : t.erase.distinctVars = t.distinctVars.map fun v => ⟨v.id, none⟩ :=
    distinctVars_subst_var fun v _ w _ => Iff.rfl
  rw [order, herase, order, List.map_map]
  rfl

theorem order_eq_of_alike {t u : Ty} (h : t.alike u = true) : t.order = u.order := by
  rw [← order_erase, alike_iff.1 h, order_erase]

/-! ### Normal forms -/

/-- The variable in the given place of a normal form. -/
def letter (i : Nat) : TypeVar := ⟨i, some (letterName i)⟩

theorem normalize_eq (t : Ty) : t.normalize = t.assign fun i => .var (letter (t.place i)) := by
  have hindex : ∀ i, (t.distinctVars.findIdx fun v => decide (v.id = i)) = t.place i := by
    intro i
    rw [place, order, List.idxOf, List.findIdx_map]
    rfl
  rw [normalize, assign]
  simp only [hindex, letter]

theorem erase_normalize (t : Ty) : t.normalize.erase = t.assign fun i => plain (t.place i) := by
  rw [normalize_eq, erase_assign]
  rfl

/-- The variables of a normal form are numbered by their places. -/
theorem distinctVars_normalize (t : Ty) :
    t.normalize.distinctVars = (List.range t.distinctVars.length).map letter := by
  have hplaces : ∀ v ∈ t.vars, ∀ w ∈ t.vars,
      (letter (t.place v.id)).id = (letter (t.place w.id)).id ↔ v.id = w.id := by
    intro v hv w _
    exact place_inj (mem_ids.2 ⟨v, hv, rfl⟩)
  have hlength : t.order.length = t.distinctVars.length := List.length_map _
  rw [normalize_eq, assign, distinctVars_subst_var hplaces, ← hlength, ← map_place_order, order,
    List.map_map, List.map_map]
  rfl

theorem normalize_normalize (t : Ty) : t.normalize.normalize = t.normalize := by
  have horder : t.normalize.order = List.range t.order.length := by
    rw [order, distinctVars_normalize, List.map_map, order, List.length_map]
    exact List.map_id _
  have hvar : ∀ v ∈ t.normalize.vars, Ty.var (letter (t.normalize.place v.id)) = .var v := by
    intro v hv
    rw [normalize_eq, assign, vars_subst_var, List.mem_map] at hv
    obtain ⟨w, hw, rfl⟩ := hv
    have hlt : t.place w.id < t.order.length := place_lt_iff.2 (mem_ids.2 ⟨w, hw, rfl⟩)
    have hplace : t.normalize.place (letter (t.place w.id)).id = t.place w.id := by
      have hget := List.nodup_range.idxOf_getElem (t.place w.id)
        (show t.place w.id < (List.range t.order.length).length by simpa using hlt)
      rw [List.getElem_range] at hget
      rw [place, horder]
      exact hget
    rw [hplace]
  rw [normalize_eq, assign, subst_congr hvar, subst_var]

/-- In a normal form the hints follow from the ids. -/
theorem normalize_eq_of_alike {t u : Ty} (h : t.normalize.alike u.normalize = true) :
    t.normalize = u.normalize := by
  have hletters : ∀ s : Ty, s.normalize = s.normalize.erase.assign fun i => .var (letter i) := by
    intro s
    rw [erase_normalize, assign_assign, normalize_eq]
    rfl
  rw [hletters t, alike_iff.1 h, ← hletters]

/-- Renaming does not change the normal form. -/
theorem normalize_alike_of_rename {ρ : Nat → Nat} (hρ : ρ.Injective) {t u : Ty}
    (h : (t.rename ρ).alike u = true) : t.normalize.alike u.normalize = true := by
  have hplace : ∀ i, u.place (ρ i) = t.place i := by
    intro i
    rw [place, ← order_eq_of_alike h]
    exact place_rename hρ t i
  rw [alike_iff, erase_normalize, erase_normalize]
  calc t.assign (fun i => plain (t.place i))
    _ = t.assign fun i => plain (u.place (ρ i)) := by simp only [hplace]
    _ = (t.rename ρ).assign fun i => plain (u.place i) :=
        (assign_subst (fun v => .var ⟨ρ v.id, v.hint⟩) (fun i => plain (u.place i)) t).symm
    _ = u.assign fun i => plain (u.place i) := assign_eq_of_alike h _

/-- Hints make no difference to the normal form. -/
theorem normalize_congr {t u : Ty} (h : t.alike u = true) : t.normalize = u.normalize := by
  have hrename : t.rename id = t := subst_var t
  rw [← hrename] at h
  exact normalize_eq_of_alike (normalize_alike_of_rename Function.injective_id h)

/-- Take the variables of `t` to those of `u` in the same places, and all others beyond. -/
def matching (t u : Ty) (i : Nat) : Nat :=
  if i ∈ t.ids then u.order.getD (t.place i) 0 else beyond u.ids + i

section Matching

variable {t u : Ty} (h : t.normalize.alike u.normalize = true)
include h

/-- In the same places both types have variables. -/
theorem exists_same_place {i : Nat} (hi : i ∈ t.ids) : ∃ j ∈ u.ids, u.place j = t.place i := by
  have hids : t.ids.map t.place = u.ids.map u.place := by
    have hplain : ∀ (s : Ty) (f : Nat → Nat),
        (s.assign fun i => plain (f i)).ids = s.ids.map f := by
      intro s f
      have hvars : (s.assign fun i => plain (f i)).vars = s.vars.map fun v => ⟨f v.id, none⟩ :=
        vars_subst_var _ s
      rw [ids, hvars, List.map_map, ids, List.map_map]
      rfl
    have herase := alike_iff.1 h
    rw [erase_normalize, erase_normalize] at herase
    rw [← hplain, herase, hplain]
  have hmem : t.place i ∈ u.ids.map u.place := hids ▸ List.mem_map_of_mem hi
  exact List.mem_map.1 hmem

theorem matching_of_mem {i : Nat} (hi : i ∈ t.ids) :
    matching t u i ∈ u.ids ∧ u.place (matching t u i) = t.place i := by
  obtain ⟨j, hj, hplace⟩ := exists_same_place h hi
  rw [matching, if_pos hi, ← hplace, getD_place hj]
  exact ⟨hj, rfl⟩

theorem matching_injective : (matching t u).Injective := by
  have houtside : ∀ {i j : Nat}, i ∈ t.ids → j ∉ t.ids → matching t u i ≠ matching t u j := by
    intro i j hi hj heq
    have hlt : matching t u i < beyond u.ids := lt_beyond (matching_of_mem h hi).1
    rw [heq, matching, if_neg hj] at hlt
    omega
  intro i j heq
  by_cases hi : i ∈ t.ids <;> by_cases hj : j ∈ t.ids
  · have hplace : t.place i = t.place j := by
      rw [← (matching_of_mem h hi).2, heq, (matching_of_mem h hj).2]
    exact (place_inj hi).1 hplace
  · exact absurd heq (houtside hi hj)
  · exact absurd heq.symm (houtside hj hi)
  · rw [matching, matching, if_neg hi, if_neg hj] at heq
    omega

/-- The renaming by places turns the one type into the other. -/
theorem rename_matching : (t.rename (matching t u)).alike u = true := by
  let back : Assignment := fun k => plain (u.order.getD k 0)
  have herase := alike_iff.1 h
  rw [erase_normalize, erase_normalize] at herase
  rw [alike_iff, erase_rename]
  calc t.assign (fun i => plain (matching t u i))
    _ = t.assign fun i => plain (u.order.getD (t.place i) 0) :=
        assign_congr fun i hi => by rw [matching, if_pos hi]
    _ = (t.assign fun i => plain (t.place i)).assign back :=
        (assign_assign (fun i => plain (t.place i)) back t).symm
    _ = (u.assign fun i => plain (u.place i)).assign back := by rw [herase]
    _ = u.assign fun i => plain (u.order.getD (u.place i) 0) := assign_assign _ _ u
    _ = u.assign plain := assign_congr fun i hi => by rw [getD_place hi]

end Matching

/-! ### Letters -/

/-- The 26 letters differ. -/
theorem letter_char_inj {m n : Nat} (hm : m < 26) (hn : n < 26)
    (h : Char.ofNat ('a'.toNat + m) = Char.ofNat ('a'.toNat + n)) : m = n := by
  have hcode : ∀ k : Fin 26, (Char.ofNat ('a'.toNat + k)).toNat = 97 + k := by decide
  have heq := congrArg Char.toNat h
  rw [hcode ⟨m, hm⟩, hcode ⟨n, hn⟩] at heq
  exact Nat.add_left_cancel heq

/-- A letter, and its round from the second one on. -/
theorem toList_letterName (i : Nat) :
    (letterName i).toList = Char.ofNat ('a'.toNat + i % 26) ::
      if i < 26 then [] else (Nat.repr (i / 26)).toList := by
  rw [letterName]
  split
  · exact String.toList_singleton _
  · rw [String.toList_append, String.toList_singleton]
    rfl

theorem letterName_injective : letterName.Injective := by
  intro i j heq
  have hlists := congrArg String.toList heq
  rw [toList_letterName, toList_letterName, List.cons.injEq] at hlists
  obtain ⟨hletter, hround⟩ := hlists
  have hmod : i % 26 = j % 26 :=
    letter_char_inj (Nat.mod_lt i (by decide)) (Nat.mod_lt j (by decide)) hletter
  have hdigits : ∀ n : Nat, (Nat.repr n).toList ≠ [] := by
    intro n
    rw [Nat.toList_repr]
    exact Nat.toDigits_ne_nil
  have hdiv : i / 26 = j / 26 := by
    by_cases hi : i < 26 <;> by_cases hj : j < 26
    · omega
    · rw [if_pos hi, if_neg hj] at hround
      exact absurd hround.symm (hdigits _)
    · rw [if_neg hi, if_pos hj] at hround
      exact absurd hround (hdigits _)
    · rw [if_neg hi, if_neg hj, Nat.toList_repr, Nat.toList_repr] at hround
      have hvalue := congrArg (fun cs => Nat.ofDigitChars 10 cs 0) hround
      simpa only [Nat.ofDigitChars_ten_toDigits] using hvalue
  omega

/-- **Canonical forms.**  Types have the same normal form exactly when a one-to-one renaming of
    variables turns the one into the other.  Normalizing again changes nothing, not even a hint.
    The variables of a normal form are `0`, `1`, `2`, … by first occurrence, and no two of them
    are printed alike. -/
theorem normalize_canonical (t : Ty) :
    (∀ u : Ty, t.normalize.alike u.normalize = true ↔
        ∃ ρ : Nat → Nat, ρ.Injective ∧ (t.rename ρ).alike u = true) ∧
      t.normalize.normalize = t.normalize ∧
      t.normalize.distinctVars.map TypeVar.id = List.range t.distinctVars.length ∧
      (t.normalize.distinctVars.map TypeVar.render).Nodup := by
  refine ⟨fun u => ?_, normalize_normalize t, ?_, ?_⟩
  · constructor
    · intro h
      exact ⟨matching t u, matching_injective h, rename_matching h⟩
    · rintro ⟨ρ, hρ, h⟩
      exact normalize_alike_of_rename hρ h
  · rw [distinctVars_normalize, List.map_map]
    exact List.map_id _
  · rw [distinctVars_normalize, List.map_map]
    refine List.Nodup.map (fun i j heq => ?_) List.nodup_range
    exact letterName_injective ((String.append_right_inj _).1 heq)

/-- The ids of the normal form are among those of the type, in another order. -/
example : (Ty.func (.var ⟨1, none⟩) (.func (.var ⟨0, some "k"⟩) (.var ⟨1, none⟩))).normalize =
    .func (.var ⟨0, some "a"⟩) (.func (.var ⟨1, some "b"⟩) (.var ⟨0, some "a"⟩)) := by decide

end Ty

end CoreCalculus
