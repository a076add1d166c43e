/-
  CoreCalculus/Proofs/Solution.lean
  =================================
  **What a solution says**, and that resolving and closing keep it.

  A solution holds at an assignment when the assignment makes every bound variable
  equal to its value (`HoldsAt`).  Resolving a type and hopping once change no
  value under such an assignment.

  Both end because bindings are acyclic: there is a rank that falls from each
  bound variable to the bound variables of its value.  A hop adds the ranks of two
  steps, so the distance between the ranks (`Spaced`) grows until no bound variable
  is left in any value.
-/
import Mathlib.Data.Finset.Lattice.Fold
import CoreCalculus.Proofs.Assignment
import CoreCalculus.Proofs.Fuel
import CoreCalculus.Ty.Solution

namespace CoreCalculus

/-! ### Replacing variables that may have no type -/

theorem Ty.isSome_of_subst? {f : TypeVar → Option Ty} {t u : Ty} (h : t.subst? f = some u) :
    ∀ v ∈ t.vars, (f v).isSome := by
  induction t using Ty.induct generalizing u with
  | var v =>
    intro w hw
    rw [Ty.vars, List.mem_singleton] at hw
    subst hw
    rw [Ty.subst?] at h
    simp [h]
  | const name => simp [Ty.vars]
  | func a b iha ihb | prod a b iha ihb | app a b iha ihb =>
    rw [Ty.subst?] at h
    obtain ⟨a', ha, h⟩ := Option.bind_eq_some_iff.1 h
    obtain ⟨b', hb, -⟩ := Option.bind_eq_some_iff.1 h
    intro v hv
    rw [Ty.vars, List.mem_append] at hv
    rcases hv with hv | hv
    · exact iha ha v hv
    · exact ihb hb v hv
  | adt name ts ih =>
    rw [Ty.subst?] at h
    obtain ⟨us, hus, -⟩ := Option.bind_eq_some_iff.1 h
    rw [Ty.vars]
    clear h
    induction ts generalizing us with
    | nil => simp [Ty.varsAll]
    | cons t ts ihs =>
      rw [List.forall_mem_cons] at ih
      rw [Ty.substAll?] at hus
      obtain ⟨t', ht, hus⟩ := Option.bind_eq_some_iff.1 hus
      obtain ⟨ts', hts, -⟩ := Option.bind_eq_some_iff.1 hus
      intro v hv
      rw [Ty.varsAll, List.mem_append] at hv
      rcases hv with hv | hv
      · exact ih.1 ht v hv
      · exact ihs ih.2 ts' hts v hv

/-- Replacing succeeds when every variable gets a type, and then puts these in. -/
theorem Ty.subst?_eq_some_iff {f : TypeVar → Option Ty} {t u : Ty} :
    t.subst? f = some u ↔
      (∀ v ∈ t.vars, (f v).isSome) ∧ u = t.subst fun v => (f v).getD (.var v) := by
  have hsome : (∀ v ∈ t.vars, (f v).isSome) →
      t.subst? f = some (t.subst fun v => (f v).getD (.var v)) := by
    intro h
    refine Ty.subst?_eq_some fun v hv => ?_
    obtain ⟨x, hx⟩ := Option.isSome_iff_exists.1 (h v hv)
    simp [hx]
  constructor
  · intro h
    have hall := Ty.isSome_of_subst? h
    rw [hsome hall] at h
    exact ⟨hall, (Option.some.inj h).symm⟩
  · rintro ⟨hall, rfl⟩
    exact hsome hall

namespace Solution

variable {s : Solution} {θ : Assignment} {i : Nat} {t u : Ty}

/-! ### Statements about solutions -/

/-- `θ` makes every bound variable equal to its value. -/
def HoldsAt (s : Solution) (θ : Assignment) : Prop :=
  ∀ i t, s.get? i = some t → θ i = t.assign θ

/-- All ids, bound or mentioned, satisfy `P`. -/
def Within (P : Nat → Prop) (s : Solution) : Prop :=
  ∀ i t, s.get? i = some t → P i ∧ ∀ j ∈ t.ids, P j

/-- The ids that are bound or mentioned. -/
def ids (s : Solution) : List Nat := s.keys ++ s.values.flatMap Ty.ids

/-- No value mentions a bound variable. -/
def Closed (s : Solution) : Prop := ∀ i t, s.get? i = some t → ∀ j ∈ t.ids, s.get? j = none

/-- From a bound variable to the bound variables of its value the rank falls by `k` or more. -/
def Spaced (rank : Nat → Nat) (k : Nat) (s : Solution) : Prop :=
  ∀ i t, s.get? i = some t → ∀ j ∈ t.ids, s.get? j ≠ none → rank j + k ≤ rank i

/-- Some rank falls along the bindings. -/
def Acyclic (s : Solution) : Prop := ∃ rank, s.Spaced rank 1

theorem isResolved_iff : s.isResolved = true ↔ s.Closed := by
  simp only [isResolved, Closed, List.all_eq_true, Table.values, List.mem_map, Table.contains,
    Bool.not_eq_true', Option.isSome_eq_false_iff, Option.isNone_iff_eq_none, Ty.mem_ids]
  constructor
  · rintro h i t ht j ⟨v, hv, rfl⟩
    exact h t ⟨(i, t), Table.get?_eq_some_iff.1 ht, rfl⟩ v hv
  · rintro h t ⟨e, he, rfl⟩ v hv
    exact h e.1 e.2 (Table.get?_eq_some_iff.2 he) v.id ⟨v, hv, rfl⟩

theorem Closed.acyclic (h : s.Closed) : s.Acyclic :=
  ⟨fun _ => 0, fun i t ht j hj hne => absurd (h i t ht j hj) hne⟩

theorem closed_empty : Closed .empty := by
  intro i t ht
  simp at ht

theorem holdsAt_empty : HoldsAt .empty θ := by
  intro i t ht
  simp at ht

theorem within_empty (P : Nat → Prop) : Within P .empty := by
  intro i t ht
  simp at ht

theorem within_iff {P : Nat → Prop} : s.Within P ↔ ∀ i ∈ s.ids, P i := by
  simp only [ids, List.mem_append, List.mem_flatMap, Table.keys, Table.values, List.mem_map]
  constructor
  · rintro h i (⟨e, he, rfl⟩ | ⟨_, ⟨e, he, rfl⟩, hi⟩)
    · exact (h e.1 e.2 (Table.get?_eq_some_iff.2 he)).1
    · exact (h e.1 e.2 (Table.get?_eq_some_iff.2 he)).2 i hi
  · intro h i t ht
    have he := Table.get?_eq_some_iff.1 ht
    exact ⟨h i (.inl ⟨_, he, rfl⟩), fun j hj => h j (.inr ⟨t, ⟨_, he, rfl⟩, hj⟩)⟩

theorem Within.mono {P Q : Nat → Prop} (hPQ : ∀ i, P i → Q i) (h : s.Within P) : s.Within Q := by
  intro i t ht
  exact ⟨hPQ i (h i t ht).1, fun j hj => hPQ j ((h i t ht).2 j hj)⟩

/-- What a closed solution gives each variable, without hints. -/
def canonical (s : Solution) : Assignment :=
  fun i => ((s.get? i).getD (.var ⟨i, none⟩)).erase

theorem canonical_of_unbound (h : s.get? i = none) : s.canonical i = .var ⟨i, none⟩ := by
  rw [canonical, h]
  rfl

theorem assign_canonical_of_unbound (h : ∀ j ∈ t.ids, s.get? j = none) :
    t.assign s.canonical = t.erase := by
  rw [Ty.erase_eq_assign]
  exact Ty.assign_congr fun j hj => canonical_of_unbound (h j hj)

/-- A closed solution holds at the assignment it describes. -/
theorem Closed.holdsAt_canonical (h : s.Closed) : s.HoldsAt s.canonical := by
  intro i t ht
  rw [assign_canonical_of_unbound (h i t ht), canonical, ht]
  rfl

theorem erase_canonical (s : Solution) (i : Nat) : (s.canonical i).erase = s.canonical i :=
  Ty.erase_erase _

/-- Where a solution holds, it is an instance of what the solution describes. -/
theorem HoldsAt.assign_canonical (h : s.HoldsAt θ) (i : Nat) : (s.canonical i).assign θ = θ i := by
  rw [canonical, Ty.assign_erase]
  rcases hi : s.get? i with _ | t
  · rfl
  · exact (h i t hi).symm

/-! ### Binding one more variable -/

theorem holdsAt_insert (hi : s.get? i = none) :
    HoldsAt (s.insert i t) θ ↔ s.HoldsAt θ ∧ θ i = t.assign θ := by
  constructor
  · intro h
    refine ⟨fun j u hu => h j u ?_, h i t ?_⟩
    · have hji : j ≠ i := by
        rintro rfl
        simp [hi] at hu
      rw [Table.get?_insert, if_neg hji, hu]
    · rw [Table.get?_insert, if_pos rfl]
  · rintro ⟨hs, ht⟩ j u hu
    rw [Table.get?_insert] at hu
    split at hu
    · rename_i hji
      cases hu
      rw [hji, ht]
    · exact hs j u hu

theorem Within.insert {P : Nat → Prop} (h : s.Within P) (hi : P i) (ht : ∀ j ∈ t.ids, P j) :
    Within P (s.insert i t) := by
  intro j u hu
  rw [Table.get?_insert] at hu
  split at hu
  · rename_i hji
    cases hu
    exact ⟨hji ▸ hi, ht⟩
  · exact h j u hu

/-- Binding a variable to a type without bound variables makes no cycle, if the variable is not
    in the type. -/
theorem Acyclic.insert (h : s.Acyclic) (hi : i ∉ t.ids) (ht : ∀ j ∈ t.ids, s.get? j = none) :
    Acyclic (s.insert i t) := by
  obtain ⟨rank, hrank⟩ := h
  -- the new variable goes below all others, since its value has no bound variable
  refine ⟨fun j => if j = i then 0 else rank j + 1, fun j u hu k hk hbound => ?_⟩
  rw [Table.get?_insert] at hu hbound
  split at hu
  · cases hu
    have hki : k ≠ i := by
      rintro rfl
      exact hi hk
    rw [if_neg hki] at hbound
    exact absurd (ht k hk) hbound
  · rename_i hji
    by_cases hki : k = i
    · simp [hki, hji]
    · rw [if_neg hki] at hbound
      have := hrank j u hu k hk hbound
      simp only [if_neg hji, if_neg hki]
      omega

/-! ### Resolving -/

theorem resolve_succ (s : Solution) (n : Nat) (t : Ty) :
    s.resolve (n + 1) t = t.subst? fun v =>
      match s.get? v.id with
      | some bound => s.resolve n bound
      | none => some (.var v) := rfl

theorem resolve_mono (s : Solution) (n : Nat) (t u : Ty) (h : s.resolve n t = some u) :
    s.resolve (n + 1) t = some u := by
  induction n generalizing t u with
  | zero => simp [resolve] at h
  | succ n ih =>
    rw [resolve_succ, Ty.subst?_eq_some_iff] at h ⊢
    obtain ⟨hsome, rfl⟩ := h
    have hstep : ∀ v ∈ t.vars,
        (match s.get? v.id with
          | some bound => s.resolve (n + 1) bound
          | none => some (.var v)) =
        (match s.get? v.id with
          | some bound => s.resolve n bound
          | none => some (.var v)) := by
      intro v hv
      have hv := hsome v hv
      rcases hb : s.get? v.id with _ | b
      · rfl
      · simp only [hb] at hv
        obtain ⟨x, hx⟩ := Option.isSome_iff_exists.1 hv
        simp only [hx, ih b x hx]
    refine ⟨fun v hv => ?_, Ty.subst_congr fun v hv => ?_⟩
    · rw [hstep v hv]
      exact hsome v hv
    · rw [hstep v hv]

theorem settles_resolve {n : Nat} (h : s.resolve n t = some u) :
    Settles (fun n => s.resolve n t) u :=
  .of_mono (fun n u h => resolve_mono s n t u h) h

/-- A resolved type has no bound variable. -/
theorem unbound_of_resolve {n : Nat} (h : s.resolve n t = some u) :
    ∀ j ∈ u.ids, s.get? j = none := by
  induction n generalizing t u with
  | zero => simp [resolve] at h
  | succ n ih =>
    rw [resolve_succ, Ty.subst?_eq_some_iff] at h
    obtain ⟨hsome, rfl⟩ := h
    intro j hj
    rw [Ty.mem_ids_subst] at hj
    obtain ⟨v, hv, hj⟩ := hj
    have hv := hsome v hv
    rcases hb : s.get? v.id with _ | b
    · simp only [hb, Option.getD_some, Ty.ids_var, List.mem_singleton] at hj
      rw [hj, hb]
    · simp only [hb] at hv hj
      obtain ⟨x, hx⟩ := Option.isSome_iff_exists.1 hv
      rw [hx, Option.getD_some] at hj
      exact ih hx j hj

/-- Where the solution holds, a type and its resolved form are the same. -/
theorem assign_resolve {n : Nat} (h : s.resolve n t = some u) (hθ : s.HoldsAt θ) :
    u.assign θ = t.assign θ := by
  induction n generalizing t u with
  | zero => simp [resolve] at h
  | succ n ih =>
    rw [resolve_succ, Ty.subst?_eq_some_iff] at h
    obtain ⟨hsome, rfl⟩ := h
    rw [Ty.assign_subst]
    refine Ty.subst_eq_assign fun v hv => ?_
    have hv := hsome v hv
    rcases hb : s.get? v.id with _ | b
    · rfl
    · simp only [hb] at hv ⊢
      obtain ⟨x, hx⟩ := Option.isSome_iff_exists.1 hv
      rw [hx, Option.getD_some, ih hx]
      exact (hθ v.id b hb).symm

theorem Within.resolve {P : Nat → Prop} {n : Nat} (hs : s.Within P) (ht : ∀ j ∈ t.ids, P j)
    (h : s.resolve n t = some u) : ∀ j ∈ u.ids, P j := by
  induction n generalizing t u with
  | zero => simp [Solution.resolve] at h
  | succ n ih =>
    rw [resolve_succ, Ty.subst?_eq_some_iff] at h
    obtain ⟨hsome, rfl⟩ := h
    intro j hj
    rw [Ty.mem_ids_subst] at hj
    obtain ⟨v, hv, hj⟩ := hj
    have hv' := hsome v hv
    rcases hb : s.get? v.id with _ | b
    · simp only [hb, Option.getD_some, Ty.ids_var, List.mem_singleton] at hj
      exact ht j (Ty.mem_ids.2 ⟨v, hv, hj.symm⟩)
    · simp only [hb] at hv' hj
      obtain ⟨x, hx⟩ := Option.isSome_iff_exists.1 hv'
      rw [hx, Option.getD_some] at hj
      exact ih (hs v.id b hb).2 hx j hj

/-- A type without bound variables is resolved as it is. -/
theorem settles_resolve_self (h : ∀ j ∈ t.ids, s.get? j = none) :
    Settles (fun n => s.resolve n t) t := by
  have hself : s.resolve 1 t = some (t.subst .var) := Ty.subst?_eq_some fun v hv => by
    rw [h v.id (Ty.mem_ids.2 ⟨v, hv, rfl⟩)]
  rw [Ty.subst_var] at hself
  exact settles_resolve hself

/-- Resolving ends: fuel above all ranks in play suffices. -/
theorem Spaced.exists_resolve {rank : Nat → Nat} (h : s.Spaced rank 1) (n : Nat)
    (ht : ∀ j ∈ t.ids, s.get? j ≠ none → rank j < n) : ∃ u, s.resolve (n + 1) t = some u := by
  induction n generalizing t with
  | zero =>
    refine ⟨_, Ty.subst?_eq_some_iff.2 ⟨fun v hv => ?_, rfl⟩⟩
    have hunbound : s.get? v.id = none := by
      by_contra hne
      exact absurd (ht v.id (Ty.mem_ids.2 ⟨v, hv, rfl⟩) hne) (Nat.not_lt_zero _)
    simp [hunbound]
  | succ n ih =>
    refine ⟨_, Ty.subst?_eq_some_iff.2 ⟨fun v hv => ?_, rfl⟩⟩
    rcases hb : s.get? v.id with _ | b
    · rfl
    · have hv : rank v.id < n + 1 := ht v.id (Ty.mem_ids.2 ⟨v, hv, rfl⟩) (by simp [hb])
      have hbelow : ∀ j ∈ b.ids, s.get? j ≠ none → rank j < n := by
        intro j hj hne
        have := h v.id b hb j hj hne
        omega
      obtain ⟨u, hu⟩ := ih hbelow
      simp [hu]

theorem Acyclic.settles_resolve (h : s.Acyclic) (t : Ty) :
    ∃ u, Settles (fun n => s.resolve n t) u := by
  obtain ⟨rank, hrank⟩ := h
  have hbound : ∀ j ∈ t.ids, s.get? j ≠ none → rank j < t.ids.toFinset.sup rank + 1 := by
    intro j hj _
    have : rank j ≤ t.ids.toFinset.sup rank := Finset.le_sup (List.mem_toFinset.2 hj)
    omega
  obtain ⟨u, hu⟩ := hrank.exists_resolve _ hbound
  exact ⟨u, Solution.settles_resolve hu⟩

/-! ### Hopping once -/

theorem get?_oneHop (s : Solution) (i : Nat) :
    (oneHop s).get? i = (s.get? i).map (Ty.replace s) := Table.get?_map _ _ _

theorem assign_replace (hθ : s.HoldsAt θ) (t : Ty) : (t.replace s).assign θ = t.assign θ := by
  rw [Ty.replace, Ty.assign_subst]
  refine Ty.subst_eq_assign fun v _ => ?_
  rcases hb : s.get? v.id with _ | b
  · rfl
  · exact (hθ v.id b hb).symm

theorem mem_ids_replace {j : Nat} (h : j ∈ (t.replace s).ids) :
    (j ∈ t.ids ∧ s.get? j = none) ∨ ∃ k ∈ t.ids, ∃ b, s.get? k = some b ∧ j ∈ b.ids := by
  rw [Ty.replace, Ty.mem_ids_subst] at h
  obtain ⟨v, hv, hj⟩ := h
  have hmem : v.id ∈ t.ids := Ty.mem_ids.2 ⟨v, hv, rfl⟩
  rcases hb : s.get? v.id with _ | b
  · rw [hb, Option.getD_none, Ty.ids_var, List.mem_singleton] at hj
    exact .inl ⟨hj ▸ hmem, hj ▸ hb⟩
  · rw [hb, Option.getD_some] at hj
    exact .inr ⟨v.id, hmem, b, hb, hj⟩

theorem Within.oneHop {P : Nat → Prop} (h : s.Within P) : (oneHop s).Within P := by
  intro i t ht
  rw [get?_oneHop] at ht
  obtain ⟨u, hu, rfl⟩ := Option.map_eq_some_iff.1 ht
  refine ⟨(h i u hu).1, fun j hj => ?_⟩
  rcases mem_ids_replace hj with ⟨hj, -⟩ | ⟨k, -, b, hb, hj⟩
  · exact (h i u hu).2 j hj
  · exact (h k b hb).2 j hj

/-- A hop adds two distances. -/
theorem Spaced.oneHop {rank : Nat → Nat} {k : Nat} (h : s.Spaced rank k) :
    (oneHop s).Spaced rank (k + k) := by
  intro i t ht j hj hbound
  rw [get?_oneHop] at ht hbound
  obtain ⟨u, hu, rfl⟩ := Option.map_eq_some_iff.1 ht
  have hj' : s.get? j ≠ none := fun hnone => hbound (by rw [hnone]; rfl)
  rcases mem_ids_replace hj with ⟨-, hnone⟩ | ⟨l, hl, b, hb, hj⟩
  · exact absurd hnone hj'
  · have hfirst := h i u hu l hl (by simp [hb])
    have hsecond := h l b hb j hj hj'
    omega

/-- A hop does not change where an acyclic solution holds. -/
theorem holdsAt_oneHop (hs : s.Acyclic) : (oneHop s).HoldsAt θ ↔ s.HoldsAt θ := by
  obtain ⟨rank, hrank⟩ := hs
  constructor
  · intro h
    -- by rank, since what is hopped over has to hold already
    have hbelow : ∀ n i t, s.get? i = some t → rank i < n → θ i = t.assign θ := by
      intro n
      induction n with
      | zero => intro i t _ hi; exact absurd hi (Nat.not_lt_zero _)
      | succ n ih =>
        intro i t ht hi
        have hhop : θ i = (t.replace s).assign θ := h i _ (by rw [get?_oneHop, ht]; rfl)
        rw [hhop, Ty.replace, Ty.assign_subst]
        refine Ty.subst_eq_assign fun v hv => ?_
        rcases hb : s.get? v.id with _ | b
        · rfl
        · have hlt := hrank i t ht v.id (Ty.mem_ids.2 ⟨v, hv, rfl⟩) (by simp [hb])
          exact (ih v.id b hb (by omega)).symm
    intro i t ht
    exact hbelow (rank i + 1) i t ht (Nat.lt_succ_self _)
  · intro h i t ht
    rw [get?_oneHop] at ht
    obtain ⟨u, hu, rfl⟩ := Option.map_eq_some_iff.1 ht
    rw [assign_replace h, h i u hu]

/-! ### Closing -/

theorem agrees_map_iff {α : Type} {eq : α → α → Bool} {f : α → α} {t : Table Nat α} :
    (t.map f).agrees eq t = true ↔ ∀ k a, t.get? k = some a → eq (f a) a = true := by
  have hsize : (t.map f).size = t.size := by simp [Table.size, Table.map]
  simp only [Table.agrees, hsize, beq_self_eq_true, Bool.true_and, List.all_eq_true]
  constructor
  · intro h k a hk
    have hmem : (k, f a) ∈ (t.map f).entries := by
      rw [← Table.get?_eq_some_iff, Table.get?_map, hk]
      rfl
    have := h (k, f a) hmem
    simpa [hk] using this
  · intro h e he
    have he : (t.map f).get? e.1 = some e.2 := Table.get?_eq_some_iff.2 he
    rw [Table.get?_map] at he
    obtain ⟨a, ha, hfa⟩ := Option.map_eq_some_iff.1 he
    rw [ha, ← hfa]
    exact h e.1 a ha

/-- A hop changes nothing but hints exactly when the solution is closed already. -/
theorem agrees_oneHop_iff (hs : s.Acyclic) : (oneHop s).agrees Ty.alike s = true ↔ s.Closed := by
  rw [oneHop, agrees_map_iff]
  constructor
  · intro h i t ht j hj
    obtain ⟨v, hv, rfl⟩ := Ty.mem_ids.1 hj
    rcases hb : s.get? v.id with _ | b
    · rfl
    · -- the variable would be replaced by itself, and stand above itself
      have hself := Ty.erase_eq_of_subst_alike (h i t ht) v hv
      rw [hb, Option.getD_some] at hself
      have hmem : v.id ∈ b.ids := by
        rw [← Ty.ids_erase, hself]
        exact List.mem_singleton_self _
      obtain ⟨rank, hrank⟩ := hs
      have := hrank v.id b hb v.id hmem (by simp [hb])
      omega
  · intro h i t ht
    have hself : t.replace s = t.subst .var := Ty.subst_congr fun v hv => by
      rw [h i t ht v.id (Ty.mem_ids.2 ⟨v, hv, rfl⟩)]
      rfl
    rw [hself, Ty.subst_var]
    exact Ty.alike_refl t

theorem close_succ (s : Solution) (n : Nat) :
    s.close (n + 1) =
      if (oneHop s).agrees Ty.alike s then some s else (oneHop s).close n := rfl

theorem close_mono (n : Nat) (s t : Solution) (h : s.close n = some t) :
    s.close (n + 1) = some t := by
  induction n generalizing s with
  | zero => simp [close] at h
  | succ n ih =>
    rw [close_succ] at h ⊢
    split
    · rename_i hagrees
      rwa [if_pos hagrees] at h
    · rename_i hagrees
      rw [if_neg hagrees] at h
      exact ih _ h

/-- Closing `s` ends in `c`, which says what `s` says: it holds where `s` does, binds the same
    variables and mentions no new ones. -/
structure ClosesTo (s c : Solution) : Prop where
  settles : Settles (fun n => s.close n) c
  closed : c.Closed
  holdsAt_iff : ∀ θ, c.HoldsAt θ ↔ s.HoldsAt θ
  unbound_iff : ∀ i, c.get? i = none ↔ s.get? i = none
  within : ∀ P, s.Within P → c.Within P

theorem Closed.closesTo (h : s.Closed) : s.ClosesTo s where
  settles := by
    refine .of_succ (.of_forall fun n => ?_)
    rw [close_succ, if_pos ((agrees_oneHop_iff h.acyclic).2 h)]
  closed := h
  holdsAt_iff _ := Iff.rfl
  unbound_iff _ := Iff.rfl
  within _ h := h

theorem ClosesTo.of_oneHop {c : Solution} (hs : s.Acyclic) (hopen : ¬ s.Closed)
    (h : (oneHop s).ClosesTo c) : s.ClosesTo c where
  settles := by
    refine .of_succ (.congr (fun n => ?_) h.settles)
    rw [close_succ, if_neg fun hagrees => hopen ((agrees_oneHop_iff hs).1 hagrees)]
  closed := h.closed
  holdsAt_iff θ := by rw [h.holdsAt_iff, holdsAt_oneHop hs]
  unbound_iff i := by rw [h.unbound_iff, get?_oneHop, Option.map_eq_none_iff]
  within P hP := h.within P hP.oneHop

theorem Spaced.mono {rank : Nat → Nat} {k l : Nat} (hkl : k ≤ l) (h : s.Spaced rank l) :
    s.Spaced rank k := by
  intro i t ht j hj hbound
  have := h i t ht j hj hbound
  omega

/-- Closing ends, since each round widens the distance and the distance cannot exceed the
    largest rank. -/
theorem Spaced.exists_closesTo {rank : Nat → Nat} {bound : Nat} (rounds : Nat) {k : Nat}
    (hk : 1 ≤ k) (hlt : bound < rounds + k) (h : s.Spaced rank k)
    (hbound : ∀ i t, s.get? i = some t → rank i ≤ bound) : ∃ c, s.ClosesTo c := by
  induction rounds generalizing k s with
  | zero =>
    refine ⟨s, Closed.closesTo fun i t ht j hj => ?_⟩
    by_contra hne
    have := h i t ht j hj hne
    have := hbound i t ht
    omega
  | succ rounds ih =>
    by_cases hclosed : s.Closed
    · exact ⟨s, hclosed.closesTo⟩
    · have hhop : ∀ i t, (Solution.oneHop s).get? i = some t → rank i ≤ bound := by
        intro i t ht
        rw [get?_oneHop] at ht
        obtain ⟨t, ht, -⟩ := Option.map_eq_some_iff.1 ht
        exact hbound i t ht
      obtain ⟨c, hc⟩ := ih (by omega) (by omega) h.oneHop hhop
      exact ⟨c, .of_oneHop ⟨rank, h.mono hk⟩ hclosed hc⟩

theorem Acyclic.exists_closesTo (hs : s.Acyclic) : ∃ c, s.ClosesTo c := by
  obtain ⟨rank, hrank⟩ := hs
  have hbound : ∀ i t, s.get? i = some t → rank i ≤ s.keys.toFinset.sup rank := by
    intro i t ht
    refine Finset.le_sup (List.mem_toFinset.2 ?_)
    by_contra hmem
    rw [Table.get?_eq_none_iff.2 hmem] at ht
    cases ht
  exact hrank.exists_closesTo (s.keys.toFinset.sup rank) (Nat.le_refl 1) (by omega) hbound

end Solution

end CoreCalculus
