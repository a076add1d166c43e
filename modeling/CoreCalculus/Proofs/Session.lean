/-
  CoreCalculus/Proofs/Session.lean
  ================================
  **What a step of a type-checking session means.**

  A check stands for a relation between assignments and values: `Denotes k m D` says
  what running `m` from the session `k` has to do with `D`.

  * When `m` yields `a`, every assignment that the new session admits is one that the
    old session admits, and relates to the value it gives `a`.  The other way round, for
    every admitted assignment and every value related to it, the variables minted by `m`
    can be assigned so that the new session admits it and gives `a` that value.
  * When `m` fails, no admitted assignment relates to any value.

  So a yield is both sound and most general, and a failure is justified.  The relation
  of a sequence is the composition of the relations, provided that what comes later
  does not look at variables that are minted on the way.
-/
import CoreCalculus.Proofs.OpenContext
import CoreCalculus.Proofs.Unification
import CoreCalculus.Typing.Inference

namespace CoreCalculus

/-! ### Values with type variables -/

/-- Values that an assignment acts on, through the ids that they mention. -/
class Assignable (α : Type) where
  assign : Assignment → α → α
  ids : α → List Nat
  assign_congr : ∀ {θ θ' : Assignment} {a : α}, (∀ i ∈ ids a, θ i = θ' i) →
    assign θ a = assign θ' a

namespace Assignable

instance : Assignable Ty := ⟨Ty.assign, Ty.ids, Ty.assign_congr⟩

instance : Assignable Scheme :=
  ⟨Scheme.subst, Scheme.ids, fun h => Scheme.subst_congr fun i hi =>
    h i (Scheme.mem_ids_of_mem_freeIds hi)⟩

instance : Assignable Unit := ⟨fun _ _ => (), fun _ => [], fun _ => rfl⟩

instance : Assignable String := ⟨fun _ name => name, fun _ => [], fun _ => rfl⟩

variable {α β : Type} [Assignable α] [Assignable β]

instance : Assignable (α × β) where
  assign θ e := (assign θ e.1, assign θ e.2)
  ids e := ids e.1 ++ ids e.2
  assign_congr h := Prod.ext (assign_congr fun i hi => h i (List.mem_append_left _ hi))
    (assign_congr fun i hi => h i (List.mem_append_right _ hi))

instance : Assignable (List α) where
  assign θ as := as.map (assign θ)
  ids as := as.flatMap ids
  assign_congr h := List.map_congr_left fun a ha =>
    assign_congr fun i hi => h i (List.mem_flatMap.2 ⟨a, ha, hi⟩)

theorem assign_append (θ : Assignment) (as bs : List α) :
    assign θ (as ++ bs) = assign θ as ++ assign θ bs := List.map_append

theorem ids_append (as bs : List α) : ids (as ++ bs) = ids as ++ ids bs := List.flatMap_append

end Assignable

open Assignable

/-! ### Sessions -/

/-- The assignments agree on all ids below `n`. -/
def AgreeBelow (n : Nat) (θ θ' : Assignment) : Prop := ∀ i < n, θ i = θ' i

theorem AgreeBelow.refl (n : Nat) (θ : Assignment) : AgreeBelow n θ θ := fun _ _ => rfl

theorem AgreeBelow.trans {n n' : Nat} {θ θ' θ'' : Assignment} (h : AgreeBelow n θ θ')
    (hn : n ≤ n') (h' : AgreeBelow n' θ' θ'') : AgreeBelow n θ θ'' := fun i hi =>
  (h i hi).trans (h' i (Nat.lt_of_lt_of_le hi hn))

theorem AgreeBelow.assign_eq {α : Type} [Assignable α] {n : Nat} {θ θ' : Assignment}
    (h : AgreeBelow n θ θ') {a : α} (ha : ∀ i ∈ ids a, i < n) : assign θ a = assign θ' a :=
  assign_congr fun i hi => h i (ha i hi)

theorem AgreeBelow.assign_ty_eq {n : Nat} {θ θ' : Assignment} (h : AgreeBelow n θ θ') {t : Ty}
    (ht : ∀ i ∈ t.ids, i < n) : t.assign θ = t.assign θ' := h.assign_eq ht

namespace Checker

/-- The assignments that a session admits. -/
def Admits (k : Checker) (θ : Assignment) : Prop := k.solution.HoldsAt θ

/-- No id has been used but those minted, and no id will be minted again. -/
structure Valid (k : Checker) : Prop where
  closed : k.solution.Closed
  within : k.solution.Within (· < k.supply.next)
  unbounded : k.counting = .unbounded

theorem Valid.admits_of_agree {k : Checker} (hk : k.Valid) {θ θ' : Assignment}
    (h : AgreeBelow k.supply.next θ θ') (hθ : k.Admits θ) : k.Admits θ' := by
  intro i t ht
  obtain ⟨hi, hids⟩ := hk.within i t ht
  rw [← h i hi, hθ i t ht]
  exact h.assign_eq hids

theorem valid_ofContext (c : Context) : (ofContext c).Valid :=
  ⟨Solution.closed_empty, Solution.within_empty _, rfl⟩

/-- `k'` comes after `k` in a session. -/
structure Grows (k k' : Checker) : Prop where
  valid : k'.Valid
  le : k.supply.next ≤ k'.supply.next
  admits : ∀ θ, k'.Admits θ → k.Admits θ

theorem Valid.grows {k : Checker} (hk : k.Valid) : k.Grows k :=
  ⟨hk, Nat.le_refl _, fun _ h => h⟩

theorem Grows.trans {k k' k'' : Checker} (h : k.Grows k') (h' : k'.Grows k'') : k.Grows k'' :=
  ⟨h'.valid, Nat.le_trans h.le h'.le, fun θ hθ => h.admits θ (h'.admits θ hθ)⟩

theorem Grows.lt {k k' : Checker} (h : k.Grows k') {ids : List Nat}
    (hids : ∀ i ∈ ids, i < k.supply.next) : ∀ i ∈ ids, i < k'.supply.next := fun i hi =>
  Nat.lt_of_lt_of_le (hids i hi) h.le

/-! ### Relations of checks -/

section

variable {α β : Type} [Assignable α] [Assignable β]

/-- From `k` the check yields `a` and goes on at `k'`, soundly and most generally. -/
structure Yields (k : Checker) (m : Nat → Check α) (D : Assignment → α → Prop) (a : α)
    (k' : Checker) : Prop where
  settles : Settles (fun n => m n k) (.ok a, k')
  grows : k.Grows k'
  lt : ∀ i ∈ ids a, i < k'.supply.next
  sound : ∀ θ, k'.Admits θ → D θ (assign θ a)
  complete : ∀ θ b, k.Admits θ → D θ b →
    ∃ θ', AgreeBelow k.supply.next θ θ' ∧ k'.Admits θ' ∧ assign θ' a = b

/-- From `k` the check stands for `D`. -/
def Denotes (k : Checker) (m : Nat → Check α) (D : Assignment → α → Prop) : Prop :=
  (∃ a k', Yields k m D a k') ∨
    ∃ e k', Settles (fun n => m n k) (.error e, k') ∧ ∀ θ b, k.Admits θ → ¬ D θ b

namespace Denotes

variable {k : Checker} {m : Nat → Check α} {f : Nat → α → Check β} {D D' : Assignment → α → Prop}

theorem congr (h : Denotes k m D) (hD : ∀ θ, k.Admits θ → ∀ b, D θ b ↔ D' θ b) :
    Denotes k m D' := by
  rcases h with ⟨a, k', h⟩ | ⟨e, k', h, hno⟩
  · refine .inl ⟨a, k', h.settles, h.grows, h.lt, fun θ hθ => ?_, fun θ b hθ hb => ?_⟩
    · exact (hD θ (h.grows.admits θ hθ) _).1 (h.sound θ hθ)
    · exact h.complete θ b hθ ((hD θ hθ b).2 hb)
  · exact .inr ⟨e, k', h, fun θ b hθ hb => hno θ b hθ ((hD θ hθ b).2 hb)⟩

/-- What a check stands for depends on what it settles on. -/
theorem of_settles {m' : Nat → Check α} (h : Denotes k m D)
    (hm : ∀ r, Settles (fun n => m n k) r → Settles (fun n => m' n k) r) : Denotes k m' D := by
  rcases h with ⟨a, k', h⟩ | ⟨e, k', h, hno⟩
  · exact .inl ⟨a, k', hm _ h.settles, h.grows, h.lt, h.sound, h.complete⟩
  · exact .inr ⟨e, k', hm _ h, hno⟩

theorem pure (hk : k.Valid) {a : α} (ha : ∀ i ∈ ids a, i < k.supply.next) :
    Denotes k (fun _ => Pure.pure a) fun θ b => b = assign θ a := by
  refine .inl ⟨a, k, .of_forall fun _ => rfl, hk.grows, ha, fun θ _ => rfl, fun θ b hθ hb => ?_⟩
  exact ⟨θ, .refl _ θ, hθ, hb.symm⟩

theorem fail (e : TypeError) (hD : ∀ θ b, k.Admits θ → ¬ D θ b) :
    Denotes k (fun _ => Run.fail e) D :=
  .inr ⟨e, k, .of_forall fun _ => rfl, hD⟩

/-- Sequences.  What comes after `m` must not look at what `m` mints. -/
theorem bind (D₂ : Assignment → α → β → Prop) (hm : Denotes k m D)
    (hlocal : ∀ θ θ' a b, AgreeBelow k.supply.next θ θ' → D₂ θ a b → D₂ θ' a b)
    (hf : ∀ a k', k.Grows k' → (∀ i ∈ ids a, i < k'.supply.next) →
      (∀ θ, k'.Admits θ → D θ (assign θ a)) →
      Denotes k' (fun n => f n a) fun θ b => D₂ θ (assign θ a) b) :
    Denotes k (fun n => m n >>= f n) fun θ b => ∃ a, D θ a ∧ D₂ θ a b := by
  rcases hm with ⟨a, k₁, h₁⟩ | ⟨e, k₁, hm, hno⟩
  · rcases hf a k₁ h₁.grows h₁.lt h₁.sound with ⟨b, k₂, h₂⟩ | ⟨e, k₂, hf, hno⟩
    · refine .inl ⟨b, k₂, Run.settles_bind h₁.settles h₂.settles, h₁.grows.trans h₂.grows, h₂.lt,
        fun θ hθ => ?_, fun θ b' hθ hb => ?_⟩
      · exact ⟨_, h₁.sound θ (h₂.grows.admits θ hθ), h₂.sound θ hθ⟩
      · obtain ⟨x, hx, hb⟩ := hb
        obtain ⟨θ₁, hagree₁, hθ₁, rfl⟩ := h₁.complete θ x hθ hx
        obtain ⟨θ₂, hagree₂, hθ₂, rfl⟩ := h₂.complete θ₁ b' hθ₁ (hlocal _ _ _ _ hagree₁ hb)
        exact ⟨θ₂, hagree₁.trans h₁.grows.le hagree₂, hθ₂, rfl⟩
    · refine .inr ⟨e, k₂, Run.settles_bind h₁.settles hf, fun θ b hθ hb => ?_⟩
      obtain ⟨x, hx, hb⟩ := hb
      obtain ⟨θ₁, hagree₁, hθ₁, rfl⟩ := h₁.complete θ x hθ hx
      exact hno θ₁ b hθ₁ (hlocal _ _ _ _ hagree₁ hb)
  · exact .inr ⟨e, k₁, Run.settles_bind_error hm, fun θ b hθ ⟨x, hx, _⟩ => hno θ x hθ hx⟩

/-- A condition, and what comes after it where it holds. -/
theorem seq {m : Nat → Check Unit} {f : Nat → Check α} {E : Assignment → Prop}
    (hm : Denotes k m fun θ _ => E θ)
    (hlocal : ∀ θ θ' b, AgreeBelow k.supply.next θ θ' → D θ b → D θ' b)
    (hf : ∀ k', k.Grows k' → (∀ θ, k'.Admits θ → E θ) → Denotes k' f D) :
    Denotes k (fun n => m n >>= fun _ => f n) fun θ b => E θ ∧ D θ b := by
  refine (bind (fun θ _ b => D θ b) hm (fun θ θ' _ b h => hlocal θ θ' b h)
    fun _ k' hgrows _ hsound => hf k' hgrows hsound).congr fun θ _ b => ?_
  exact ⟨fun ⟨_, h⟩ => h, fun h => ⟨(), h⟩⟩

/-! ### The steps of a session -/

theorem resolve_bind {f : Nat → Ty → Check α} {t : Ty} (hk : k.Valid)
    (ht : ∀ i ∈ t.ids, i < k.supply.next)
    (hf : ∀ u : Ty, (∀ i ∈ u.ids, i < k.supply.next) →
      (∀ i ∈ u.ids, k.solution.get? i = none) →
      (∀ θ, k.Admits θ → u.assign θ = t.assign θ) → Denotes k (fun n => f n u) D) :
    Denotes k (fun n => resolve n t >>= f n) D := by
  obtain ⟨u, hu⟩ := hk.closed.acyclic.settles_resolve t
  obtain ⟨n, hn⟩ := hu.exists_eq
  have hlt := hk.within.resolve ht hn
  have hunbound := Solution.unbound_of_resolve hn
  have hresolve : Settles (fun n => resolve n t k) (.ok u, k) := by
    filter_upwards [hu] with n hn
    exact congrArg (Option.map _) hn
  exact (hf u hlt hunbound fun θ hθ => Solution.assign_resolve hn hθ).of_settles fun r hr =>
    Run.settles_bind hresolve hr

theorem resolve {t : Ty} (hk : k.Valid) (ht : ∀ i ∈ t.ids, i < k.supply.next) :
    Denotes k (fun n => Checker.resolve n t) fun θ b => b = t.assign θ := by
  obtain ⟨u, hu⟩ := hk.closed.acyclic.settles_resolve t
  obtain ⟨n, hn⟩ := hu.exists_eq
  have hsame : ∀ θ, k.Admits θ → u.assign θ = t.assign θ := fun θ hθ =>
    Solution.assign_resolve hn hθ
  have hpure : Denotes k (fun _ => Pure.pure u) fun θ b => b = u.assign θ :=
    pure hk (hk.within.resolve ht hn)
  refine (hpure.congr fun θ hθ b => by rw [hsame θ hθ]).of_settles fun r hr => ?_
  obtain rfl : r = (.ok u, k) := hr.unique (.of_forall fun _ => rfl)
  filter_upwards [hu] with n hn
  exact congrArg (Option.map _) hn

theorem expect {e f : Ty} (hk : k.Valid) (he : ∀ i ∈ e.ids, i < k.supply.next)
    (hf : ∀ i ∈ f.ids, i < k.supply.next) (t : Term) (onMismatch : Ty → Ty → TypeError) :
    Denotes k (fun n => Checker.expect n e f t onMismatch) fun θ _ => e.assign θ = f.assign θ := by
  rcases Ty.settles_unify hk.closed e f with ⟨s, hs, hclosed, hholds, hkeep⟩ | ⟨err, herr, hno⟩
  · refine .inl ⟨(), { k with solution := s }, ?_, ?_, ?_, fun θ hθ => ?_, fun θ _ hθ h => ?_⟩
    · filter_upwards [hs] with n hn
      simp only [Checker.expect, hn]
    · exact ⟨⟨hclosed, hkeep _ hk.within he hf, hk.unbounded⟩, Nat.le_refl _,
        fun θ hθ => ((hholds θ).1 hθ).1⟩
    · simp [ids]
    · exact ((hholds θ).1 hθ).2
    · exact ⟨θ, .refl _ θ, (hholds θ).2 ⟨hθ, h⟩, rfl⟩
  · have herror : ∃ err', Settles (fun n => Checker.expect n e f t onMismatch k)
        (.error err', k) := by
      cases err with
      | occurs v u =>
        refine ⟨.infiniteType t v u, ?_⟩
        filter_upwards [herr] with n hn
        simp only [Checker.expect, hn]
      | mismatch _ _ =>
        obtain ⟨e', he'⟩ := hk.closed.acyclic.settles_resolve e
        obtain ⟨f', hf'⟩ := hk.closed.acyclic.settles_resolve f
        refine ⟨onMismatch e' f', ?_⟩
        filter_upwards [herr, he', hf'] with n hn hen hfn
        simp only [Checker.expect, hn, hen, hfn, Option.bind_eq_bind, Option.bind_some,
          Option.pure_def]
    obtain ⟨err', herr'⟩ := herror
    exact .inr ⟨err', k, herr', fun θ _ hθ => hno θ hθ⟩

/-- An equation between types, and then a type. -/
theorem expect_resolve {e f t : Ty} (hk : k.Valid) (he : ∀ i ∈ e.ids, i < k.supply.next)
    (hf : ∀ i ∈ f.ids, i < k.supply.next) (ht : ∀ i ∈ t.ids, i < k.supply.next) (blame : Term)
    (onMismatch : Ty → Ty → TypeError) :
    Denotes k
      (fun n => Checker.expect n e f blame onMismatch >>= fun _ => Checker.resolve n t)
      fun θ b => e.assign θ = f.assign θ ∧ b = t.assign θ :=
  seq (expect hk he hf blame onMismatch) (fun _ _ _ hagree hb => hb.trans (hagree.assign_ty_eq ht))
    fun _ hgrows _ => resolve hgrows.valid (hgrows.lt ht)

end Denotes

/-! ### Fresh variables -/

/-- The session after one more id was minted. -/
def mint (k : Checker) : Checker := { k with supply := k.supply.draw.2 }

theorem fresh_eq_mint {k : Checker} (hk : k.counting = .unbounded) :
    fresh k = some (.ok (.var ⟨k.supply.next, none⟩), k.mint) := by
  simp only [fresh, Run.update_apply, mint, hk]
  rfl

theorem Valid.grows_mint {k : Checker} (hk : k.Valid) : k.Grows k.mint :=
  ⟨⟨hk.closed, hk.within.mono fun _ hi => Nat.lt_succ_of_lt hi, hk.unbounded⟩, Nat.le_succ _,
    fun _ h => h⟩

/-- The minted variable may be assigned any type. -/
theorem agreeBelow_update (θ : Assignment) (n : Nat) (t : Ty) :
    AgreeBelow n θ (Function.update θ n t) := fun i hi => by
  rw [Function.update_of_ne (Nat.ne_of_lt hi)]

theorem Denotes.fresh_bind {k : Checker} {f : Nat → Ty → Check β}
    (D₂ : Assignment → Ty → β → Prop) (hk : k.Valid)
    (hlocal : ∀ θ θ' a b, AgreeBelow k.supply.next θ θ' → D₂ θ a b → D₂ θ' a b)
    (hf : ∀ a k', k.Grows k' → (∀ i ∈ a.ids, i < k'.supply.next) →
      Denotes k' (fun n => f n a) fun θ b => D₂ θ (a.assign θ) b) :
    Denotes k (fun n => fresh >>= f n) fun θ b => ∃ a, D₂ θ a b := by
  have hfresh : Denotes k (fun _ => fresh) fun _ (_ : Ty) => True := by
    refine .inl ⟨.var ⟨k.supply.next, none⟩, k.mint, .of_forall fun _ => fresh_eq_mint hk.unbounded,
      hk.grows_mint, ?_, fun _ _ => trivial, fun θ t hθ _ => ?_⟩
    · intro i hi
      rw [List.mem_singleton.1 hi]
      exact Nat.lt_succ_self _
    · have hagree := agreeBelow_update θ k.supply.next t
      exact ⟨_, hagree, hk.admits_of_agree hagree hθ, Function.update_self _ _ _⟩
  refine (Denotes.bind D₂ hfresh hlocal fun a k' hgrows ha _ => hf a k' hgrows ha).congr
    fun θ _ b => ?_
  simp only [true_and]

/-- What bindings make of each id, under an assignment. -/
def reading (bindings : Table Nat Ty) (θ : Assignment) : Assignment :=
  fun i => ((bindings.get? i).getD (.var ⟨i, none⟩)).assign θ

theorem assign_replace_eq (bindings : Table Nat Ty) (θ : Assignment) (t : Ty) :
    (t.replace bindings).assign θ = t.assign (reading bindings θ) := by
  rw [Ty.replace, Ty.assign_subst]
  refine Ty.subst_eq_assign fun v _ => ?_
  rw [reading]
  cases bindings.get? v.id <;> rfl

/-- All ids of the values are below `n`. -/
def BindingsBelow (n : Nat) (bindings : Table Nat Ty) : Prop :=
  ∀ i t, bindings.get? i = some t → ∀ j ∈ t.ids, j < n

theorem BindingsBelow.replace {n : Nat} {bindings : Table Nat Ty} (h : BindingsBelow n bindings)
    {t : Ty} (ht : ∀ i ∈ t.ids, i < n) : ∀ i ∈ (t.replace bindings).ids, i < n := by
  intro i hi
  rw [Ty.replace, Ty.mem_ids_subst] at hi
  obtain ⟨v, hv, hi⟩ := hi
  rcases hb : bindings.get? v.id with _ | u
  · rw [hb, Option.getD_none, Ty.ids_var, List.mem_singleton] at hi
    exact ht i (Ty.mem_ids.2 ⟨v, hv, hi.symm⟩)
  · rw [hb, Option.getD_some] at hi
    exact h v.id u hb i hi

/-- The ids of the listed variables are numbered apart, by numbers from an interval of the counter,
    and are bound to the variables of these numbers. -/
structure Numbers (vars : List TypeVar) (n : Nat) (bindings bindings' : Table Nat Ty)
    (f : Nat → Nat) : Prop where
  listed : ∀ i ∈ vars.map TypeVar.id, bindings'.get? i = some (.var ⟨f i, none⟩)
  others : ∀ i ∉ vars.map TypeVar.id, bindings'.get? i = bindings.get? i
  mem : ∀ i ∈ vars.map TypeVar.id, f i ∈ List.range' n vars.length
  apart : ∀ i ∈ vars.map TypeVar.id, ∀ j ∈ vars.map TypeVar.id, f i = f j → i = j

section

variable {v : TypeVar} {vars : List TypeVar} {n : Nat} {bindings bindings' : Table Nat Ty}
  {f : Nat → Nat}

/-- What is minted for an id that is listed again is not used. -/
theorem Numbers.cons_of_mem
    (h : Numbers vars (n + 1) (bindings.insert v.id (.var ⟨n, none⟩)) bindings' f)
    (hv : v.id ∈ vars.map TypeVar.id) : Numbers (v :: vars) n bindings bindings' f := by
  have hsame : ∀ i, i ∈ (v :: vars).map TypeVar.id ↔ i ∈ vars.map TypeVar.id := by
    intro i
    rw [List.map_cons, List.mem_cons, or_iff_right_of_imp]
    rintro rfl
    exact hv
  constructor <;> simp only [hsame]
  · exact h.listed
  · intro i hi
    rw [h.others i hi, Table.get?_insert, if_neg]
    rintro rfl
    exact hi hv
  · intro i hi
    have hi := List.mem_range'_1.1 (h.mem i hi)
    rw [List.length_cons, List.mem_range'_1]
    omega
  · exact h.apart

theorem Numbers.cons_of_not_mem
    (h : Numbers vars (n + 1) (bindings.insert v.id (.var ⟨n, none⟩)) bindings' f)
    (hv : v.id ∉ vars.map TypeVar.id) :
    Numbers (v :: vars) n bindings bindings' (Function.update f v.id n) := by
  have hf : ∀ i ∈ vars.map TypeVar.id, Function.update f v.id n i = f i := fun i hi =>
    Function.update_of_ne (ne_of_mem_of_not_mem hi hv) _ _
  have hmem : ∀ i ∈ vars.map TypeVar.id, n < f i ∧ f i < n + (vars.length + 1) := fun i hi => by
    have := List.mem_range'_1.1 (h.mem i hi)
    omega
  constructor
  · rw [List.map_cons, List.forall_mem_cons, Function.update_self]
    refine ⟨?_, fun i hi => by rw [hf i hi, h.listed i hi]⟩
    rw [h.others _ hv, Table.get?_insert, if_pos rfl]
  · intro i hi
    rw [List.map_cons, List.mem_cons, not_or] at hi
    rw [h.others i hi.2, Table.get?_insert, if_neg hi.1]
  · rw [List.map_cons, List.forall_mem_cons, Function.update_self, List.length_cons]
    refine ⟨by simp, fun i hi => ?_⟩
    rw [hf i hi, List.mem_range'_1]
    exact ⟨Nat.le_of_lt (hmem i hi).1, (hmem i hi).2⟩
  · simp only [List.map_cons, List.forall_mem_cons, Function.update_self]
    refine ⟨⟨fun _ => trivial, fun i hi heq => ?_⟩, fun i hi => ⟨fun heq => ?_, fun j hj heq => ?_⟩⟩
    · rw [hf i hi] at heq
      exact absurd heq (Nat.ne_of_lt (hmem i hi).1)
    · rw [hf i hi] at heq
      exact absurd heq.symm (Nat.ne_of_lt (hmem i hi).1)
    · rw [hf i hi, hf j hj] at heq
      exact h.apart i hi j hj heq

end

theorem exists_freshFor (vars : List TypeVar) (bindings : Table Nat Ty) {k : Checker}
    (hk : k.counting = .unbounded) :
    ∃ bindings' f, freshFor bindings vars k =
        some (.ok bindings', { k with supply := ⟨k.supply.next + vars.length⟩ }) ∧
      Numbers vars k.supply.next bindings bindings' f := by
  induction vars generalizing bindings k with
  | nil => exact ⟨bindings, id, rfl, nofun, fun _ _ => rfl, nofun, nofun⟩
  | cons v vars ih =>
    obtain ⟨bindings', f, hrun, hf⟩ :=
      ih (bindings.insert v.id (.var ⟨k.supply.next, none⟩)) (k := k.mint) hk
    have hnext : k.mint.supply.next + vars.length = k.supply.next + (v :: vars).length := by
      rw [List.length_cons, Nat.add_comm vars.length, ← Nat.add_assoc]
      rfl
    rw [hnext] at hrun
    have hrun' : freshFor bindings (v :: vars) k =
        some (.ok bindings', { k with supply := ⟨k.supply.next + (v :: vars).length⟩ }) := by
      rw [freshFor, Run.bind_apply, fresh_eq_mint hk]
      exact hrun
    by_cases hv : v.id ∈ vars.map TypeVar.id
    · exact ⟨bindings', _, hrun', hf.cons_of_mem hv⟩
    · exact ⟨bindings', _, hrun', hf.cons_of_not_mem hv⟩

/-- `bindings'` has, above `bindings`, variables minted from `k` to `k'` for the listed ones. -/
structure Minted (k k' : Checker) (vars : List TypeVar) (bindings bindings' : Table Nat Ty) :
    Prop where
  grows : k.Grows k'
  admits : ∀ θ, k.Admits θ → k'.Admits θ
  below : BindingsBelow k'.supply.next bindings'
  others : ∀ i, i ∉ vars.map TypeVar.id → bindings'.get? i = bindings.get? i
  anything : ∀ θ (g : Nat → Ty), ∃ θ', AgreeBelow k.supply.next θ θ' ∧
    ∀ i ∈ vars.map TypeVar.id, ∃ t, bindings'.get? i = some t ∧ t.assign θ' = g i

theorem freshFor_minted (vars : List TypeVar) {k : Checker} (hk : k.Valid)
    {bindings : Table Nat Ty} (hbelow : BindingsBelow k.supply.next bindings) :
    ∃ bindings' k', freshFor bindings vars k = some (.ok bindings', k') ∧
      Minted k k' vars bindings bindings' := by
  obtain ⟨bindings', f, hrun, hf⟩ := exists_freshFor vars bindings hk.unbounded
  have hle := Nat.le_add_right k.supply.next vars.length
  have hgrows : k.Grows { k with supply := ⟨k.supply.next + vars.length⟩ } :=
    ⟨⟨hk.closed, hk.within.mono fun _ hi => Nat.lt_of_lt_of_le hi hle, hk.unbounded⟩, hle,
      fun _ h => h⟩
  refine ⟨bindings', _, hrun, hgrows, fun _ h => h, fun i t ht j hj => ?_, hf.others,
    fun θ g => ?_⟩
  · by_cases hi : i ∈ vars.map TypeVar.id
    · rw [hf.listed i hi] at ht
      cases ht
      rw [Ty.ids_var, List.mem_singleton] at hj
      rw [hj]
      exact (List.mem_range'_1.1 (hf.mem i hi)).2
    · rw [hf.others i hi] at ht
      exact Nat.lt_of_lt_of_le (hbelow i t ht j hj) hle
  · -- the numbers are assigned what `g` says of the ids that have them
    classical
    let θ' : Assignment := fun j =>
      if h : ∃ i ∈ vars.map TypeVar.id, f i = j then g h.choose else θ j
    refine ⟨θ', fun j hj => ?_, fun i hi => ⟨_, hf.listed i hi, ?_⟩⟩
    · have hnot : ¬ ∃ i ∈ vars.map TypeVar.id, f i = j := by
        rintro ⟨i, hi, rfl⟩
        exact absurd hj (Nat.not_lt.2 (List.mem_range'_1.1 (hf.mem i hi)).1)
      simp only [θ', dif_neg hnot]
    · have hnumber : ∃ j ∈ vars.map TypeVar.id, f j = f i := ⟨i, hi, rfl⟩
      have heq := hf.apart _ hnumber.choose_spec.1 i hi hnumber.choose_spec.2
      rw [Ty.assign_var]
      simp only [θ', dif_pos hnumber, heq]

/-- Variables minted for the listed ones may be assigned any types. -/
theorem Denotes.freshFor_bind {k : Checker} {f : Nat → Table Nat Ty → Check β}
    (vars : List TypeVar) (D₂ : Assignment → Assignment → β → Prop) (hk : k.Valid)
    (hlocal : ∀ θ θ' ψ ψ' b, AgreeBelow k.supply.next θ θ' → AgreeBelow k.supply.next ψ ψ' →
      D₂ θ ψ b → D₂ θ' ψ' b)
    (hf : ∀ bindings k', k.Grows k' → BindingsBelow k'.supply.next bindings →
      Denotes k' (fun n => f n bindings) fun θ b => D₂ θ (reading bindings θ) b) :
    Denotes k (fun n => freshFor .empty vars >>= f n)
      fun θ b => ∃ g, D₂ θ (Assignment.override θ vars g) b := by
  have hempty : BindingsBelow k.supply.next .empty := fun i t ht => by simp at ht
  obtain ⟨bindings, k₁, hrun, h⟩ := freshFor_minted vars hk hempty
  have hreading : ∀ θ, reading bindings θ = Assignment.override θ vars (reading bindings θ) := by
    intro θ
    funext i
    rw [Assignment.override]
    split
    · rfl
    · rename_i hi
      rw [reading, h.others i hi]
      rfl
  have hsettles : Settles (fun _ => freshFor .empty vars k) (.ok bindings, k₁) :=
    .of_forall fun _ => hrun
  -- an admitted assignment, with the new variables as they are read
  have hextend : ∀ θ b, k.Admits θ → (∃ g, D₂ θ (Assignment.override θ vars g) b) →
      ∃ θ', AgreeBelow k.supply.next θ θ' ∧ k₁.Admits θ' ∧ D₂ θ' (reading bindings θ') b := by
    rintro θ b hθ ⟨g, hb⟩
    obtain ⟨θ', hagree, hg⟩ := h.anything θ g
    refine ⟨θ', hagree, h.admits _ (hk.admits_of_agree hagree hθ), ?_⟩
    refine hlocal θ θ' _ _ b hagree (fun i hi => ?_) hb
    rw [hreading, Assignment.override, Assignment.override]
    split
    · rename_i hvars
      obtain ⟨t, ht, heq⟩ := hg i hvars
      rw [reading, ht, ← heq]
      rfl
    · exact hagree i hi
  rcases hf bindings k₁ h.grows h.below with ⟨b, k₂, h₂⟩ | ⟨e, k₂, hf, hno⟩
  · refine .inl ⟨b, k₂, Run.settles_bind hsettles h₂.settles, h.grows.trans h₂.grows, h₂.lt,
      fun θ hθ => ?_, fun θ b' hθ hb => ?_⟩
    · exact ⟨reading bindings θ, hreading θ ▸ h₂.sound θ hθ⟩
    · obtain ⟨θ₁, hagree₁, hθ₁, hb⟩ := hextend θ b' hθ hb
      obtain ⟨θ₂, hagree₂, hθ₂, rfl⟩ := h₂.complete θ₁ b' hθ₁ hb
      exact ⟨θ₂, hagree₁.trans h.grows.le hagree₂, hθ₂, rfl⟩
  · refine .inr ⟨e, k₂, Run.settles_bind hsettles hf, fun θ b hθ hb => ?_⟩
    obtain ⟨θ₁, -, hθ₁, hb⟩ := hextend θ b hθ hb
    exact hno θ₁ b hθ₁ hb

/-- An instance of a scheme, at any types for the quantified variables. -/
theorem instantiate_denotes {k : Checker} (hk : k.Valid) {s : Scheme}
    (hs : ∀ i ∈ s.ids, i < k.supply.next) :
    Denotes k (fun _ => instantiate s)
      fun θ τ => ∃ g, τ = s.ty.assign (Assignment.override θ s.vars g) := by
  have hty : ∀ i ∈ s.ty.ids, i < k.supply.next := fun i hi =>
    hs i (List.mem_append_right _ hi)
  refine Denotes.freshFor_bind s.vars (fun _ ψ τ => τ = s.ty.assign ψ) hk
    (fun θ θ' ψ ψ' τ _ hψ hτ => hτ.trans (hψ.assign_eq hty)) fun bindings k' hgrows hbelow => ?_
  refine (Denotes.pure hgrows.valid (hbelow.replace (hgrows.lt hty))).congr fun θ _ τ => ?_
  rw [← assign_replace_eq]
  rfl

end

end Checker

end CoreCalculus
