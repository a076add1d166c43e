/-
  CoreCalculus/Proofs/Unification.lean
  ====================================
  **Unification is sound, complete and most general.**

  A unification *imposes* an equation on a session (`Imposes`): it ends, and
  either it fails because the equation has no solution where the session holds,
  or it reaches a solution that holds exactly where the old one and the equation
  do.  Imposing two equations one after the other imposes both (`Imposes.seq`),
  so each way of taking two types apart is a sequence of smaller impositions.

  The induction is on the number of unbound variables and the size of the resolved
  types: a part of a type is smaller as long as nothing new is bound, and
  whatever is bound leaves fewer variables.
-/
import CoreCalculus.Proofs.Solution
import CoreCalculus.Ty.Unification

namespace CoreCalculus

open Solution

/-! ### Sessions and what they impose -/

namespace Solution

/-- The number of variables in `U` that are unbound. -/
def unbound (U : Finset Nat) (s : Solution) : Nat := (U.filter fun i => s.get? i = none).card

/-- A solution in the course of a unification over the variables `U`. -/
structure InSession (U : Finset Nat) (s : Solution) : Prop where
  acyclic : s.Acyclic
  within : s.Within (· ∈ U)

/-- Either nothing was bound, or a variable of `U` was. -/
def Advances (U : Finset Nat) (s s' : Solution) : Prop := s' = s ∨ s'.unbound U < s.unbound U

theorem Advances.trans {U : Finset Nat} {s s' s'' : Solution} (h : Advances U s s')
    (h' : Advances U s' s'') : Advances U s s'' := by
  rcases h with rfl | h
  · exact h'
  · rcases h' with rfl | h'
    · exact .inr h
    · exact .inr (h'.trans h)

end Solution

/-- From `s`, the run `m` ends in a solution that holds exactly where `s` and `E` hold, or fails
    because there is no such assignment. -/
def Imposes (U : Finset Nat) (s : Solution) (m : Nat → Unification Unit) (E : Assignment → Prop) :
    Prop :=
  (∃ s', Settles (fun n => m n s) (.ok (), s') ∧ InSession U s' ∧
      (∀ θ, s'.HoldsAt θ ↔ s.HoldsAt θ ∧ E θ) ∧ Advances U s s') ∨
    ∃ e s', Settles (fun n => m n s) (.error e, s') ∧ ∀ θ, s.HoldsAt θ → ¬ E θ

namespace Imposes

variable {U : Finset Nat} {s : Solution} {m m' : Nat → Unification Unit} {E E' : Assignment → Prop}

theorem congr (h : Imposes U s m E) (hE : ∀ θ, s.HoldsAt θ → (E θ ↔ E' θ)) :
    Imposes U s m E' := by
  rcases h with ⟨s', hm, hs', hholds, hadv⟩ | ⟨e, s', hm, hno⟩
  · exact .inl ⟨s', hm, hs', fun θ => (hholds θ).trans (and_congr_right (hE θ)), hadv⟩
  · exact .inr ⟨e, s', hm, fun θ hθ h => hno θ hθ ((hE θ hθ).2 h)⟩

/-- What holds everywhere needs nothing to be done. -/
theorem done (hs : InSession U s) (hE : ∀ θ, E θ) : Imposes U s (fun _ => pure ()) E :=
  .inl ⟨s, .of_forall fun _ => rfl, hs, fun θ => by simp [hE θ], .inl rfl⟩

theorem fail {e : UnifyError} (hE : ∀ θ, ¬ E θ) : Imposes U s (fun _ => Run.fail e) E :=
  .inr ⟨e, s, .of_forall fun _ => rfl, fun θ _ => hE θ⟩

/-- One equation after another. -/
theorem seq (h : Imposes U s m E)
    (h' : ∀ s', InSession U s' → Advances U s s' → Imposes U s' m' E') :
    Imposes U s (fun n => do m n; m' n) fun θ => E θ ∧ E' θ := by
  rcases h with ⟨s', hm, hs', hholds, hadv⟩ | ⟨e, s', hm, hno⟩
  · rcases h' s' hs' hadv with ⟨s'', hm', hs'', hholds', hadv'⟩ | ⟨e, s'', hm', hno⟩
    · refine .inl ⟨s'', Run.settles_bind hm hm', hs'', fun θ => ?_, hadv.trans hadv'⟩
      rw [hholds', hholds, and_assoc]
    · refine .inr ⟨e, s'', Run.settles_bind hm hm', fun θ hθ hE => ?_⟩
      exact hno θ ((hholds θ).2 ⟨hθ, hE.1⟩) hE.2
  · exact .inr ⟨e, s', Run.settles_bind_error hm, fun θ hθ hE => hno θ hθ hE.1⟩

end Imposes

namespace Ty

/-! ### Binding a variable -/

theorem bindVar_imposes {U : Finset Nat} {s : Solution} {v : TypeVar} {t : Ty}
    (hs : InSession U s) (hv : v.id ∈ U) (ht : ∀ j ∈ t.ids, j ∈ U)
    (hvs : s.get? v.id = none) (hts : ∀ j ∈ t.ids, s.get? j = none)
    (hne : (var v).alike t = false) :
    Imposes U s (fun _ => bindVar v t) fun θ => θ v.id = t.assign θ := by
  by_cases hocc : v.id ∈ t.ids
  · have hvar : ∀ w, t ≠ var w := by
      rintro w rfl
      rw [ids_var, List.mem_singleton] at hocc
      have : (var v).alike (var w) = true := alike_iff.2 (by simp [erase, subst, hocc])
      simp [this] at hne
    simp only [bindVar, if_pos hocc]
    exact .fail fun θ => assign_ne_of_occurs θ hocc hvar
  · refine .inl ⟨s.insert v.id t, .of_forall fun _ => ?_,
      ⟨hs.acyclic.insert hocc hts, hs.within.insert hv ht⟩, fun θ => holdsAt_insert hvs, .inr ?_⟩
    · rw [bindVar, if_neg hocc]
      rfl
    · refine Finset.card_lt_card (Finset.ssubset_iff_of_subset ?_ |>.2 ⟨v.id, ?_, ?_⟩)
      · intro i hi
        rw [Finset.mem_filter, Table.get?_insert] at hi
        rw [Finset.mem_filter]
        refine ⟨hi.1, ?_⟩
        by_contra hne
        have hiv : i ≠ v.id := by
          rintro rfl
          exact hne hvs
        exact hne (by simpa [hiv] using hi.2)
      · exact Finset.mem_filter.2 ⟨hv, hvs⟩
      · simp [Table.get?_insert]

/-! ### Resolved types -/

/-- Unification of two resolved types, with `unifyOne` for their parts. -/
def unifyResolved (unifyOne : Ty → Ty → Unification Unit) (t u : Ty) : Unification Unit :=
  if t.alike u then pure ()
  else
    match t, u with
    | .var v, u => bindVar v u
    | t, .var v => bindVar v t
    | .func a b, .func c d => do
      unifyOne a c
      unifyOne b d
    | .prod a b, .prod c d => do
      unifyOne a c
      unifyOne b d
    | .app a b, .app c d => do
      unifyOne a c
      unifyOne b d
    | .adt m ts, .adt n us =>
      if m = n ∧ ts.length = us.length then unifyAll unifyOne ts us
      else Run.fail (.mismatch t u)
    | t, u => Run.fail (.mismatch t u)

theorem unifyTypes_succ (n : Nat) (t u : Ty) :
    unifyTypes (n + 1) t u =
      ((Run.read? fun s => Solution.resolve s n t) >>= fun t =>
        (Run.read? fun s => Solution.resolve s n u) >>= fun u =>
          unifyResolved (unifyTypes n) t u) := rfl

/-- More fuel does not change an answer. -/
theorem unifyAll_le {one one' : Ty → Ty → Unification Unit}
    (h : ∀ t u, (one t u).Le (one' t u)) (ts us : List Ty) :
    (unifyAll one ts us).Le (unifyAll one' ts us) := by
  induction ts generalizing us with
  | nil => exact Run.Le.refl _
  | cons t ts ih =>
    cases us with
    | nil => exact Run.Le.refl _
    | cons u us => exact (h t u).bind fun _ => ih us

theorem unifyResolved_le {one one' : Ty → Ty → Unification Unit}
    (h : ∀ t u, (one t u).Le (one' t u)) (t u : Ty) :
    (unifyResolved one t u).Le (unifyResolved one' t u) := by
  unfold unifyResolved
  split
  · exact Run.Le.refl _
  · split
    · exact Run.Le.refl _
    · exact Run.Le.refl _
    · exact (h _ _).bind fun _ => h _ _
    · exact (h _ _).bind fun _ => h _ _
    · exact (h _ _).bind fun _ => h _ _
    · split
      · exact unifyAll_le h _ _
      · exact Run.Le.refl _
    · exact Run.Le.refl _

theorem unifyTypes_le (n : Nat) (t u : Ty) : (unifyTypes n t u).Le (unifyTypes (n + 1) t u) := by
  induction n generalizing t u with
  | zero => exact Run.outOfFuel_le _
  | succ n ih =>
    rw [unifyTypes_succ, unifyTypes_succ]
    refine (Run.read?_le fun s => resolve_mono s n t).bind fun t => ?_
    refine (Run.read?_le fun s => resolve_mono s n u).bind fun u => ?_
    exact unifyResolved_le ih t u

theorem unifyAll_imposes {U : Finset Nat} {s : Solution} {one : Nat → Ty → Ty → Unification Unit}
    {ts us : List Ty} (hs : InSession U s) (hlen : ts.length = us.length)
    (hone : ∀ s', InSession U s' → Advances U s s' → ∀ t ∈ ts, ∀ u ∈ us,
      Imposes U s' (fun n => one n t u) fun θ => t.assign θ = u.assign θ) :
    Imposes U s (fun n => unifyAll (one n) ts us) fun θ =>
      ts.map (assign θ) = us.map (assign θ) := by
  induction ts generalizing s us with
  | nil =>
    cases us with
    | nil => exact .done hs fun θ => rfl
    | cons u us => simp at hlen
  | cons t ts ih =>
    cases us with
    | nil => simp at hlen
    | cons u us =>
      have hhead := hone s hs (.inl rfl) t (by simp) u (by simp)
      refine (hhead.seq fun s' hs' hadv => ih hs' (by simpa using hlen) ?_).congr fun θ _ => ?_
      · intro s'' hs'' hadv' t ht u hu
        exact hone s'' hs'' (hadv.trans hadv') t (by simp [ht]) u (by simp [hu])
      · simp

/-- No assignment makes types of different shapes equal, unless one is a variable. -/
theorem assign_ne_of_clash {t u : Ty} (hne : t.alike u = false) (ht : ∀ v, t ≠ var v)
    (hu : ∀ v, u ≠ var v) (hfunc : ∀ a b c d, t = func a b → u ≠ func c d)
    (hprod : ∀ a b c d, t = prod a b → u ≠ prod c d)
    (happ : ∀ a b c d, t = app a b → u ≠ app c d)
    (hadt : ∀ m ts n us, t = adt m ts → u ≠ adt n us) (θ : Assignment) :
    t.assign θ ≠ u.assign θ := by
  intro heq
  cases t with
  | var v => exact ht v rfl
  | const m =>
    cases u with
    | var v => exact hu v rfl
    | const n =>
      simp only [assign_const] at heq
      rw [heq, alike_refl] at hne
      cases hne
    | _ => simp at heq
  | func a b =>
    cases u with
    | var v => exact hu v rfl
    | func c d => exact hfunc a b c d rfl rfl
    | _ => simp at heq
  | prod a b =>
    cases u with
    | var v => exact hu v rfl
    | prod c d => exact hprod a b c d rfl rfl
    | _ => simp at heq
  | app a b =>
    cases u with
    | var v => exact hu v rfl
    | app c d => exact happ a b c d rfl rfl
    | _ => simp at heq
  | adt m ts =>
    cases u with
    | var v => exact hu v rfl
    | adt n us => exact hadt m ts n us rfl rfl
    | _ => simp at heq

/-- Resolved types: each part is imposed by `one`. -/
theorem unifyResolved_imposes {U : Finset Nat} {s : Solution}
    {one : Nat → Ty → Ty → Unification Unit} {t u : Ty} (hs : InSession U s)
    (ht : ∀ j ∈ t.ids, j ∈ U ∧ s.get? j = none) (hu : ∀ j ∈ u.ids, j ∈ U ∧ s.get? j = none)
    (hone : ∀ s', InSession U s' → Advances U s s' → ∀ a b,
      a.ids ⊆ t.ids → b.ids ⊆ u.ids → a.size + b.size < t.size + u.size →
      Imposes U s' (fun n => one n a b) fun θ => a.assign θ = b.assign θ) :
    Imposes U s (fun n => unifyResolved (one n) t u) fun θ => t.assign θ = u.assign θ := by
  unfold unifyResolved
  by_cases halike : t.alike u = true
  · simp only [halike, if_true]
    exact .done hs (assign_eq_of_alike halike)
  · simp only [if_neg halike]
    rw [Bool.not_eq_true] at halike
    have hpair : ∀ a b c d, a.ids ++ b.ids ⊆ t.ids → c.ids ++ d.ids ⊆ u.ids →
        a.size + b.size + (c.size + d.size) < t.size + u.size →
        Imposes U s (fun n => do one n a c; one n b d) fun θ =>
          a.assign θ = c.assign θ ∧ b.assign θ = d.assign θ := by
      intro a b c d hab hcd hsize
      rw [List.append_subset] at hab hcd
      refine (hone s hs (.inl rfl) a c hab.1 hcd.1 (by omega)).seq fun s' hs' hadv => ?_
      exact hone s' hs' hadv b d hab.2 hcd.2 (by omega)
    split
    · rename_i v
      exact bindVar_imposes hs (ht v.id (by simp)).1 (fun j hj => (hu j hj).1) (ht v.id (by simp)).2
        (fun j hj => (hu j hj).2) halike
    · rename_i v _
      have halike' : (var v).alike t = false := by
        rw [← halike, Bool.eq_iff_iff, alike_iff, alike_iff]
        exact eq_comm
      refine (bindVar_imposes hs (hu v.id (by simp)).1 (fun j hj => (ht j hj).1)
        (hu v.id (by simp)).2 (fun j hj => (ht j hj).2) halike').congr fun θ _ => ?_
      exact eq_comm
    · rename_i a b c d
      exact (hpair a b c d (by simp) (by simp) (by simp only [size]; omega)).congr fun θ _ => by simp
    · rename_i a b c d
      exact (hpair a b c d (by simp) (by simp) (by simp only [size]; omega)).congr fun θ _ => by simp
    · rename_i a b c d
      exact (hpair a b c d (by simp) (by simp) (by simp only [size]; omega)).congr fun θ _ => by simp
    · rename_i m ts n us
      by_cases hmn : m = n ∧ ts.length = us.length
      · simp only [if_pos hmn]
        refine (unifyAll_imposes hs hmn.2 fun s' hs' hadv t ht u hu => ?_).congr fun θ _ => ?_
        · refine hone s' hs' hadv t u ?_ ?_ ?_
          · rw [ids_adt]
            exact fun i hi => List.mem_flatMap.2 ⟨t, ht, hi⟩
          · rw [ids_adt]
            exact fun i hi => List.mem_flatMap.2 ⟨u, hu, hi⟩
          · have := size_le_sizeAll ht
            have := size_le_sizeAll hu
            simp only [size]
            omega
        · simp [hmn.1]
      · simp only [if_neg hmn]
        refine .fail fun θ heq => hmn ?_
        rw [assign_adt, assign_adt, adt.injEq] at heq
        have hlen := congrArg List.length heq.2
        rw [List.length_map, List.length_map] at hlen
        exact ⟨heq.1, hlen⟩
    · rename_i hv hv' hfunc hprod happ hadt
      exact .fail (assign_ne_of_clash halike hv hv' hfunc hprod happ hadt)

/-! ### The whole unification -/

/-- `unifyTypes` does with two types what `unifyResolved` does with their resolved forms. -/
theorem imposes_of_resolved {U : Finset Nat} {s : Solution} {t u t' u' : Ty}
    {E : Assignment → Prop} (ht : Settles (fun n => s.resolve n t) t')
    (hu : Settles (fun n => s.resolve n u) u')
    (h : Imposes U s (fun n => unifyResolved (unifyTypes n) t' u') E) :
    Imposes U s (fun n => unifyTypes n t u) E := by
  have hsettles : ∀ r, Settles (fun n => unifyResolved (unifyTypes n) t' u' s) r →
      Settles (fun n => unifyTypes n t u s) r := by
    intro r hr
    refine .of_succ ?_
    filter_upwards [ht, hu, hr] with n htn hun hrn
    simp only [unifyTypes_succ, Run.bind_apply, Run.read?, htn, hun, Option.map_some]
    exact hrn
  rcases h with ⟨s', hm, h⟩ | ⟨e, s', hm, h⟩
  · exact .inl ⟨s', hsettles _ hm, h⟩
  · exact .inr ⟨e, s', hsettles _ hm, h⟩

theorem unifyTypes_imposes {U : Finset Nat} {s : Solution} {t u t' u' : Ty} (hs : InSession U s)
    (ht : ∀ j ∈ t.ids, j ∈ U) (hu : ∀ j ∈ u.ids, j ∈ U)
    (ht' : Settles (fun n => s.resolve n t) t') (hu' : Settles (fun n => s.resolve n u) u') :
    Imposes U s (fun n => unifyTypes n t u) fun θ => t.assign θ = u.assign θ := by
  obtain ⟨n, htn⟩ := ht'.exists_eq
  obtain ⟨m, hum⟩ := hu'.exists_eq
  have htU := hs.within.resolve ht htn
  have huU := hs.within.resolve hu hum
  have htfree := unbound_of_resolve htn
  have hufree := unbound_of_resolve hum
  have hparts : ∀ s', InSession U s' → Advances U s s' → ∀ a b, a.ids ⊆ t'.ids → b.ids ⊆ u'.ids →
      a.size + b.size < t'.size + u'.size →
      Imposes U s' (fun n => unifyTypes n a b) fun θ => a.assign θ = b.assign θ := by
    intro s' hs' hadv a b ha hb hsize
    have haU : ∀ j ∈ a.ids, j ∈ U := fun j hj => htU j (ha hj)
    have hbU : ∀ j ∈ b.ids, j ∈ U := fun j hj => huU j (hb hj)
    rcases hadv with heq | hless
    · -- nothing was bound: the parts are resolved, and smaller
      have ha' : Settles (fun n => s'.resolve n a) a :=
        settles_resolve_self fun j hj => heq ▸ htfree j (ha hj)
      have hb' : Settles (fun n => s'.resolve n b) b :=
        settles_resolve_self fun j hj => heq ▸ hufree j (hb hj)
      exact unifyTypes_imposes hs' haU hbU ha' hb'
    · obtain ⟨a', ha'⟩ := hs'.acyclic.settles_resolve a
      obtain ⟨b', hb'⟩ := hs'.acyclic.settles_resolve b
      exact unifyTypes_imposes hs' haU hbU ha' hb'
  have hresolved := unifyResolved_imposes hs (fun j hj => ⟨htU j hj, htfree j hj⟩)
    (fun j hj => ⟨huU j hj, hufree j hj⟩) hparts
  refine (imposes_of_resolved ht' hu' hresolved).congr fun θ hθ => ?_
  rw [assign_resolve htn hθ, assign_resolve hum hθ]
termination_by (s.unbound U, t'.size + u'.size)
decreasing_by
  · rw [heq]
    exact Prod.Lex.right _ hsize
  · exact Prod.Lex.left _ _ hless

/-- More fuel does not change what a unification answers. -/
theorem unify_mono (n : Nat) (t u : Ty) : (unify n t u).Le (unify (n + 1) t u) := by
  intro s r h
  unfold unify at h ⊢
  rcases hr : unifyTypes n t u s with _ | ⟨_ | ⟨⟩, s'⟩
  · simp [hr] at h
  · rw [hr] at h
    rw [unifyTypes_le n t u s _ hr]
    exact h
  · rw [hr] at h
    rw [unifyTypes_le n t u s _ hr]
    obtain ⟨c, hc, rfl⟩ := Option.map_eq_some_iff.1 h
    exact Option.map_eq_some_iff.2 ⟨c, close_mono n s' c hc, rfl⟩

/-- Whatever fuel a unification answers with, it gives the answer that it settles on. -/
theorem unify_unique {s : Solution} {t u : Ty} {r r' : Except UnifyError Solution × Solution}
    (hr : Settles (fun n => unify n t u s) r) {fuel : Nat} (h : unify fuel t u s = some r') :
    r' = r :=
  (Settles.of_mono (fun n r => unify_mono n t u s r) h).unique hr

/-- From a closed solution, a unification ends in a closed solution that holds exactly where the
    old one does and makes the types equal; or it fails, since there is no such assignment. -/
theorem settles_unify {s : Solution} (hs : s.Closed) (t u : Ty) :
    (∃ s', Settles (fun n => unify n t u s) (.ok s', s') ∧ s'.Closed ∧
        (∀ θ, s'.HoldsAt θ ↔ s.HoldsAt θ ∧ t.assign θ = u.assign θ) ∧
        ∀ P : Nat → Prop, s.Within P → (∀ j ∈ t.ids, P j) → (∀ j ∈ u.ids, P j) → s'.Within P) ∨
      ∃ e, Settles (fun n => unify n t u s) (.error e, s) ∧
        ∀ θ, s.HoldsAt θ → t.assign θ ≠ u.assign θ := by
  -- all ids in play
  let U : Finset Nat := (s.ids ++ t.ids ++ u.ids).toFinset
  have hwithin : s.Within (· ∈ U) := within_iff.2 fun i hi => by simp [U, hi]
  obtain ⟨t', ht'⟩ := hs.acyclic.settles_resolve t
  obtain ⟨u', hu'⟩ := hs.acyclic.settles_resolve u
  have himposes := unifyTypes_imposes ⟨hs.acyclic, hwithin⟩ (fun j hj => by simp [U, hj])
    (fun j hj => by simp [U, hj]) ht' hu'
  rcases himposes with ⟨s₁, hm, hs₁, hholds, -⟩ | ⟨e, s₁, hm, hno⟩
  · obtain ⟨c, hc⟩ := hs₁.acyclic.exists_closesTo
    refine .inl ⟨c, ?_, hc.closed, fun θ => (hc.holdsAt_iff θ).trans (hholds θ), ?_⟩
    · filter_upwards [hm, hc.settles] with n hmn hcn
      simp only [unify, hmn, hcn, Option.map_some]
    · intro P hP htP huP
      refine (hc.within _ hs₁.within).mono fun i hi => ?_
      simp only [U, List.mem_toFinset, List.mem_append] at hi
      rcases hi with (hi | hi) | hi
      · exact within_iff.1 hP i hi
      · exact htP i hi
      · exact huP i hi
  · refine .inr ⟨e, ?_, hno⟩
    filter_upwards [hm] with n hmn
    simp only [unify, hmn]

end Ty

namespace Solution

/-! ### Sessions of several unifications -/

/-- The solutions of a session: the empty one, and what any unification, successful or failed,
    makes of one of them. -/
inductive Reachable : Solution → Prop
  | empty : Reachable .empty
  | unify {s s' : Solution} {fuel : Nat} {t u : Ty} {r : Except UnifyError Solution} :
      Reachable s → Ty.unify fuel t u s = some (r, s') → Reachable s'

/-- Up to hints, `θ` makes every bound variable equal to its value. -/
def SolvedBy (s : Solution) (θ : Assignment) : Prop :=
  ∀ i t, s.get? i = some t → (θ i).alike (t.assign θ) = true

theorem Reachable.closed {s : Solution} (h : s.Reachable) : s.Closed := by
  induction h with
  | empty => exact closed_empty
  | @unify s s' fuel t u r _ hunify hs =>
    rcases Ty.settles_unify hs t u with ⟨s₁, hm, hclosed, -⟩ | ⟨e, hm, -⟩
    · cases Ty.unify_unique hm hunify
      exact hclosed
    · cases Ty.unify_unique hm hunify
      exact hs

/-- Up to hints is exactly, once the hints are dropped. -/
theorem solvedBy_iff {s : Solution} {θ : Assignment} :
    s.SolvedBy θ ↔ s.HoldsAt fun i => (θ i).erase := by
  refine forall_congr' fun i => forall_congr' fun t => imp_congr_right fun _ => ?_
  rw [Ty.alike_iff, Ty.erase_assign]

theorem alike_assign_iff {θ : Assignment} {t u : Ty} :
    (t.assign θ).alike (u.assign θ) = true ↔
      (t.assign fun i => (θ i).erase) = u.assign fun i => (θ i).erase := by
  rw [Ty.alike_iff, Ty.erase_assign, Ty.erase_assign]

theorem HoldsAt.solvedBy {s : Solution} {θ : Assignment} (h : s.HoldsAt θ) : s.SolvedBy θ := by
  intro i t ht
  rw [h i t ht]
  exact Ty.alike_refl _

theorem exists_solvedBy_iff {s : Solution} {t u : Ty} :
    (∃ θ, s.SolvedBy θ ∧ (t.assign θ).alike (u.assign θ)) ↔
      ∃ θ, s.HoldsAt θ ∧ t.assign θ = u.assign θ := by
  constructor
  · rintro ⟨θ, hθ, htu⟩
    exact ⟨_, solvedBy_iff.1 hθ, alike_assign_iff.1 htu⟩
  · rintro ⟨θ, hθ, htu⟩
    exact ⟨θ, hθ.solvedBy, htu ▸ Ty.alike_refl _⟩

/-- Types that a closed solution makes equal resolve to one type. -/
theorem Closed.exists_resolve_alike {s : Solution} (hs : s.Closed) {t u : Ty}
    (h : t.assign s.canonical = u.assign s.canonical) :
    ∃ n t' u', s.resolve n t = some t' ∧ s.resolve n u = some u' ∧ t'.alike u' := by
  obtain ⟨t', ht'⟩ := hs.acyclic.settles_resolve t
  obtain ⟨u', hu'⟩ := hs.acyclic.settles_resolve u
  obtain ⟨n, htn, hun⟩ := (ht'.and hu').exists
  refine ⟨n, t', u', htn, hun, ?_⟩
  rw [← assign_resolve htn hs.holdsAt_canonical, ← assign_resolve hun hs.holdsAt_canonical,
    assign_canonical_of_unbound (unbound_of_resolve htn),
    assign_canonical_of_unbound (unbound_of_resolve hun)] at h
  exact Ty.alike_iff.2 h

end Solution

/-- **Unification is sound, complete and most general** in every session.  It always answers; it
    succeeds exactly when some assignment that solves the session makes the types equal; and
    then the assignments that solve the new session are exactly those, so both types resolve to
    one type, and every one of them is already visible in resolved types. -/
theorem Ty.unify_mostGeneral {s : Solution} (hs : s.Reachable) (t u : Ty) :
    ((∃ fuel s', unify fuel t u s = some (.ok s', s')) ↔
        ∃ θ, s.SolvedBy θ ∧ (t.assign θ).alike (u.assign θ)) ∧
    ((∃ fuel e, unify fuel t u s = some (.error e, s)) ↔
        ¬ ∃ θ, s.SolvedBy θ ∧ (t.assign θ).alike (u.assign θ)) ∧
    ∀ fuel a s', unify fuel t u s = some (.ok a, s') →
      a = s' ∧
      (∀ θ, s'.SolvedBy θ ↔ s.SolvedBy θ ∧ (t.assign θ).alike (u.assign θ)) ∧
      (∃ n t' u', s'.resolve n t = some t' ∧ s'.resolve n u = some u' ∧ t'.alike u') ∧
      ∀ θ, s.SolvedBy θ → (t.assign θ).alike (u.assign θ) →
        ∀ n x x', s'.resolve n x = some x' → (x'.assign θ).alike (x.assign θ) := by
  rw [exists_solvedBy_iff]
  rcases settles_unify hs.closed t u with ⟨s₁, hm, hclosed, hholds, -⟩ | ⟨e, hm, hno⟩
  · have hcanonical := (hholds _).1 hclosed.holdsAt_canonical
    have hsome : ∃ θ, s.HoldsAt θ ∧ t.assign θ = u.assign θ := ⟨_, hcanonical⟩
    refine ⟨⟨fun _ => hsome, fun _ => ?_⟩, ⟨?_, fun h => absurd hsome h⟩, ?_⟩
    · obtain ⟨fuel, h⟩ := hm.exists_eq
      exact ⟨fuel, s₁, h⟩
    · rintro ⟨fuel, e, h⟩
      cases unify_unique hm h
    · intro fuel a s' h
      cases unify_unique hm h
      have hsolved : ∀ θ, s₁.SolvedBy θ ↔ s.SolvedBy θ ∧ (t.assign θ).alike (u.assign θ) := by
        intro θ
        rw [solvedBy_iff, hholds, solvedBy_iff, alike_assign_iff]
      refine ⟨rfl, hsolved, hclosed.exists_resolve_alike hcanonical.2, ?_⟩
      intro θ hθ htu n x x' hx
      rw [alike_assign_iff]
      exact assign_resolve hx (solvedBy_iff.1 ((hsolved θ).2 ⟨hθ, htu⟩))
  · have hnone : ¬ ∃ θ, s.HoldsAt θ ∧ t.assign θ = u.assign θ := by
      rintro ⟨θ, hθ, htu⟩
      exact hno θ hθ htu
    refine ⟨⟨?_, fun h => absurd h hnone⟩, ⟨fun _ => hnone, fun _ => ?_⟩, ?_⟩
    · rintro ⟨fuel, s', h⟩
      cases unify_unique hm h
    · obtain ⟨fuel, h⟩ := hm.exists_eq
      exact ⟨fuel, e, h⟩
    · intro fuel a s' h
      cases unify_unique hm h

/-- With `'t1` bound to `'t0`, the bindings made for the arguments of two arrows are seen by
    their results. -/
theorem unify_mostGeneral_arrows :
    let s : Solution := Table.empty.insert 1 (.var ⟨0, none⟩)
    let t : Ty := .func (.var ⟨1, none⟩) (.var ⟨0, none⟩)
    let u : Ty := .func .int (.var ⟨2, none⟩)
    s.Reachable ∧ ∃ fuel s', Ty.unify fuel t u s = some (.ok s', s') ∧
      ∀ θ, s'.SolvedBy θ ↔ s.SolvedBy θ ∧ (t.assign θ).alike (u.assign θ) := by
  intro s t u
  have hunify : Ty.unify 3 (.var ⟨1, none⟩) (.var ⟨0, none⟩) .empty = some (.ok s, s) := rfl
  have hs : s.Reachable := .unify .empty hunify
  obtain ⟨hok, -, hgeneral⟩ := Ty.unify_mostGeneral hs t u
  -- all three variables stand for integers
  have hsome : ∃ θ, s.SolvedBy θ ∧ (t.assign θ).alike (u.assign θ) := by
    refine ⟨fun _ => .int, fun i a ha => ?_, by decide⟩
    rw [Table.get?_insert] at ha
    split at ha
    · cases ha
      exact Ty.alike_refl _
    · cases ha
  obtain ⟨fuel, s', h⟩ := hok.2 hsome
  exact ⟨hs, fuel, s', h, (hgeneral fuel s' s' h).2.1⟩

end CoreCalculus
