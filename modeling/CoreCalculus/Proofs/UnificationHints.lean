/-
  CoreCalculus/Proofs/UnificationHints.lean
  =========================================
  **Unification does not look at hints.**

  Erasing the hints of everything that a unification starts from erases those of everything
  that it ends with, and changes nothing else (`Run.Mirrors`): not how far the fuel suffices,
  not whether it fails and how, not which variable is bound.  So two unifications that differ
  in hints only are mirrored by the same one, and so are two sessions of them.
-/
import CoreCalculus.Proofs.Unification

namespace CoreCalculus

/-! ### Runs on images -/

/-- The run `m'` does to images what `m` does to the originals. -/
def Run.Mirrors {σ ε α β : Type} (state : σ → σ) (error : ε → ε) (result : α → β) (m : Run σ ε α)
    (m' : Run σ ε β) : Prop :=
  ∀ s, m' (state s) = (m s).map fun r => ((r.1.mapError error).map result, state r.2)

namespace Run.Mirrors

variable {σ ε α α' β β' : Type} {state : σ → σ} {error : ε → ε} {result : α → α'}
  {result' : β → β'}

theorem pure (a : α) :
    Mirrors state error result (Pure.pure a : Run σ ε α) (Pure.pure (result a)) := fun _ => rfl

theorem fail (e : ε) :
    Mirrors state error result (Run.fail e : Run σ ε α) (Run.fail (error e)) := fun _ => rfl

theorem outOfFuel : Mirrors state error result (Run.outOfFuel : Run σ ε α) Run.outOfFuel :=
  fun _ => rfl

theorem update {f : σ → α × σ} {g : σ → α' × σ}
    (h : ∀ s, g (state s) = (result (f s).1, state (f s).2)) :
    Mirrors state error result (Run.update f : Run σ ε α) (Run.update g) := by
  intro s
  rw [update_apply, update_apply, h]
  rfl

theorem read? {f : σ → Option α} {g : σ → Option α'} (h : ∀ s, g (state s) = (f s).map result) :
    Mirrors state error result (Run.read? f : Run σ ε α) (Run.read? g) := by
  intro s
  simp only [Run.read?, h, Option.map_map]
  rfl

theorem bind {m : Run σ ε α} {m' : Run σ ε α'} {f : α → Run σ ε β} {f' : α' → Run σ ε β'}
    (hm : Mirrors state error result m m')
    (hf : ∀ a, Mirrors state error result' (f a) (f' (result a))) :
    Mirrors state error result' (m >>= f) (m' >>= f') := by
  intro s
  rw [bind_apply, bind_apply, hm s]
  rcases m s with _ | ⟨_ | a, s'⟩
  · rfl
  · rfl
  · exact hf a s'

end Run.Mirrors

/-! ### Solutions -/

theorem Table.agrees_map {κ α : Type} [DecidableEq κ] {eq : α → α → Bool} {f : α → α}
    (h : ∀ a b, eq (f a) (f b) = eq a b) (t u : Table κ α) :
    (t.map f).agrees eq (u.map f) = t.agrees eq u := by
  have hsize : ∀ t : Table κ α, (t.map f).size = t.size := fun t => List.length_map _
  rw [agrees, agrees, hsize, hsize]
  congr 1
  simp only [map, List.all_map]
  congr 1
  funext e
  have hget := get?_map f u e.1
  simp only [map] at hget
  rw [Function.comp_apply, hget]
  cases u.get? e.1 with
  | none => rfl
  | some b => exact h e.2 b

namespace Ty

theorem alike_erase (t u : Ty) : t.erase.alike u.erase = t.alike u := by
  rw [Bool.eq_iff_iff, alike_iff, alike_iff, erase_erase, erase_erase]

theorem erase_adt (name : String) (ts : List Ty) :
    (Ty.adt name ts).erase = .adt name (ts.map erase) := by
  rw [erase, subst, substAll_eq_map]
  rfl

theorem erase_replace (bindings : Table Nat Ty) (t : Ty) :
    (t.replace bindings).erase = t.erase.replace (bindings.map erase) := by
  rw [replace, replace, erase, erase, subst_subst, subst_subst]
  refine subst_congr fun v _ => ?_
  rw [subst, Table.get?_map]
  cases bindings.get? v.id with
  | none => rfl
  | some b => rfl

/-- Replacing variables one by one or failing, on a type and on the erased one. -/
theorem subst?_erase {f g : TypeVar → Option Ty} {t : Ty}
    (h : ∀ v ∈ t.vars, g ⟨v.id, none⟩ = (f v).map erase) :
    t.erase.subst? g = (t.subst? f).map erase := by
  induction t using induct with
  | var v => exact h v List.mem_cons_self
  | const name => rfl
  | func a b iha ihb | prod a b iha ihb | app a b iha ihb =>
    rw [vars, List.forall_mem_append] at h
    simp only [erase] at iha ihb
    simp only [erase, subst, subst?, iha h.1, ihb h.2]
    cases a.subst? f <;> cases b.subst? f <;> rfl
  | adt name ts ih =>
    rw [vars, varsAll_eq_flatMap] at h
    have hall : substAll? g (ts.map erase) = (substAll? f ts).map (List.map erase) := by
      induction ts with
      | nil => rfl
      | cons t ts ihs =>
        rw [List.forall_mem_cons] at ih
        rw [List.flatMap_cons, List.forall_mem_append] at h
        rw [List.map_cons, substAll?, substAll?, ih.1 h.1, ihs ih.2 h.2]
        cases t.subst? f <;> cases substAll? f ts <;> rfl
    rw [erase_adt, subst?, subst?, hall]
    cases substAll? f ts with
    | none => rfl
    | some us => exact congrArg some (erase_adt name us).symm

end Ty

namespace Solution

/-- Drop all hints. -/
def erase (s : Solution) : Solution := s.map Ty.erase

theorem get?_erase (s : Solution) (i : Nat) : s.erase.get? i = (s.get? i).map Ty.erase :=
  Table.get?_map _ _ _

theorem resolve_erase (s : Solution) (n : Nat) (t : Ty) :
    s.erase.resolve n t.erase = (s.resolve n t).map Ty.erase := by
  induction n generalizing t with
  | zero => rfl
  | succ n ih =>
    rw [resolve_succ, resolve_succ]
    refine Ty.subst?_erase fun v _ => ?_
    dsimp only
    rw [get?_erase]
    cases s.get? v.id with
    | none => rfl
    | some b => exact ih b

theorem oneHop_erase (s : Solution) : oneHop s.erase = (oneHop s).erase := by
  rw [oneHop, oneHop, erase, erase, Table.map_map, Table.map_map]
  refine Table.map_congr fun t _ => ?_
  exact (Ty.erase_replace s t).symm

theorem close_erase (s : Solution) (n : Nat) : s.erase.close n = (s.close n).map erase := by
  induction n generalizing s with
  | zero => rfl
  | succ n ih =>
    have hagrees : (oneHop s).erase.agrees Ty.alike s.erase = (oneHop s).agrees Ty.alike s :=
      Table.agrees_map Ty.alike_erase _ _
    rw [close_succ, close_succ, oneHop_erase, hagrees, ih]
    split <;> rfl

end Solution

/-! ### Unification -/

/-- Drop all hints. -/
def UnifyError.erase : UnifyError → UnifyError
  | .mismatch expected found => .mismatch expected.erase found.erase
  | .occurs v t => .occurs ⟨v.id, none⟩ t.erase

namespace Ty

/-- The second unification does to erased types what the first does to the types. -/
abbrev Mirrors (m m' : Unification Unit) : Prop :=
  Run.Mirrors Solution.erase UnifyError.erase id m m'

theorem bindVar_mirrors (v : TypeVar) (t : Ty) :
    Mirrors (bindVar v t) (bindVar ⟨v.id, none⟩ t.erase) := by
  rw [bindVar, bindVar, ids_erase]
  by_cases hocc : v.id ∈ t.ids
  · rw [if_pos hocc, if_pos hocc]
    exact .fail _
  · rw [if_neg hocc, if_neg hocc]
    refine .update fun s => ?_
    exact congrArg (Prod.mk ()) (Table.map_insert erase s v.id t).symm

variable {one : Ty → Ty → Unification Unit} (hone : ∀ t u, Mirrors (one t u) (one t.erase u.erase))
include hone

theorem unifyAll_mirrors (ts us : List Ty) :
    Mirrors (unifyAll one ts us) (unifyAll one (ts.map erase) (us.map erase)) := by
  induction ts generalizing us with
  | nil => exact .pure ()
  | cons t ts ih =>
    cases us with
    | nil => exact .pure ()
    | cons u us => exact (hone t u).bind fun _ => ih us

theorem unifyResolved_mirrors (t u : Ty) :
    Mirrors (unifyResolved one t u) (unifyResolved one t.erase u.erase) := by
  have hpair : ∀ a b c d,
      Mirrors (do one a c; one b d) (do one a.erase c.erase; one b.erase d.erase) :=
    fun a b c d => (hone a c).bind fun _ => hone b d
  unfold unifyResolved
  rw [alike_erase]
  by_cases halike : t.alike u = true
  · rw [if_pos halike, if_pos halike]
    exact .pure ()
  · rw [if_neg halike, if_neg halike]
    -- erasing keeps the shapes, so both runs take the same branch
    cases t with
    | var v => exact bindVar_mirrors v u
    | const m =>
      cases u with
      | var w => exact bindVar_mirrors w (.const m)
      | _ => exact .fail _
    | func a b =>
      cases u with
      | var w => exact bindVar_mirrors w (.func a b)
      | func c d => exact hpair a b c d
      | _ => exact .fail _
    | prod a b =>
      cases u with
      | var w => exact bindVar_mirrors w (.prod a b)
      | prod c d => exact hpair a b c d
      | _ => exact .fail _
    | app a b =>
      cases u with
      | var w => exact bindVar_mirrors w (.app a b)
      | app c d => exact hpair a b c d
      | _ => exact .fail _
    | adt m ts =>
      cases u with
      | var w => exact bindVar_mirrors w (.adt m ts)
      | adt n us =>
        simp only [erase_adt, List.length_map]
        split
        · exact unifyAll_mirrors hone ts us
        · rw [← erase_adt, ← erase_adt]
          exact .fail _
      | _ => exact .fail _

omit hone

theorem unifyTypes_mirrors (n : Nat) (t u : Ty) :
    Mirrors (unifyTypes n t u) (unifyTypes n t.erase u.erase) := by
  induction n generalizing t u with
  | zero => exact .outOfFuel
  | succ n ih =>
    rw [unifyTypes_succ, unifyTypes_succ]
    exact (Run.Mirrors.read? fun s => s.resolve_erase n t).bind fun t =>
      (Run.Mirrors.read? fun s => s.resolve_erase n u).bind fun u => unifyResolved_mirrors ih t u

theorem unify_mirrors (n : Nat) (t u : Ty) :
    Run.Mirrors Solution.erase UnifyError.erase Solution.erase (unify n t u)
      (unify n t.erase u.erase) := by
  intro s
  rw [unify, unify, unifyTypes_mirrors n t u s]
  rcases unifyTypes n t u s with _ | ⟨_ | _, s'⟩
  · rfl
  · rfl
  · simp only [Option.map_some, Except.mapError, Except.map, id, Solution.close_erase,
      Option.map_map]
    rfl

end Ty

/-! ### Sessions -/

namespace Solution

/-- The solutions of two sessions after as many unifications, which differ in hints only, and
    maybe in fuel. -/
inductive SideBySide : Solution → Solution → Prop
  | empty : SideBySide .empty .empty
  | unify {s s' s₁ s₁' : Solution} {t t' u u' : Ty} {fuel fuel' : Nat}
      {r r' : Except UnifyError Solution} :
      SideBySide s s' → t.alike t' = true → u.alike u' = true →
      Ty.unify fuel t u s = some (r, s₁) → Ty.unify fuel' t' u' s' = some (r', s₁') →
      SideBySide s₁ s₁'

/-- Two successes with solutions that differ in hints only, or two errors that do. -/
inductive AnswersAlike : Except UnifyError Solution → Except UnifyError Solution → Prop
  | ok {a a' : Solution} : a.erase = a'.erase → AnswersAlike (.ok a) (.ok a')
  | error {e e' : UnifyError} : e.erase = e'.erase → AnswersAlike (.error e) (.error e')

variable {s s' s₁ s₁' : Solution} {t t' u u' : Ty} {r r' : Except UnifyError Solution}

/-- Unifications that differ in hints only have answers that do. -/
theorem unify_alike (hs : s.erase = s'.erase) (ht : t.alike t' = true) (hu : u.alike u' = true)
    (h : Settles (fun n => Ty.unify n t u s) (r, s₁))
    (h' : Settles (fun n => Ty.unify n t' u' s') (r', s₁')) :
    AnswersAlike r r' ∧ s₁.erase = s₁'.erase := by
  obtain ⟨n, hn, hn'⟩ := (h.and h').exists
  dsimp only at hn hn'
  have hmirror := Ty.unify_mirrors n t u s
  rw [hs, Ty.alike_iff.1 ht, Ty.alike_iff.1 hu, Ty.unify_mirrors n t' u' s', hn, hn',
    Option.map_some, Option.map_some, Option.some.injEq, Prod.mk.injEq] at hmirror
  refine ⟨?_, hmirror.2.symm⟩
  have hr := hmirror.1
  cases r with
  | error e =>
    cases r' with
    | error e' => exact .error (Except.error.inj hr).symm
    | ok a' => cases hr
  | ok a =>
    cases r' with
    | error e' => cases hr
    | ok a' => exact .ok (Except.ok.inj hr).symm

theorem settles_of_unify {fuel : Nat} (h : Ty.unify fuel t u s = some (r, s₁)) :
    Settles (fun n => Ty.unify n t u s) (r, s₁) :=
  .of_mono (fun n r => Ty.unify_mono n t u s r) h

theorem SideBySide.reachable (h : s.SideBySide s') : s.Reachable ∧ s'.Reachable := by
  induction h with
  | empty => exact ⟨.empty, .empty⟩
  | unify _ _ _ h h' ih => exact ⟨.unify ih.1 h, .unify ih.2 h'⟩

theorem SideBySide.erase_eq (h : s.SideBySide s') : s.erase = s'.erase := by
  induction h with
  | empty => rfl
  | unify _ ht hu h h' ih =>
    exact (unify_alike ih ht hu (settles_of_unify h) (settles_of_unify h')).2

/-- A reachable solution has an answer to every unification. -/
theorem Reachable.exists_unify (hs : s.Reachable) (t u : Ty) :
    ∃ r s₁, Settles (fun n => Ty.unify n t u s) (r, s₁) := by
  rcases Ty.settles_unify hs.closed t u with ⟨s₁, h, -⟩ | ⟨e, h, -⟩
  · exact ⟨_, _, h⟩
  · exact ⟨_, _, h⟩

/-- The next two unifications both answer, and alike. -/
theorem SideBySide.exists_unify (h : s.SideBySide s') (ht : t.alike t' = true)
    (hu : u.alike u' = true) :
    ∃ r r' s₁ s₁', Settles (fun n => Ty.unify n t u s) (r, s₁) ∧
      Settles (fun n => Ty.unify n t' u' s') (r', s₁') ∧ AnswersAlike r r' ∧ s₁.SideBySide s₁' := by
  obtain ⟨r, s₁, hr⟩ := h.reachable.1.exists_unify t u
  obtain ⟨r', s₁', hr'⟩ := h.reachable.2.exists_unify t' u'
  obtain ⟨n, hn⟩ := hr.exists_eq
  obtain ⟨n', hn'⟩ := hr'.exists_eq
  exact ⟨r, r', s₁, s₁', hr, hr', (unify_alike h.erase_eq ht hu hr hr').1, .unify h ht hu hn hn'⟩

/-- The same variables are bound, to types that are alike. -/
theorem get?_of_erase_eq (h : s.erase = s'.erase) (i : Nat) :
    Option.Rel (fun t t' => t.alike t' = true) (s.get? i) (s'.get? i) := by
  have hget := congrArg (fun s : Solution => s.get? i) h
  simp only [get?_erase] at hget
  generalize s.get? i = o, s'.get? i = o' at hget ⊢
  cases o with
  | none =>
    cases o' with
    | none => exact .none
    | some t' => cases hget
  | some t =>
    cases o' with
    | none => cases hget
    | some t' => exact .some (Ty.alike_iff.2 (Option.some.inj hget))

end Solution

end CoreCalculus
