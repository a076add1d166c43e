/-
  CoreCalculus/Proofs/UnificationSession.lean
  ===========================================
  **A session of unifications only learns.**

  Whatever is unified, and whether it succeeds or fails, the solution between two
  unifications is resolved, and a later solution *refines* an earlier one: it
  binds every variable that was bound, and resolving in it sees through what the
  earlier one resolved.

  That the solution holds at fewer assignments (`Ty.settles_unify`) gives the
  second half, since a closed solution can be read off the assignment that it
  describes.  It does not give the first: `'t0 := 't1` and `'t1 := 't0` hold at the
  same assignments and bind different variables.  So what a unification does to the
  bound variables is followed through the run, up to the last round of closing.
-/
import CoreCalculus.Proofs.Unification

namespace CoreCalculus

open Solution

/-! ### Honest runs -/

/-- From a state with the property `P`, the run leaves a state with it, and what it fails with
    has the property `Q`. -/
structure Run.Honest {σ ε α : Type} (P : σ → Prop) (Q : ε → Prop) (m : Run σ ε α) : Prop where
  keeps : ∀ s r s', m s = some (r, s') → P s → P s'
  error : ∀ s e s', m s = some (.error e, s') → P s → Q e

namespace Run.Honest

variable {σ ε α β : Type} {P : σ → Prop} {Q : ε → Prop}

theorem pure (a : α) : Honest P Q (Pure.pure a : Run σ ε α) := by
  refine ⟨fun s r s' h hs => ?_, nofun⟩
  cases h
  exact hs

theorem fail {e : ε} (he : Q e) : Honest P Q (Run.fail e : Run σ ε α) := by
  refine ⟨fun s r s' h hs => ?_, fun s e' s' h _ => ?_⟩
  · cases h
    exact hs
  · cases h
    exact he

theorem outOfFuel : Honest P Q (Run.outOfFuel : Run σ ε α) := ⟨nofun, nofun⟩

theorem update {f : σ → α × σ} (hf : ∀ s, P s → P (f s).2) :
    Honest P Q (Run.update f : Run σ ε α) := by
  refine ⟨fun s r s' h hs => ?_, nofun⟩
  cases h
  exact hf s hs

theorem read? (f : σ → Option α) : Honest P Q (Run.read? f : Run σ ε α) := by
  refine ⟨fun s r s' h hs => ?_, fun s e s' h => ?_⟩
  · obtain ⟨a, -, heq⟩ := Option.map_eq_some_iff.1 h
    cases heq
    exact hs
  · obtain ⟨a, -, heq⟩ := Option.map_eq_some_iff.1 h
    cases heq

theorem bind {m : Run σ ε α} {f : α → Run σ ε β} (hm : m.Honest P Q)
    (hf : ∀ a, (f a).Honest P Q) : (m >>= f).Honest P Q := by
  constructor
  · intro s r s' h hs
    rcases bind_eq_some_iff.1 h with ⟨e, hms, -⟩ | ⟨a, s₁, hms, hfa⟩
    · exact hm.keeps s _ _ hms hs
    · exact (hf a).keeps s₁ r s' hfa (hm.keeps s _ _ hms hs)
  · intro s e s' h hs
    rcases bind_eq_error_iff.1 h with hms | ⟨a, s₁, hms, hfa⟩
    · exact hm.error s e s' hms hs
    · exact (hf a).error s₁ e s' hfa (hm.keeps s _ _ hms hs)

end Run.Honest

/-! ### Honest unification -/

namespace Ty

theorem alike_comm (t u : Ty) : t.alike u = u.alike t := by
  rw [Bool.eq_iff_iff, alike_iff, alike_iff, eq_comm]

section

/- A variable is bound to what it is not, and a mismatch is between types that nothing makes
   equal.  Where that is honest, unification is. -/
variable {P : Solution → Prop} {Q : UnifyError → Prop}
  (hbind : ∀ v t, t.alike (.var v) = false → (bindVar v t).Honest P Q)
  (hmismatch : ∀ t u, (∀ θ : Assignment, t.assign θ ≠ u.assign θ) → Q (.mismatch t u))

theorem unifyAll_honest {one : Ty → Ty → Unification Unit} (hone : ∀ t u, (one t u).Honest P Q)
    (ts us : List Ty) : (unifyAll one ts us).Honest P Q := by
  induction ts generalizing us with
  | nil => exact .pure ()
  | cons t ts ih =>
    cases us with
    | nil => exact .pure ()
    | cons u us => exact (hone t u).bind fun _ => ih us

include hbind hmismatch

theorem unifyResolved_honest {one : Ty → Ty → Unification Unit}
    (hone : ∀ t u, (one t u).Honest P Q) (t u : Ty) : (unifyResolved one t u).Honest P Q := by
  have hpair : ∀ a b c d, Run.Honest P Q (do one a c; one b d) :=
    fun a b c d => (hone a c).bind fun _ => hone b d
  unfold unifyResolved
  by_cases halike : t.alike u = true
  · rw [if_pos halike]
    exact .pure ()
  · rw [if_neg halike]
    rw [Bool.not_eq_true] at halike
    split
    · exact hbind _ _ (by rw [alike_comm, halike])
    · exact hbind _ _ halike
    · exact hpair _ _ _ _
    · exact hpair _ _ _ _
    · exact hpair _ _ _ _
    · split
      · exact unifyAll_honest hone _ _
      · rename_i hdiffer
        refine .fail (hmismatch _ _ fun θ heq => hdiffer ?_)
        rw [assign_adt, assign_adt, adt.injEq] at heq
        have hlen := congrArg List.length heq.2
        rw [List.length_map, List.length_map] at hlen
        exact ⟨heq.1, hlen⟩
    · rename_i hv hv' hfunc hprod happ hadt
      exact .fail (hmismatch _ _ (assign_ne_of_clash halike hv hv' hfunc hprod happ hadt))

theorem unifyTypes_honest (n : Nat) (t u : Ty) : (unifyTypes n t u).Honest P Q := by
  induction n generalizing t u with
  | zero => exact .outOfFuel
  | succ n ih =>
    rw [unifyTypes_succ]
    exact (Run.Honest.read? _).bind fun t => (Run.Honest.read? _).bind fun u =>
      unifyResolved_honest hbind hmismatch ih t u

end

end Ty

/-! ### Bound variables stay bound -/

namespace Solution

/-- The variable has a value. -/
def Binds (i : Nat) (s : Solution) : Prop := s.get? i ≠ none

theorem Binds.insert {i : Nat} {s : Solution} (h : s.Binds i) (j : Nat) (t : Ty) :
    Binds i (s.insert j t) := by
  rw [Binds, Table.get?_insert]
  split
  · simp
  · exact h

theorem Binds.close {i : Nat} {n : Nat} {s c : Solution} (hc : s.close n = some c)
    (h : s.Binds i) : c.Binds i := by
  induction n generalizing s with
  | zero => simp [Solution.close] at hc
  | succ n ih =>
    rw [close_succ] at hc
    split at hc
    · cases hc
      exact h
    · refine ih hc ?_
      rwa [Binds, get?_oneHop, ne_eq, Option.map_eq_none_iff]

end Solution

namespace Ty

variable {i : Nat}

theorem bindVar_binds (v : TypeVar) (t : Ty) :
    (bindVar v t).Honest (Binds i) fun _ => True := by
  unfold bindVar
  split
  · exact .fail trivial
  · exact .update fun s hs => hs.insert v.id t

theorem unify_binds {n : Nat} {t u : Ty} {s s' : Solution} {r : Except UnifyError Solution}
    (h : unify n t u s = some (r, s')) (hs : s.Binds i) : s'.Binds i := by
  have hkeeps := (unifyTypes_honest (fun v t _ => bindVar_binds (i := i) v t)
    (fun _ _ _ => trivial) n t u).keeps
  unfold unify at h
  split at h
  · cases h
  · rename_i s₁ hrun
    obtain ⟨c, hc, heq⟩ := Option.map_eq_some_iff.1 h
    cases heq
    exact (hkeeps s _ s₁ hrun hs).close hc
  · cases h
    exact hs

end Ty

/-! ### Resolving in two solutions of a session -/

namespace Solution

/-- Resolving `t` in `s` ends in `u`. -/
def ResolvesTo (s : Solution) (t u : Ty) : Prop := ∃ n, s.resolve n t = some u

/-- The two types resolve to equal types. -/
def ResolveAlike (s : Solution) (t u : Ty) : Prop :=
  ∃ t' u', s.ResolvesTo t t' ∧ s.ResolvesTo u u' ∧ t'.alike u' = true

/-- `s'` binds what `s` binds, and resolving in it sees through what `s` resolved. -/
structure Refines (s s' : Solution) : Prop where
  binds : ∀ i, s.Binds i → s'.Binds i
  resolve : ∀ t t', s.ResolvesTo t t' → s'.ResolveAlike t' t

/-- The solutions of the session from `s` on: those that any number of unifications, successful
    or failed, make of it. -/
inductive Later (s : Solution) : Solution → Prop
  | now : Later s s
  | unify {s' s'' : Solution} {fuel : Nat} {t u : Ty} {r : Except UnifyError Solution} :
      Later s s' → Ty.unify fuel t u s' = some (r, s'') → Later s s''

theorem Reachable.later {s s' : Solution} (hs : s.Reachable) (h : s.Later s') : s'.Reachable := by
  induction h with
  | now => exact hs
  | unify _ hunify ih => exact .unify ih hunify

/-- A resolved type has nothing left to resolve. -/
theorem ResolvesTo.again {s : Solution} {t u : Ty} (h : s.ResolvesTo t u) : s.ResolvesTo u u := by
  obtain ⟨n, hn⟩ := h
  exact (settles_resolve_self (unbound_of_resolve hn)).exists_eq

variable {s s' : Solution} {t u : Ty}

theorem ResolvesTo.unique (h : s.ResolvesTo t u) {u' : Ty} (h' : s.ResolvesTo t u') : u = u' := by
  obtain ⟨n, hn⟩ := h
  obtain ⟨m, hm⟩ := h'
  exact (settles_resolve hn).unique (settles_resolve hm)

theorem Acyclic.exists_resolvesTo (hs : s.Acyclic) (t : Ty) : ∃ u, s.ResolvesTo t u := by
  obtain ⟨u, hu⟩ := hs.settles_resolve t
  exact ⟨u, hu.exists_eq⟩

theorem Closed.exists_resolvesTo (hs : s.Closed) (t : Ty) : ∃ u, s.ResolvesTo t u :=
  hs.acyclic.exists_resolvesTo t

/-- Up to hints, a closed solution resolves a type to what it describes. -/
theorem ResolvesTo.erase_eq (h : s.ResolvesTo t u) (hs : s.Closed) :
    u.erase = t.assign s.canonical := by
  obtain ⟨n, hn⟩ := h
  rw [← assign_canonical_of_unbound (unbound_of_resolve hn),
    assign_resolve hn hs.holdsAt_canonical]

theorem Closed.resolveAlike_iff (hs : s.Closed) :
    s.ResolveAlike t u ↔ t.assign s.canonical = u.assign s.canonical := by
  constructor
  · rintro ⟨t', u', ht, hu, halike⟩
    rw [← ht.erase_eq hs, ← hu.erase_eq hs]
    exact Ty.alike_iff.1 halike
  · intro h
    obtain ⟨n, t', u', ht, hu, halike⟩ := hs.exists_resolve_alike h
    exact ⟨t', u', ⟨n, ht⟩, ⟨n, hu⟩, halike⟩

/-- A closed solution that holds only where `s` does resolves through `s`. -/
theorem Closed.resolveAlike_of_holdsAt (hs' : s'.Closed)
    (hholds : ∀ θ, s'.HoldsAt θ → s.HoldsAt θ) (h : s.ResolvesTo t u) : s'.ResolveAlike u t := by
  obtain ⟨n, hn⟩ := h
  rw [hs'.resolveAlike_iff]
  exact assign_resolve hn (hholds _ hs'.holdsAt_canonical)

theorem Refines.refl (hs : s.Closed) : s.Refines s where
  binds _ h := h
  resolve _ _ h := hs.resolveAlike_of_holdsAt (fun _ hθ => hθ) h

/-- Every unification refines the solution, also a failed one. -/
theorem Closed.refines_unify (hs : s.Closed) {fuel : Nat} {r : Except UnifyError Solution}
    (h : Ty.unify fuel t u s = some (r, s')) : s.Refines s' := by
  rcases Ty.settles_unify hs t u with ⟨s₁, hm, hclosed, hholds, -⟩ | ⟨e, hm, -⟩
  · cases Ty.unify_unique hm h
    exact {
      binds := fun i hi => Ty.unify_binds h hi
      resolve := fun x y hxy =>
        hclosed.resolveAlike_of_holdsAt (fun θ hθ => ((hholds θ).1 hθ).1) hxy }
  · cases Ty.unify_unique hm h
    exact .refl hs

/-- Equal in `s`, equal in what refines it. -/
theorem Refines.resolveAlike (h : s.Refines s') (hs' : s'.Closed) (htu : s.ResolveAlike t u) :
    s'.ResolveAlike t u := by
  obtain ⟨t', u', ht, hu, halike⟩ := htu
  have htt := hs'.resolveAlike_iff.1 (h.resolve t t' ht)
  have huu := hs'.resolveAlike_iff.1 (h.resolve u u' hu)
  rw [hs'.resolveAlike_iff, ← htt, ← huu]
  exact Ty.assign_eq_of_alike halike _

theorem Reachable.resolveAlike_later (hs : s.Reachable) (h : s.Later s')
    (htu : s.ResolveAlike t u) : s'.ResolveAlike t u := by
  induction h with
  | now => exact htu
  | unify hlater hunify ih =>
    have hclosed := (hs.later hlater).closed
    exact (hclosed.refines_unify hunify).resolveAlike
      (Reachable.unify (hs.later hlater) hunify).closed ih

end Solution

/-- **The invariant of a session of unifications.**  Its solution is resolved: no value mentions a
    bound variable, every type can be resolved, and resolving twice is resolving once.  Every
    unification answers; a failed one leaves the solution as it was, a successful one answers
    with the new solution, which refines the old one.  So types that once resolve to equal types
    do so ever after. -/
theorem Ty.unify_session {s : Solution} (hs : s.Reachable) :
    s.isResolved = true ∧
    (∀ t, ∃ t', s.ResolvesTo t t' ∧ s.ResolvesTo t' t') ∧
    (∀ t u, ∃ fuel r s', unify fuel t u s = some (r, s')) ∧
    (∀ t u fuel e s', unify fuel t u s = some (.error e, s') → s' = s) ∧
    (∀ t u fuel a s', unify fuel t u s = some (.ok a, s') → a = s' ∧ s.Refines s') ∧
    ∀ s', s.Later s' → ∀ t u, s.ResolveAlike t u → s'.ResolveAlike t u := by
  refine ⟨isResolved_iff.2 hs.closed, fun t => ?_, fun t u => ?_, ?_, ?_, ?_⟩
  · obtain ⟨t', ht'⟩ := hs.closed.exists_resolvesTo t
    exact ⟨t', ht', ht'.again⟩
  · rcases settles_unify hs.closed t u with ⟨s₁, hm, -⟩ | ⟨e, hm, -⟩
    · obtain ⟨fuel, h⟩ := hm.exists_eq
      exact ⟨fuel, _, _, h⟩
    · obtain ⟨fuel, h⟩ := hm.exists_eq
      exact ⟨fuel, _, _, h⟩
  · intro t u fuel e s' h
    exact state_of_unify_eq_error h
  · intro t u fuel a s' h
    exact ⟨((unify_mostGeneral hs t u).2.2 fuel a s' h).1, hs.closed.refines_unify h⟩
  · intro s' hlater t u htu
    exact hs.resolveAlike_later hlater htu

/-- Once `'t0` is bound to `'t1 -> 't2`, it is that arrow whatever the session learns of its
    parts. -/
theorem unify_session_arrow :
    let s : Solution := Table.empty.insert 0 (.func (.var ⟨1, none⟩) (.var ⟨2, none⟩))
    s.Reachable ∧ s.isResolved = true ∧
      ∀ s', s.Later s' →
        s'.ResolveAlike (.var ⟨0, none⟩) (.func (.var ⟨1, none⟩) (.var ⟨2, none⟩)) := by
  intro s
  have hunify : Ty.unify 3 (.var ⟨0, none⟩) (.func (.var ⟨1, none⟩) (.var ⟨2, none⟩)) .empty =
      some (.ok s, s) := rfl
  have hs : s.Reachable := .unify .empty hunify
  obtain ⟨hresolved, -, -, -, -, hlater⟩ := Ty.unify_session hs
  refine ⟨hs, hresolved, fun s' hs' => hlater s' hs' _ _ ?_⟩
  exact ⟨.func (.var ⟨1, none⟩) (.var ⟨2, none⟩), .func (.var ⟨1, none⟩) (.var ⟨2, none⟩),
    ⟨2, rfl⟩, ⟨1, rfl⟩, Ty.alike_refl _⟩

end CoreCalculus
