/-
  CoreCalculus/Proofs/UnificationTermination.lean
  ===============================================
  **Unification ends**, with everything that it calls on the way.

  Fuel is handed down at every call, so an answer says that all calls made for it have
  ended.  Here the calls are made visible.  A call unifies two types in the solution that it
  finds (`UnifyCall`); it resolves both, and calls unification for their parts, one pair
  after another, each in the solution that the pairs before have left (`Calls`).  These are
  all calls there are, since a call is out of fuel only if resolving or one of them is
  (`exists_call_of_outOfFuel`).

  Resolved types grow when a variable is bound, so no size falls along the calls.  What falls
  is the pair of the number of unbound variables and the size of the resolved types
  (`acc_calls`): either a variable was bound by the pairs before, or the solution is the
  same and the parts are resolved already.  Bindings stay acyclic in all solutions that are
  met, hence chasing ends in each of them, and so does closing.
-/
import Mathlib.Logic.Relation
import CoreCalculus.Proofs.UnificationSession

namespace CoreCalculus

open Relation Solution

/-! ### Calls -/

/-- Two types to be unified, and the solution that the call finds. -/
structure UnifyCall where
  solution : Solution
  left : Ty
  right : Ty

/-- The call, with so much fuel. -/
def UnifyCall.run (fuel : Nat) (call : UnifyCall) : Option (Except UnifyError Unit × Solution) :=
  Ty.unifyTypes fuel call.left call.right call.solution

namespace Ty

/-- The parts by which two types of one form are unified, from left to right. -/
def parts : Ty → Ty → List (Ty × Ty)
  | .func a b, .func c d => [(a, c), (b, d)]
  | .prod a b, .prod c d => [(a, c), (b, d)]
  | .app a b, .app c d => [(a, c), (b, d)]
  | .adt m ts, .adt n us => if m = n ∧ ts.length = us.length then ts.zip us else []
  | _, _ => []

end Ty

/-- The calls for some pairs of types: a pair is called when all before it have succeeded. -/
inductive CallsAmong : Solution → List (Ty × Ty) → UnifyCall → Prop
  | head {s : Solution} {t u : Ty} {pairs : List (Ty × Ty)} :
      CallsAmong s ((t, u) :: pairs) ⟨s, t, u⟩
  | tail {s s' : Solution} {t u : Ty} {pairs : List (Ty × Ty)} {call : UnifyCall} {fuel : Nat} :
      UnifyCall.run fuel ⟨s, t, u⟩ = some (.ok (), s') → CallsAmong s' pairs call →
      CallsAmong s ((t, u) :: pairs) call

/-- The first call makes the second one. -/
inductive Calls : UnifyCall → UnifyCall → Prop
  | parts {s : Solution} {t u t' u' : Ty} {call : UnifyCall} :
      s.ResolvesTo t t' → s.ResolvesTo u u' → t'.alike u' = false →
      CallsAmong s (Ty.parts t' u') call → Calls ⟨s, t, u⟩ call

namespace Ty

/-! ### A call is out of fuel only if something that it does is -/

theorem exists_callsAmong_of_unifyAll {n : Nat} {s : Solution} {ts us : List Ty}
    (h : unifyAll (unifyTypes n) ts us s = none) :
    ∃ call, CallsAmong s (ts.zip us) call ∧ call.run n = none := by
  induction ts generalizing us s with
  | nil => cases h
  | cons t ts ih =>
    cases us with
    | nil => cases h
    | cons u us =>
      rcases Run.bind_eq_none_iff.1 h with h | ⟨⟨⟩, s', hs', h⟩
      · exact ⟨⟨s, t, u⟩, .head, h⟩
      · obtain ⟨call, hcall, hnone⟩ := ih h
        exact ⟨call, .tail hs' hcall, hnone⟩

theorem exists_callsAmong_of_unifyResolved {n : Nat} {s : Solution} {t u : Ty}
    (h : unifyResolved (unifyTypes n) t u s = none) :
    t.alike u = false ∧ ∃ call, CallsAmong s (parts t u) call ∧ call.run n = none := by
  have hpair : ∀ a b c d, (do unifyTypes n a c; unifyTypes n b d : Unification Unit) s = none →
      ∃ call, CallsAmong s [(a, c), (b, d)] call ∧ call.run n = none := by
    intro a b c d h
    rcases Run.bind_eq_none_iff.1 h with h | ⟨⟨⟩, s', hs', h⟩
    · exact ⟨⟨s, a, c⟩, .head, h⟩
    · exact ⟨⟨s', b, d⟩, .tail hs' .head, h⟩
  have hbind : ∀ v w, bindVar v w s ≠ none := by
    intro v w
    unfold bindVar
    split <;> simp
  unfold unifyResolved at h
  split at h
  · cases h
  · rename_i halike
    refine ⟨by simpa using halike, ?_⟩
    split at h
    · exact absurd h (hbind _ _)
    · exact absurd h (hbind _ _)
    · exact hpair _ _ _ _ h
    · exact hpair _ _ _ _ h
    · exact hpair _ _ _ _ h
    · split at h
      · rename_i hsame
        rw [parts, if_pos hsame]
        exact exists_callsAmong_of_unifyAll h
      · cases h
    · cases h

theorem exists_call_of_outOfFuel {n : Nat} {call : UnifyCall} (h : call.run (n + 1) = none) :
    call.solution.resolve n call.left = none ∨ call.solution.resolve n call.right = none ∨
      ∃ later, Calls call later ∧ later.run n = none := by
  obtain ⟨s, t, u⟩ := call
  rcases ht : s.resolve n t with _ | t'
  · exact .inl rfl
  rcases hu : s.resolve n u with _ | u'
  · exact .inr (.inl rfl)
  rw [UnifyCall.run, unifyTypes_succ] at h
  simp only [Run.bind_apply, Run.read?, ht, hu, Option.map_some] at h
  obtain ⟨halike, later, hlater, hnone⟩ := exists_callsAmong_of_unifyResolved h
  exact .inr (.inr ⟨later, .parts ⟨n, ht⟩ ⟨n, hu⟩ halike hlater, hnone⟩)

/-! ### What falls along the calls -/

/-- Parts are smaller, and have no other variables. -/
theorem mem_parts {t u a b : Ty} (h : (a, b) ∈ parts t u) :
    a.ids ⊆ t.ids ∧ b.ids ⊆ u.ids ∧ a.size + b.size < t.size + u.size := by
  unfold parts at h
  split at h
  case h_4 m ts n us =>
    split at h
    · obtain ⟨ha, hb⟩ := List.of_mem_zip h
      have hsa := size_le_sizeAll ha
      have hsb := size_le_sizeAll hb
      rw [ids_adt, ids_adt, size, size]
      refine ⟨fun i hi => List.mem_flatMap.2 ⟨a, ha, hi⟩,
        fun i hi => List.mem_flatMap.2 ⟨b, hb, hi⟩, ?_⟩
      omega
    · cases h
  case h_5 => cases h
  all_goals
    simp only [List.mem_cons, Prod.mk.injEq, List.not_mem_nil, or_false] at h
    rcases h with ⟨rfl, rfl⟩ | ⟨rfl, rfl⟩ <;>
      simp only [ids_func, ids_prod, ids_app, size] <;>
      refine ⟨by simp, by simp, by omega⟩

end Ty

namespace Solution

/-- A unification that succeeds in the course of a session goes on with it. -/
theorem InSession.advances {U : Finset Nat} {s s' : Solution} {t u : Ty} (hs : InSession U s)
    (ht : ∀ j ∈ t.ids, j ∈ U) (hu : ∀ j ∈ u.ids, j ∈ U) {fuel : Nat}
    (h : UnifyCall.run fuel ⟨s, t, u⟩ = some (.ok (), s')) : InSession U s' ∧ Advances U s s' := by
  obtain ⟨t', ht'⟩ := hs.acyclic.settles_resolve t
  obtain ⟨u', hu'⟩ := hs.acyclic.settles_resolve u
  have hsettles := Settles.of_mono (fun n r => Ty.unifyTypes_le n t u s r) h
  rcases Ty.unifyTypes_imposes hs ht hu ht' hu' with ⟨s₁, hm, hs₁, -, hadv⟩ | ⟨e, s₁, hm, -⟩
  · cases hm.unique hsettles
    exact ⟨hs₁, hadv⟩
  · cases hm.unique hsettles

end Solution

/-- The call is made in the course of a session over the variables `U`. -/
structure UnifyCall.Within (U : Finset Nat) (call : UnifyCall) : Prop where
  session : InSession U call.solution
  left : ∀ j ∈ call.left.ids, j ∈ U
  right : ∀ j ∈ call.right.ids, j ∈ U

section

variable {U : Finset Nat} {s : Solution} {call later : UnifyCall}

theorem CallsAmong.advances {pairs : List (Ty × Ty)} (h : CallsAmong s pairs call)
    (hs : InSession U s)
    (hpairs : ∀ p ∈ pairs, (∀ j ∈ p.1.ids, j ∈ U) ∧ ∀ j ∈ p.2.ids, j ∈ U) :
    call.Within U ∧ Advances U s call.solution ∧ (call.left, call.right) ∈ pairs := by
  induction h with
  | head =>
    obtain ⟨ht, hu⟩ := hpairs _ List.mem_cons_self
    exact ⟨⟨hs, ht, hu⟩, .inl rfl, List.mem_cons_self⟩
  | tail hrun _ ih =>
    obtain ⟨⟨ht, hu⟩, hrest⟩ := List.forall_mem_cons.1 hpairs
    obtain ⟨hs', hadv⟩ := hs.advances ht hu hrun
    obtain ⟨hwithin, hadv', hmem⟩ := ih hs' hrest
    exact ⟨hwithin, hadv.trans hadv', List.mem_cons_of_mem _ hmem⟩

/-- A call that is made comes later in the session, and is about parts of the resolved types. -/
theorem Calls.advances {t u t' u' : Ty} (h : Calls ⟨s, t, u⟩ later)
    (hcall : UnifyCall.Within U ⟨s, t, u⟩) (ht : s.ResolvesTo t t') (hu : s.ResolvesTo u u') :
    later.Within U ∧ Advances U s later.solution ∧ (later.left, later.right) ∈ Ty.parts t' u' := by
  cases h with
  | parts ht₁ hu₁ _ hlater =>
    obtain rfl := ht.unique ht₁
    obtain rfl := hu.unique hu₁
    obtain ⟨n, hn⟩ := ht
    obtain ⟨m, hm⟩ := hu
    refine hlater.advances hcall.session fun p hp => ?_
    obtain ⟨hleft, hright, -⟩ := Ty.mem_parts hp
    exact ⟨fun j hj => hcall.session.within.resolve hcall.left hn j (hleft hj),
      fun j hj => hcall.session.within.resolve hcall.right hm j (hright hj)⟩

theorem UnifyCall.Within.calls (hcall : call.Within U) (h : Calls call later) :
    later.Within U := by
  obtain ⟨s, t, u⟩ := call
  obtain ⟨t', ht'⟩ := hcall.session.acyclic.exists_resolvesTo t
  obtain ⟨u', hu'⟩ := hcall.session.acyclic.exists_resolvesTo u
  exact (h.advances hcall ht' hu').1

/-- There is no infinite chain of calls. -/
theorem acc_calls {s : Solution} {t u t' u' : Ty} (hcall : UnifyCall.Within U ⟨s, t, u⟩)
    (ht : s.ResolvesTo t t') (hu : s.ResolvesTo u u') :
    Acc (fun later call => Calls call later) ⟨s, t, u⟩ := by
  refine .intro _ fun later hlater => ?_
  obtain ⟨hwithin, hadv, hmem⟩ := hlater.advances hcall ht hu
  obtain ⟨s', a, b⟩ := later
  dsimp only at hadv hmem
  obtain ⟨ha, hb, hsize⟩ := Ty.mem_parts hmem
  rcases hadv with heq | hless
  · -- nothing was bound: the parts are resolved, and smaller
    obtain ⟨n, hn⟩ := ht
    obtain ⟨m, hm⟩ := hu
    have ha' : s'.ResolvesTo a a :=
      (settles_resolve_self fun j hj => heq ▸ unbound_of_resolve hn j (ha hj)).exists_eq
    have hb' : s'.ResolvesTo b b :=
      (settles_resolve_self fun j hj => heq ▸ unbound_of_resolve hm j (hb hj)).exists_eq
    exact acc_calls hwithin ha' hb'
  · obtain ⟨a', ha'⟩ := hwithin.session.acyclic.exists_resolvesTo a
    obtain ⟨b', hb'⟩ := hwithin.session.acyclic.exists_resolvesTo b
    exact acc_calls hwithin ha' hb'
termination_by (s.unbound U, t'.size + u'.size)
decreasing_by
  · rw [heq]
    exact Prod.Lex.right _ hsize
  · exact Prod.Lex.left _ _ hless

theorem UnifyCall.Within.exists_run (hcall : call.Within U) : ∃ fuel r, call.run fuel = some r := by
  obtain ⟨t', ht'⟩ := hcall.session.acyclic.settles_resolve call.left
  obtain ⟨u', hu'⟩ := hcall.session.acyclic.settles_resolve call.right
  rcases Ty.unifyTypes_imposes hcall.session hcall.left hcall.right ht' hu' with
    ⟨s', hm, -⟩ | ⟨e, s', hm, -⟩
  · obtain ⟨fuel, h⟩ := hm.exists_eq
    exact ⟨fuel, _, h⟩
  · obtain ⟨fuel, h⟩ := hm.exists_eq
    exact ⟨fuel, _, h⟩

/-- A session of closed solutions, over all variables in play. -/
theorem Solution.Closed.exists_within (hs : s.Closed) (t u : Ty) :
    ∃ U, UnifyCall.Within U ⟨s, t, u⟩ := by
  refine ⟨(s.ids ++ t.ids ++ u.ids).toFinset, ⟨hs.acyclic, within_iff.2 fun i hi => ?_⟩,
    fun j hj => ?_, fun j hj => ?_⟩
  · simp [hi]
  · dsimp only at hj
    simp [hj]
  · dsimp only at hj
    simp [hj]

end

/-- **Unification ends**, in every session and for all types.  There is no infinite chain of
    calls.  Each call that is made on the way ends; in the solution that it finds every type
    can be chased to the end, where no bound variable is left and chasing again changes
    nothing; and if it succeeds, this holds of the solution it leaves too, and closing that
    solution ends.  A call that runs out of fuel does so in one of these. -/
theorem Ty.unification_terminates {s : Solution} (hs : s.Reachable) (t u : Ty) :
    (∃ fuel r s', unify fuel t u s = some (r, s')) ∧
    Acc (fun later call => Calls call later) ⟨s, t, u⟩ ∧
    ∀ call, ReflTransGen Calls ⟨s, t, u⟩ call →
      (∃ fuel r, call.run fuel = some r) ∧
      (∀ w, ∃ w', call.solution.ResolvesTo w w' ∧ (∀ j ∈ w'.ids, ¬ call.solution.Binds j) ∧
        call.solution.ResolvesTo w' w') ∧
      (∀ fuel s', call.run fuel = some (.ok (), s') →
        (∀ w, ∃ w', s'.ResolvesTo w w') ∧ ∃ rounds c, s'.close rounds = some c) ∧
      ∀ fuel, call.run (fuel + 1) = none →
        call.solution.resolve fuel call.left = none ∨
        call.solution.resolve fuel call.right = none ∨
        ∃ later, Calls call later ∧ later.run fuel = none := by
  obtain ⟨U, hwithin⟩ := hs.closed.exists_within t u
  refine ⟨?_, ?_, fun call hcall => ?_⟩
  · rcases settles_unify hs.closed t u with ⟨s', hm, -⟩ | ⟨e, hm, -⟩
    · obtain ⟨fuel, h⟩ := hm.exists_eq
      exact ⟨fuel, _, _, h⟩
    · obtain ⟨fuel, h⟩ := hm.exists_eq
      exact ⟨fuel, _, _, h⟩
  · obtain ⟨t', ht'⟩ := hs.closed.exists_resolvesTo t
    obtain ⟨u', hu'⟩ := hs.closed.exists_resolvesTo u
    exact acc_calls hwithin ht' hu'
  · have hcall : call.Within U := by
      induction hcall with
      | refl => exact hwithin
      | tail _ hstep ih => exact ih.calls hstep
    refine ⟨hcall.exists_run, fun w => ?_, fun fuel s' h => ?_, fun fuel h => ?_⟩
    · obtain ⟨w', hw'⟩ := hcall.session.acyclic.exists_resolvesTo w
      obtain ⟨n, hn⟩ := hw'
      exact ⟨w', ⟨n, hn⟩, fun j hj hbound => hbound (unbound_of_resolve hn j hj),
        ResolvesTo.again ⟨n, hn⟩⟩
    · have hs' := (hcall.session.advances hcall.left hcall.right h).1.acyclic
      obtain ⟨c, hc⟩ := hs'.exists_closesTo
      obtain ⟨rounds, hrounds⟩ := hc.settles.exists_eq
      exact ⟨hs'.exists_resolvesTo, rounds, c, hrounds⟩
    · exact exists_call_of_outOfFuel h

/-- With `'t1` bound to `'t0`, the arguments of two arrows bind `'t0`; the call for their results
    finds a chain of two hops, and leaves bindings that take a round to close. -/
theorem unification_terminates_arrows :
    let s : Solution := Table.empty.insert 1 (.var ⟨0, none⟩)
    let t : Ty := .func (.var ⟨1, none⟩) (.var ⟨0, none⟩)
    let u : Ty := .func .int (.var ⟨2, none⟩)
    let results : UnifyCall := ⟨s.insert 0 .int, .var ⟨0, none⟩, .var ⟨2, none⟩⟩
    let s' : Solution := (s.insert 0 .int).insert 2 .int
    s.Reachable ∧ (∃ fuel r s', Ty.unify fuel t u s = some (r, s')) ∧
      Calls ⟨s, t, u⟩ results ∧ results.run 3 = some (.ok (), s') ∧
      (∀ w, ∃ w', s'.ResolvesTo w w') ∧ ∃ rounds c, s'.close rounds = some c := by
  intro s t u results s'
  have hunify : Ty.unify 3 (.var ⟨1, none⟩) (.var ⟨0, none⟩) .empty = some (.ok s, s) := rfl
  have hs : s.Reachable := .unify .empty hunify
  have ht : s.ResolvesTo t (.func (.var ⟨0, none⟩) (.var ⟨0, none⟩)) := ⟨2, rfl⟩
  have hu : s.ResolvesTo u u := ⟨1, rfl⟩
  have harguments :
      UnifyCall.run 2 ⟨s, .var ⟨0, none⟩, .int⟩ = some (.ok (), s.insert 0 .int) := rfl
  have hcalls : Calls ⟨s, t, u⟩ results := .parts ht hu (by decide) (.tail harguments .head)
  obtain ⟨hends, -, hcall⟩ := Ty.unification_terminates hs t u
  have hrun : results.run 3 = some (.ok (), s') := rfl
  obtain ⟨-, -, hleaves, -⟩ := hcall results (.single hcalls)
  obtain ⟨hchase, hclose⟩ := hleaves 3 s' hrun
  exact ⟨hs, hends, hcalls, hrun, hchase, hclose⟩

end CoreCalculus
