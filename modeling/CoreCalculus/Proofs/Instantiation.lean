/-
  CoreCalculus/Proofs/Instantiation.lean
  ======================================
  **Instantiation is a fresh renaming**, at any time in a session.

  Nothing is compared with what was minted before: a session has one counter, it starts
  beyond all ids of the context, and every new variable is drawn from it.  To say so, a
  run of a check is written down in a `Journal`, which lists what is minted, in order,
  also when the check fails.  A journal has a rule for `fresh`, and one for checks that
  leave the supply alone.  That each run of inference has a journal (`Made.journaled`)
  says that no variable is minted in another way.

  What a journal lists follows the counter (`Journal.follows`), also through a session of
  many calls, so an instance is made of numbers that no earlier entry has.  Nor does the
  session know them from elsewhere, since all ids in circulation are below the counter.
-/
import Mathlib.Data.List.Nodup
import CoreCalculus.Proofs.Circulation

namespace CoreCalculus

/-- Rename the variables whose ids are listed, and drop their hints. -/
def Ty.renameListed (vars : List TypeVar) (f : Nat → Nat) (t : Ty) : Ty :=
  t.subst fun v => if v.id ∈ vars.map TypeVar.id then .var ⟨f v.id, none⟩ else .var v

namespace Checker

/-! ### Journals -/

/-- What a journal lists: a variable for a type that is not known yet, and an instance of a scheme,
    with the session that made it and all ids that were minted for it. -/
inductive Entry where
  | unknown (id : Nat)
  | scheme (s : Scheme) (k : Checker) (ids : List Nat)

def Entry.ids : Entry → List Nat
  | unknown id => [id]
  | scheme _ _ ids => ids

/-- All ids that a journal lists. -/
def minted (log : List Entry) : List Nat := log.flatMap Entry.ids

/-- From the session `k`, the check answers `r` at `k'`, and mints on the way what is in the
    journal.  What is minted for a scheme may be listed together, as an instance of it, or one by
    one. -/
inductive Journal :
    {α : Type} → Check α → Checker → List Entry → Except TypeError α → Checker → Prop
  | quiet {α : Type} {m : Check α} {k k' : Checker} {r : Except TypeError α} :
      m k = some (r, k') → k' = { k with solution := k'.solution } → Journal m k [] r k'
  | fresh {k k' : Checker} {v : TypeVar} :
      Checker.fresh k = some (.ok (.var v), k') →
      Journal Checker.fresh k [.unknown v.id] (.ok (.var v)) k'
  | scheme (s : Scheme) {k k' : Checker} {log : List Entry} {r : Except TypeError (Table Nat Ty)} :
      Journal (freshFor .empty s.vars) k log r k' →
      Journal (freshFor .empty s.vars) k [.scheme s k (minted log)] r k'
  | bind {α β : Type} {m : Check α} {f : α → Check β} {k k₁ k₂ : Checker} {log more : List Entry}
      {a : α} {r : Except TypeError β} :
      Journal m k log (.ok a) k₁ → Journal (f a) k₁ more r k₂ →
      Journal (m >>= f) k (log ++ more) r k₂
  | fails {α β : Type} {m : Check α} {f : α → Check β} {k k' : Checker} {log : List Entry}
      {e : TypeError} :
      Journal m k log (.error e) k' → Journal (m >>= f) k log (.error e) k'

theorem Journal.run {α : Type} {m : Check α} {k k' : Checker} {log : List Entry}
    {r : Except TypeError α} (h : Journal m k log r k') : m k = some (r, k') := by
  induction h with
  | quiet hrun _ => exact hrun
  | fresh hrun => exact hrun
  | scheme s _ ih => exact ih
  | bind _ _ ihm ihf => rw [Run.bind_apply, ihm]; exact ihf
  | fails _ ih => rw [Run.bind_apply, ih]

/-! ### The counter -/

/-- What is listed is what a counter gives on its way from `n` to `n'`. -/
inductive Follows : Nat → List Entry → Nat → Prop
  | nil (n : Nat) : Follows n [] n
  | unknown {n n' : Nat} {log : List Entry} :
      Follows (n + 1) log n' → Follows n (.unknown n :: log) n'
  | scheme {n n' : Nat} {s : Scheme} {k : Checker} {log : List Entry} :
      k.counting = .unbounded → k.supply.next = n → Follows (n + s.vars.length) log n' →
      Follows n (.scheme s k (List.range' n s.vars.length) :: log) n'

namespace Follows

variable {n n₁ n' : Nat} {log more : List Entry}

theorem append (h : Follows n log n₁) (h' : Follows n₁ more n') : Follows n (log ++ more) n' := by
  induction h with
  | nil _ => exact h'
  | unknown _ ih => exact .unknown (ih h')
  | scheme hk hn _ ih => exact .scheme hk hn (ih h')

theorem split (h : Follows n (log ++ more) n') :
    ∃ n₁, Follows n log n₁ ∧ Follows n₁ more n' := by
  induction log generalizing n with
  | nil => exact ⟨n, .nil n, h⟩
  | cons e log ih =>
    cases h with
    | unknown h =>
      obtain ⟨n₁, h₁, h₂⟩ := ih h
      exact ⟨n₁, .unknown h₁, h₂⟩
    | scheme hk hn h =>
      obtain ⟨n₁, h₁, h₂⟩ := ih h
      exact ⟨n₁, .scheme hk hn h₁, h₂⟩

theorem le (h : Follows n log n') : n ≤ n' := by
  induction h <;> omega

theorem minted_eq (h : Follows n log n') : minted log = List.range' n (n' - n) := by
  induction h with
  | nil n => simp [minted]
  | @unknown n n' log h ih =>
    have hle := h.le
    rw [show n' - n = 1 + (n' - (n + 1)) by omega, ← List.range'_append_1, ← ih]
    rfl
  | @scheme n n' s k log _ _ h ih =>
    have hle := h.le
    rw [show n' - n = s.vars.length + (n' - (n + s.vars.length)) by omega,
      ← List.range'_append_1, ← ih]
    rfl

end Follows

theorem Journal.counting_eq {α : Type} {m : Check α} {k k' : Checker} {log : List Entry}
    {r : Except TypeError α} (h : Journal m k log r k') : k'.counting = k.counting := by
  induction h with
  | quiet _ hrest => rw [hrest]
  | fresh hrun => cases hrun; rfl
  | scheme s _ ih => exact ih
  | bind _ _ ihm ihf => exact ihf.trans ihm
  | fails _ ih => exact ih

/-- Journals follow the counter. -/
theorem Journal.follows {α : Type} {m : Check α} {k k' : Checker} {log : List Entry}
    {r : Except TypeError α} (h : Journal m k log r k') (hk : k.counting = .unbounded) :
    Follows k.supply.next log k'.supply.next := by
  induction h with
  | quiet _ hrest => rw [hrest]; exact .nil _
  | @fresh k k' v hrun =>
    rw [fresh_eq_mint hk] at hrun
    cases hrun
    exact .unknown (.nil _)
  | @scheme s k k' log r h ih =>
    obtain ⟨bindings, f, hrun, -⟩ := exists_freshFor s.vars .empty hk
    rw [h.run] at hrun
    cases hrun
    rw [(ih hk).minted_eq, Nat.add_sub_cancel_left]
    exact .scheme hk rfl (.nil _)
  | bind hm _ ihm ihf => exact (ihm hk).append (ihf (hm.counting_eq.trans hk))
  | fails _ ih => exact ih hk

/-! ### Every run has a journal -/

/-- Each run of the check has a journal. -/
def Journaled {α : Type} (m : Check α) : Prop :=
  ∀ k r k', m k = some (r, k') → ∃ log, Journal m k log r k'

theorem Journaled.bind {α β : Type} {m : Check α} {f : α → Check β} (hm : Journaled m)
    (hf : ∀ a, Journaled (f a)) : Journaled (m >>= f) := by
  intro k r k' h
  rcases Run.bind_eq_some_iff.1 h with ⟨e, hrun, rfl⟩ | ⟨a, k₁, hrun, h⟩
  · obtain ⟨log, hlog⟩ := hm k _ k' hrun
    exact ⟨log, hlog.fails⟩
  · obtain ⟨log, hlog⟩ := hm k _ k₁ hrun
    obtain ⟨more, hmore⟩ := hf a k₁ r k' h
    exact ⟨_, hlog.bind hmore⟩

theorem pure_journaled {α : Type} (a : α) : Journaled (pure a : Check α) := by
  intro k r k' h
  cases h
  exact ⟨[], .quiet rfl rfl⟩

theorem fresh_journaled : Journaled fresh := by
  intro k r k' h
  cases h
  exact ⟨_, .fresh rfl⟩

theorem freshFor_journaled (bindings : Table Nat Ty) (vars : List TypeVar) :
    Journaled (freshFor bindings vars) := by
  induction vars generalizing bindings with
  | nil => exact pure_journaled _
  | cons v vars ih => exact fresh_journaled.bind fun _ => ih _

theorem Made.journaled {α : Type} {m : Check α} (h : Made m) : Journaled m := by
  induction h with
  | pure a => exact pure_journaled a
  | fail _ =>
    intro k r k' h
    cases h
    exact ⟨[], .quiet rfl rfl⟩
  | bind _ _ ihm ihf => exact ihm.bind ihf
  | fresh => exact fresh_journaled
  | freshFor s =>
    intro k r k' h
    obtain ⟨log, hlog⟩ := freshFor_journaled .empty s.vars k r k' h
    exact ⟨_, .scheme s hlog⟩
  | resolve n t =>
    intro k r k' h
    obtain ⟨u, -, heq⟩ := Option.map_eq_some_iff.1 h
    cases heq
    exact ⟨[], .quiet h rfl⟩
  | expect n t _ =>
    intro k r k' h
    obtain ⟨_, s, -, rfl, -⟩ := expect_cases h
    exact ⟨[], .quiet h rfl⟩

/-! ### Instances -/

/-- The session `k` answers with the type of the scheme, where `f` renames each quantified variable
    to one of `ids`, and so with the parts of a constructor's type that a pattern asks for.  The
    ids were not `used` before, the counter has not passed them, and they are larger than all ids
    of the context. -/
structure FreshInstance (c : Context) (used : List Nat) (s : Scheme) (k : Checker) (ids : List Nat)
    (f : Nat → Nat) : Prop where
  answers : ∃ k', instantiate s k = some (.ok (s.ty.renameListed s.vars f), k')
  parts : ∃ bindings k', freshFor .empty s.vars k = some (.ok bindings, k') ∧
    ∀ t : Ty, t.replace bindings = t.renameListed s.vars f
  mem : ∀ v ∈ s.vars, f v.id ∈ ids
  apart : ∀ v ∈ s.vars, ∀ w ∈ s.vars, f v.id = f w.id → v.id = w.id
  unused : ∀ i ∈ ids, i ∉ used
  coming : ∀ i ∈ ids, k.supply.next ≤ i
  above : ∀ i ∈ ids, ∀ j ∈ c.ids, j < i

theorem Numbers.replace_eq {vars : List TypeVar} {n : Nat} {bindings : Table Nat Ty}
    {f : Nat → Nat} (h : Numbers vars n .empty bindings f) (t : Ty) :
    t.replace bindings = t.renameListed vars f := by
  refine Ty.subst_congr fun v _ => ?_
  split
  · rename_i hv
    rw [h.listed _ hv]
    rfl
  · rename_i hv
    rw [h.others _ hv]
    rfl

theorem instantiate_of_freshFor {s : Scheme} {k k' : Checker} {bindings : Table Nat Ty}
    (h : freshFor .empty s.vars k = some (.ok bindings, k')) :
    instantiate s k = some (.ok (s.ty.replace bindings), k') := by
  rw [instantiate, Run.bind_apply, h]
  rfl

theorem exists_freshInstance {c : Context} {n : Nat} {used : List Nat} (s : Scheme) {k : Checker}
    (hk : k.counting = .unbounded) (hnext : k.supply.next = n) (hused : ∀ i ∈ used, i < n)
    (hc : c.Below n) : ∃ f, FreshInstance c used s k (List.range' n s.vars.length) f := by
  obtain ⟨bindings, f, hrun, hf⟩ := exists_freshFor s.vars .empty hk
  rw [hnext] at hf
  have hanswer := instantiate_of_freshFor hrun
  rw [hf.replace_eq] at hanswer
  have hle : ∀ i ∈ List.range' n s.vars.length, n ≤ i := fun i hi => (List.mem_range'_1.1 hi).1
  refine ⟨f, ⟨_, hanswer⟩, ⟨bindings, _, hrun, hf.replace_eq⟩, ?_, ?_, ?_, hnext ▸ hle, ?_⟩
  · exact fun v hv => hf.mem _ (List.mem_map_of_mem hv)
  · exact fun v hv w hw => hf.apart _ (List.mem_map_of_mem hv) _ (List.mem_map_of_mem hw)
  · exact fun i hi hi' => absurd (hused i hi') (Nat.not_lt.2 (hle i hi))
  · exact fun i hi j hj => Nat.lt_of_lt_of_le (hc j hj) (hle i hi)

/-! ### Sessions -/

/-- A session for the context, with its journal: any inferences and instantiations, in any order,
    each of which may have failed. -/
inductive Session (c : Context) : List Entry → Checker → Prop
  | start : Session c [] (ofContext c)
  | infer {log more : List Entry} {k k' : Checker} {fuel : Nat} {t : Term}
      {r : Except TypeError Ty} :
      Session c log k → Journal (Checker.infer fuel c t) k more r k' → Session c (log ++ more) k'
  | instantiate {log : List Entry} {k k' : Checker} {s : Scheme} {ids : List Nat}
      {r : Except TypeError Ty} :
      Session c log k → Journal (Checker.instantiate s) k [.scheme s k ids] r k' →
      Session c (log ++ [.scheme s k ids]) k'

theorem Session.unbounded {c : Context} {log : List Entry} {k : Checker} (h : Session c log k) :
    k.counting = .unbounded := by
  induction h with
  | start => rfl
  | infer _ hrun ih => exact hrun.counting_eq.trans ih
  | instantiate _ hrun ih => exact hrun.counting_eq.trans ih

theorem Session.follows {c : Context} {log : List Entry} {k : Checker} (h : Session c log k) :
    Follows (ofContext c).supply.next log k.supply.next := by
  induction h with
  | start => exact .nil _
  | infer h hrun ih => exact ih.append (hrun.follows h.unbounded)
  | instantiate h hrun ih => exact ih.append (hrun.follows h.unbounded)

theorem Session.context_below {c : Context} {log : List Entry} {k : Checker} (h : Session c log k) :
    c.Below k.supply.next := (below_ofContext c).mono h.follows.le

theorem Session.valid {c : Context} {log : List Entry} {k : Checker} (h : Session c log k) :
    k.Valid := by
  induction h with
  | start => exact valid_ofContext c
  | infer h hrun ih => exact (infer_keeps _ _ ih h.context_below _ _ hrun.run).1.valid
  | @instantiate _ k k' s ids r _ hrun ih =>
    -- the scheme may mention any ids, but the solution does not see them
    have hempty : BindingsBelow k.supply.next .empty := fun i t ht => by simp at ht
    obtain ⟨bindings, k₁, hfresh, hminted⟩ := freshFor_minted s.vars ih hempty
    have hanswer := hrun.run
    rw [instantiate_of_freshFor hfresh] at hanswer
    cases hanswer
    exact hminted.grows.valid

/-- Inference that comes to an answer goes on with the session. -/
theorem Session.exists_infer {c : Context} {log : List Entry} {k k' : Checker} (h : Session c log k)
    {fuel : Nat} {t : Term} {r : Except TypeError Ty}
    (hrun : Checker.infer fuel c t k = some (r, k')) : ∃ more, Session c (log ++ more) k' := by
  obtain ⟨more, hmore⟩ := (infer_made fuel c t).journaled k r k' hrun
  exact ⟨more, h.infer hmore⟩

theorem Session.exists_instantiate {c : Context} {log : List Entry} {k : Checker}
    (h : Session c log k) (s : Scheme) :
    ∃ ids k', Session c (log ++ [.scheme s k ids]) k' := by
  obtain ⟨bindings, -, hrun, -⟩ := exists_freshFor s.vars .empty h.unbounded
  obtain ⟨more, hmore⟩ := freshFor_journaled .empty s.vars k _ _ hrun
  have hjournal : Journal (Checker.instantiate s) k ([.scheme s k (minted more)] ++ [])
      (.ok (s.ty.replace bindings)) _ := (Journal.scheme s hmore).bind (.quiet rfl rfl)
  exact ⟨_, _, h.instantiate hjournal⟩

theorem Session.exists_freshInstance {c : Context} {earlier later : List Entry} {s : Scheme}
    {k₀ k : Checker} {ids : List Nat} (h : Session c (earlier ++ .scheme s k₀ ids :: later) k) :
    ∃ f, FreshInstance c (minted earlier) s k₀ ids f := by
  obtain ⟨n, hearlier, hlater⟩ := h.follows.split
  have hle := hearlier.le
  cases hlater with
  | scheme hk hnext _ =>
    refine Checker.exists_freshInstance s hk hnext (fun i hi => ?_) ((below_ofContext c).mono hle)
    rw [hearlier.minted_eq, List.mem_range'_1] at hi
    omega

/-- **Instantiation is a fresh renaming.**  A session can go on with any scheme, and with any
    inference that comes to an answer, right or wrong.  Its journal misses nothing that was drawn
    from the supply.  Each instance of a scheme in it, made on request or within an inference, has
    for every quantified variable one variable of its own, which is new in the session and to the
    context, and no two entries have a variable in common.  What the counter has not passed is in
    no answer of an inference, nor in the solution. -/
theorem instantiation_fresh {c : Context} {log : List Entry} {k : Checker} (h : Session c log k) :
    (∀ s, ∃ ids k', Session c (log ++ [.scheme s k ids]) k') ∧
    (∀ fuel t r k', infer fuel c t k = some (r, k') → (∃ more, Session c (log ++ more) k') ∧
      ∀ τ : Ty, r = .ok τ → ∀ i ∈ τ.ids, i < k'.supply.next) ∧
    k.solution.Within (· < k.supply.next) ∧
    minted log = List.range' (ofContext c).supply.next
      (k.supply.next - (ofContext c).supply.next) ∧
    (∀ earlier s k₀ ids later, log = earlier ++ .scheme s k₀ ids :: later →
      ∃ f, FreshInstance c (minted earlier) s k₀ ids f) ∧
    log.Pairwise fun e e' => e.ids.Disjoint e'.ids := by
  refine ⟨h.exists_instantiate, fun fuel t r k' hrun => ?_, h.valid.within, h.follows.minted_eq,
    ?_, ?_⟩
  · exact ⟨h.exists_infer hrun, (infer_keeps fuel t h.valid h.context_below r k' hrun).2⟩
  · rintro earlier s k₀ ids later rfl
    exact h.exists_freshInstance
  · have hnodup : (minted log).Nodup := h.follows.minted_eq ▸ List.nodup_range'
    exact (List.nodup_flatMap.1 hnodup).2

/-- An inference that fails when it has instantiated a name, and then an instance of a scheme that
    lists `'t0` twice and does not quantify `'t7`. -/
theorem instantiation_fresh_after_failure :
    let identity : Scheme := ⟨[⟨0, none⟩], .func (.var ⟨0, none⟩) (.var ⟨0, none⟩)⟩
    let c : Context := Context.empty.extend "id" identity
    let s : Scheme := ⟨[⟨0, none⟩, ⟨1, none⟩, ⟨0, none⟩],
      .func (.var ⟨0, none⟩) (.prod (.var ⟨1, none⟩) (.var ⟨7, none⟩))⟩
    let k : Checker := ⟨.empty, ⟨2⟩, .unbounded⟩
    infer 9 c (.app (.var "id") (.var "y")) (ofContext c) =
        some (.error (.unboundVariable "y"), k) ∧
      Session c [.scheme identity (ofContext c) [1], .scheme s k [2, 3, 4]]
        ⟨.empty, ⟨5⟩, .unbounded⟩ ∧
      ∃ f, FreshInstance c [1] s k [2, 3, 4] f := by
  intro identity c s k
  have hname : Journal (typeOf 9 c (.var "id")) (ofContext c)
      [.scheme identity (ofContext c) [1]] (.ok (.func (.var ⟨1, none⟩) (.var ⟨1, none⟩))) k :=
    .bind (.scheme identity (.bind (.fresh rfl) (.quiet rfl rfl))) (.quiet rfl rfl)
  have hinfer : Journal (infer 9 c (.app (.var "id") (.var "y"))) (ofContext c)
      [.scheme identity (ofContext c) [1]] (.error (.unboundVariable "y")) k :=
    .fails (.bind hname (.fails (.quiet rfl rfl)))
  have hsecond : Journal (instantiate s) k [.scheme s k [2, 3, 4]]
      (.ok (.func (.var ⟨4, none⟩) (.prod (.var ⟨3, none⟩) (.var ⟨7, none⟩))))
      ⟨.empty, ⟨5⟩, .unbounded⟩ :=
    .bind (.scheme s (.bind (.fresh rfl) (.bind (.fresh rfl) (.bind (.fresh rfl) (.quiet rfl rfl)))))
      (.quiet rfl rfl)
  have hsession := (Session.start.infer hinfer).instantiate hsecond
  exact ⟨hinfer.run, hsession, (instantiation_fresh hsession).2.2.2.2.1 _ _ _ _ [] rfl⟩

end Checker

end CoreCalculus
