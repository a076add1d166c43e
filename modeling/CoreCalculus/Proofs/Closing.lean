/-
  CoreCalculus/Proofs/Closing.lean
  ================================
  **Closing keeps what a solution means.**

  The bindings of a solution form a graph: a bound variable mentions the variables of its
  value.  The graph has no cycle exactly when some rank falls along it
  (`acyclic_iff_irreflexive`), since there are finitely many bound variables to count.

  A hop replaces each mentioned variable by its value, and chasing goes through that value
  anyway.  So what a type resolves to before a hop it resolves to after it, hints included,
  and with no more fuel (`resolve_oneHop`); no acyclicity is needed for this.  After the last
  hop of an acyclic solution there is nothing left to chase, so the values are what the
  variables resolved to in the beginning.

  On bindings with a cycle the rounds may still end.  They do so only where a variable that
  is still mentioned is bound to itself (`eq_var_of_close`).
-/
import Mathlib.Logic.Relation
import CoreCalculus.Proofs.UnificationSession

namespace CoreCalculus

open Relation

/-- Replacing variables that were put in. -/
theorem Ty.subst?_subst (f : TypeVar → Ty) (g : TypeVar → Option Ty) (t : Ty) :
    (t.subst f).subst? g = t.subst? fun v => (f v).subst? g := by
  induction t using Ty.induct with
  | adt name ts ih =>
    have hall : Ty.substAll? g (Ty.substAll f ts) =
        Ty.substAll? (fun v => (f v).subst? g) ts := by
      induction ts with
      | nil => rfl
      | cons t ts ihs =>
        rw [List.forall_mem_cons] at ih
        rw [Ty.substAll, Ty.substAll?, Ty.substAll?, ih.1, ihs ih.2]
    rw [Ty.subst, Ty.subst?, Ty.subst?, hall]
  | var v => rfl
  | const name => rfl
  | func a b iha ihb | prod a b iha ihb | app a b iha ihb =>
    rw [Ty.subst, Ty.subst?, Ty.subst?, iha, ihb]

namespace Solution

variable {s c : Solution} {t u : Ty} {i j : Nat}

/-! ### The graph of the bindings -/

/-- `j` occurs in the value of `i`. -/
def Mentions (s : Solution) (i j : Nat) : Prop := ∃ t, s.get? i = some t ∧ j ∈ t.ids

theorem Mentions.binds (h : s.Mentions i j) : s.Binds i := by
  obtain ⟨t, ht, -⟩ := h
  simp [Binds, ht]

theorem Spaced.lt_of_reaches {rank : Nat → Nat} (hrank : s.Spaced rank 1)
    (h : TransGen s.Mentions i j) (hj : s.Binds j) : rank j < rank i := by
  induction h with
  | single hij =>
    obtain ⟨t, ht, hmem⟩ := hij
    exact hrank i t ht _ hmem hj
  | tail _ hkj ih =>
    have hik := ih hkj.binds
    obtain ⟨t, ht, hmem⟩ := hkj
    have hkj := hrank _ t ht _ hmem hj
    omega

open Classical in
/-- How many bound variables are reached from a variable. -/
noncomputable def reach (s : Solution) (i : Nat) : Nat :=
  (s.keys.toFinset.filter fun j => TransGen s.Mentions i j).card

/-- From a variable that does not reach itself, fewer variables are reached than from one that
    mentions it. -/
theorem Mentions.reach_lt (h : s.Mentions i j) (hj : s.Binds j)
    (hcycle : ¬ TransGen s.Mentions j j) : s.reach j < s.reach i := by
  classical
  have hkey : j ∈ s.keys.toFinset := by
    rw [List.mem_toFinset]
    by_contra hmem
    exact hj (Table.get?_eq_none_iff.2 hmem)
  refine Finset.card_lt_card (Finset.ssubset_iff_of_subset ?_ |>.2 ⟨j, ?_, ?_⟩)
  · intro k hk
    rw [Finset.mem_filter] at hk ⊢
    exact ⟨hk.1, hk.2.head h⟩
  · exact Finset.mem_filter.2 ⟨hkey, .single h⟩
  · intro hmem
    exact hcycle (Finset.mem_filter.1 hmem).2

/-- Some rank falls along the bindings exactly when no variable reaches itself. -/
theorem acyclic_iff_irreflexive : s.Acyclic ↔ ∀ i, ¬ TransGen s.Mentions i i := by
  constructor
  · rintro ⟨rank, hrank⟩ i hi
    have hbound : s.Binds i := by
      obtain ⟨k, hk, -⟩ := TransGen.head'_iff.1 hi
      exact hk.binds
    exact Nat.lt_irrefl _ (hrank.lt_of_reaches hi hbound)
  · intro h
    exact ⟨s.reach, fun i t ht j hj hbound => Mentions.reach_lt ⟨t, ht, hj⟩ hbound (h j)⟩

/-! ### Resolving through a hop -/

theorem resolve_unbound {v : TypeVar} (n : Nat) (hv : s.get? v.id = none) :
    s.resolve (n + 1) (.var v) = some (.var v) := by
  rw [resolve_succ, Ty.subst?, hv]

theorem resolve_bound {v : TypeVar} (n : Nat) (hv : s.get? v.id = some t) :
    s.resolve (n + 1) (.var v) = s.resolve n t := by
  rw [resolve_succ, Ty.subst?, hv]

/-- Chasing goes through the values of the variables anyway. -/
theorem resolve_replace {n : Nat} (h : s.resolve n t = some u) :
    s.resolve n (t.replace s) = some u := by
  cases n with
  | zero => simp [resolve] at h
  | succ n =>
    rw [resolve_succ, Ty.subst?_eq_some_iff] at h
    obtain ⟨hsome, rfl⟩ := h
    rw [Ty.replace, resolve_succ, Ty.subst?_subst]
    refine Ty.subst?_eq_some fun v hv => ?_
    have hv := hsome v hv
    rw [← resolve_succ]
    rcases hb : s.get? v.id with _ | b
    · exact resolve_unbound n hb
    · simp only [hb] at hv ⊢
      obtain ⟨x, hx⟩ := Option.isSome_iff_exists.1 hv
      rw [hx]
      exact resolve_mono s n b x hx

/-- What a type resolves to before a hop it resolves to after it. -/
theorem resolve_oneHop {n : Nat} (h : s.resolve n t = some u) :
    (oneHop s).resolve n t = some u := by
  induction n generalizing t u with
  | zero => simp [resolve] at h
  | succ n ih =>
    rw [resolve_succ, Ty.subst?_eq_some_iff] at h
    obtain ⟨hsome, rfl⟩ := h
    rw [resolve_succ]
    refine Ty.subst?_eq_some fun v hv => ?_
    have hv := hsome v hv
    rw [get?_oneHop]
    rcases hb : s.get? v.id with _ | b
    · rfl
    · simp only [hb, Option.map_some] at hv ⊢
      obtain ⟨x, hx⟩ := Option.isSome_iff_exists.1 hv
      rw [hx]
      exact ih (resolve_replace hx)

/-! ### Closing -/

theorem resolve_close {n m : Nat} (hc : s.close m = some c) (h : s.resolve n t = some u) :
    c.resolve n t = some u := by
  induction m generalizing s with
  | zero => simp [close] at hc
  | succ m ih =>
    rw [close_succ] at hc
    split at hc
    · cases hc
      exact h
    · exact ih hc (resolve_oneHop h)

/-- The rounds end only when one changes nothing but hints. -/
theorem agrees_of_close {m : Nat} (hc : s.close m = some c) :
    (oneHop c).agrees Ty.alike c = true := by
  induction m generalizing s with
  | zero => simp [close] at hc
  | succ m ih =>
    rw [close_succ] at hc
    split at hc
    · rename_i hagrees
      cases hc
      exact hagrees
    · exact ih hc

/-- What is still mentioned after closing, and bound, is bound to itself. -/
theorem eq_var_of_close {m : Nat} (hc : s.close m = some c) (hij : c.Mentions i j)
    (hj : c.get? j = some u) : ∃ hint, u = .var ⟨j, hint⟩ := by
  obtain ⟨t, ht, hmem⟩ := hij
  obtain ⟨v, hv, rfl⟩ := Ty.mem_ids.1 hmem
  have hself := Ty.erase_eq_of_subst_alike (agrees_map_iff.1 (agrees_of_close hc) i t ht) v hv
  rw [hj, Option.getD_some] at hself
  cases u with
  | var w =>
    rw [Ty.erase, Ty.subst, Ty.plain, Ty.var.injEq, TypeVar.mk.injEq] at hself
    exact ⟨w.hint, by rw [← hself.1]⟩
  | _ => cases hself

/-- The value of a variable in a closed solution is what the variable resolves to. -/
theorem Closed.resolvesTo_value (hc : c.Closed) {v : TypeVar} (hv : c.get? v.id = some t) :
    c.ResolvesTo (.var v) t := by
  obtain ⟨n, hn⟩ := (settles_resolve_self (hc v.id t hv)).exists_eq
  exact ⟨n + 1, by rw [resolve_bound n hv, hn]⟩

/-- **Closing keeps the meaning of a solution.**  If no variable reaches itself through the
    bindings, closing ends, in a single way: the same variables are bound, each to what it
    resolved to before; no value mentions a bound variable; every type resolves to what it
    resolved to before; and closing again ends in the first round, with nothing changed.

    Whatever the bindings are, if closing ends, then a bound variable that a value still mentions
    is bound to itself. -/
theorem closing_keeps_meaning (s : Solution) :
    ((∀ i, ¬ TransGen s.Mentions i i) →
      ∃ c, (∃ fuel, s.close fuel = some c) ∧ (∀ fuel c', s.close fuel = some c' → c' = c) ∧
        (∀ i, c.Binds i ↔ s.Binds i) ∧
        (∀ v t, c.get? v.id = some t → s.ResolvesTo (.var v) t) ∧
        c.isResolved = true ∧
        (∀ t, ∃ u, s.ResolvesTo t u) ∧ (∀ t u, c.ResolvesTo t u ↔ s.ResolvesTo t u) ∧
        ∀ fuel, c.close (fuel + 1) = some c) ∧
    ∀ fuel c, s.close fuel = some c →
      ∀ i j u, c.Mentions i j → c.get? j = some u → ∃ hint, u = .var ⟨j, hint⟩ := by
  refine ⟨fun hcycle => ?_, fun fuel c hc i j u hij hj => eq_var_of_close hc hij hj⟩
  have hs : s.Acyclic := acyclic_iff_irreflexive.2 hcycle
  obtain ⟨c, hc⟩ := hs.exists_closesTo
  obtain ⟨m, hm⟩ := hc.settles.exists_eq
  have hforward : ∀ t u, s.ResolvesTo t u → c.ResolvesTo t u := fun t u ⟨n, hn⟩ =>
    ⟨n, resolve_close hm hn⟩
  have hsame : ∀ t u, c.ResolvesTo t u ↔ s.ResolvesTo t u := by
    refine fun t u => ⟨fun h => ?_, hforward t u⟩
    obtain ⟨u', hu'⟩ := hs.exists_resolvesTo t
    rwa [h.unique (hforward t u' hu')]
  refine ⟨c, ⟨m, hm⟩, fun fuel c' h => ?_, fun i => not_congr (hc.unbound_iff i), fun v t hv => ?_,
    isResolved_iff.2 hc.closed, hs.exists_resolvesTo, hsame, fun fuel => ?_⟩
  · exact (Settles.of_mono (fun n c => close_mono n s c) h).unique hc.settles
  · exact (hsame _ _).1 (hc.closed.resolvesTo_value hv)
  · rw [close_succ, if_pos ((agrees_oneHop_iff hc.closed.acyclic).2 hc.closed)]

end Solution

/-- `'t0 := 't1 -> 't2`, `'t1 := 't2` and `'t2 := Int` close to integers and arrows of them, over a
    binding of `'t1` that was replaced. -/
theorem closing_keeps_meaning_chain :
    let int : Ty := .int
    let s : Solution := (((Table.empty.insert 1 (.var ⟨0, none⟩)).insert 0
      (.func (.var ⟨1, none⟩) (.var ⟨2, none⟩))).insert 1 (.var ⟨2, none⟩)).insert 2 int
    (∀ i, ¬ TransGen s.Mentions i i) ∧ s.isResolved = false ∧
      ∃ c, (∃ fuel, s.close fuel = some c) ∧ c.isResolved = true ∧
        c.get? 0 = some (.func int int) ∧ c.get? 1 = some int ∧ c.get? 2 = some int := by
  intro int s
  have hcycle : ∀ i, ¬ TransGen s.Mentions i i := by
    -- the values mention later variables only
    refine Solution.acyclic_iff_irreflexive.1 ⟨fun i => 3 - i, fun i t ht j hj _ => ?_⟩
    simp only [s, Table.get?_insert, Table.get?_empty] at ht
    split at ht
    · cases ht
      cases hj
    split at ht
    · cases ht
      simp_all
    split at ht
    · cases ht
      simp_all
      omega
    · simp_all
  obtain ⟨c, hc, -, hbinds, hvalue, hresolved, -⟩ := (Solution.closing_keeps_meaning s).1 hcycle
  have hget : ∀ v u, s.Binds v.id → s.ResolvesTo (.var v) u → c.get? v.id = some u := by
    intro v u hv hu
    obtain ⟨t, ht⟩ := Option.ne_none_iff_exists'.1 ((hbinds v.id).2 hv)
    rw [ht, (hvalue v t ht).unique hu]
  refine ⟨hcycle, rfl, c, hc, hresolved, ?_, ?_, ?_⟩
  · exact hget ⟨0, none⟩ _ (by simp [Solution.Binds, s, Table.get?_insert]) ⟨4, rfl⟩
  · exact hget ⟨1, none⟩ _ (by simp [Solution.Binds, s, Table.get?_insert]) ⟨3, rfl⟩
  · exact hget ⟨2, none⟩ _ (by simp [Solution.Binds, s, Table.get?_insert]) ⟨2, rfl⟩

end CoreCalculus
