/-
  CoreCalculus/Proofs/Closed.lean
  ===============================
  **Evaluation in a closed scope.**

  A scope closes a term when it binds all names free in the term; a closed scope closes
  all of its own terms.  Names free in the result of a substitution are free in what
  stands for the names free in the term (`Term.mem_free_substMany`), and what a pattern
  captures is part of the value, so every rule of the evaluator keeps terms closed, and
  evaluates closed terms only.  A name is then always found.
-/
import CoreCalculus.Proofs.Failure
import CoreCalculus.Proofs.TypedSubstitution

namespace CoreCalculus

/-! ### Free names -/

namespace Term

/-- The names free in the result of a substitution. -/
theorem mem_free_substMany {r : Replacements} {t : Term} {s : Supply} {x : String} :
    x ∈ (t.substMany r s).1.free ↔ ∃ y ∈ t.free, x ∈ (r.standIn y).free := by
  rw [← mem_freeNames_nameless_nil, nameless_substMany, Nameless.mem_freeNames_subst]
  have hstands : ∀ y, x ∈ ((r.nameless y).getD (.free y)).freeNames ↔ x ∈ (r.standIn y).free := by
    intro y
    rw [Replacements.nameless, Replacements.standIn]
    cases r.get? y with
    | none => simp [Nameless.freeNames, free]
    | some v => simp [mem_freeNames_nameless_nil]
  simp only [hstands, mem_freeNames_nameless_nil]

theorem mem_free_apply {head : Term} {args : List Term} {x : String} :
    x ∈ (head.apply args).free ↔ x ∈ head.free ∨ ∃ a ∈ args, x ∈ a.free := by
  induction args generalizing head with
  | nil => simp [apply]
  | cons a args ih =>
    have hcons : head.apply (a :: args) = (head.app a).apply args := rfl
    rw [hcons, ih, free, List.mem_append, or_assoc]
    simp only [List.mem_cons, exists_eq_or_imp]

theorem mem_free_of_mem_spine {t a : Term} {x : String} (ha : a ∈ t.spine.2) (hx : x ∈ a.free) :
    x ∈ t.free := by
  rw [← apply_spine t, mem_free_apply]
  exact .inr ⟨a, ha, hx⟩

end Term

namespace Pattern

/-- What is captured is part of the value. -/
theorem mem_free_of_capture? {p : Pattern} {v w : Term} {vs : List Term} {x : String}
    (h : p.capture? v = some vs) (hw : w ∈ vs) (hx : x ∈ w.free) : x ∈ v.free := by
  by_contra hv
  exact forall_of_capture? (P := fun v => x ∉ v.free)
    (fun v hv a ha hx => hv (Term.mem_free_of_mem_spine ha hx)) h hv w hw hx

end Pattern

namespace Table

variable {κ α : Type} [DecidableEq κ]

theorem exists_get?_insertAll (t : Table κ α)
    {pairs : List (κ × α)} {k : κ} (h : k ∈ pairs.map Prod.fst) :
    ∃ a, (t.insertAll pairs).get? k = some a ∧ (k, a) ∈ pairs := by
  have hsome : ∃ a, (t.insertAll pairs).get? k = some a := by
    induction pairs generalizing t with
    | nil => exact absurd h List.not_mem_nil
    | cons e pairs ih =>
      by_cases hk : k ∈ pairs.map Prod.fst
      · exact ih (t.insert e.1 e.2) hk
      · obtain rfl : k = e.1 := (List.mem_cons.1 h).resolve_right hk
        have hstep : (t.insertAll (e :: pairs)).get? e.1 = (t.insert e.1 e.2).get? e.1 :=
          get?_insertAll_of_not_mem hk
        exact ⟨e.2, by rw [hstep, get?_insert, if_pos rfl]⟩
  obtain ⟨a, ha⟩ := hsome
  exact ⟨a, ha, mem_of_get?_insertAll ha h⟩

theorem get?_ofList_zip_eq_none_iff {ks : List κ} {as : List α} (h : ks.length = as.length)
    {k : κ} : (ofList (ks.zip as)).get? k = none ↔ k ∉ ks := by
  have hkeys : (ks.zip as).map Prod.fst = ks := List.map_fst_zip (Nat.le_of_eq h)
  refine ⟨fun hnone hk => ?_, fun hk => get?_insertAll_of_not_mem (hkeys.symm ▸ hk)⟩
  obtain ⟨a, ha, -⟩ := exists_get?_insertAll .empty (hkeys.symm ▸ hk)
  exact Option.some_ne_none a (ha.symm.trans hnone)

end Table

namespace Term

/-- The case that is taken, with what its pattern captures. -/
theorem firstMatch_eq_some {v t : Term} {cases : List (Pattern × Term)}
    {bindings : Table String Term} (h : v.firstMatch cases = some (bindings, t)) :
    ∃ p vs, (p, t) ∈ cases ∧ p.capture? v = some vs ∧
      bindings = Table.ofList (p.vars.zip vs) := by
  induction cases with
  | nil => cases h
  | cons e cases ih =>
    obtain ⟨p, t'⟩ := e
    rw [firstMatch, Pattern.match?_eq] at h
    rcases hcapture : p.capture? v with _ | vs
    · rw [hcapture] at h
      obtain ⟨q, vs, hq, hvs, rfl⟩ := ih h
      exact ⟨q, vs, List.mem_cons_of_mem _ hq, hvs, rfl⟩
    · rw [hcapture] at h
      cases h
      exact ⟨p, vs, List.mem_cons_self, hcapture, rfl⟩

/-- A name free in a body, with what its pattern captures put in, is free below the pattern
    or free in the value. -/
theorem mem_free_of_capture? {p : Pattern} {v t : Term} {vs : List Term} {s : Supply} {x : String}
    (h : p.capture? v = some vs)
    (hx : x ∈ (t.substMany (Table.ofList (p.vars.zip vs)) s).1.free) :
    (x ∈ t.free ∧ x ∉ p.vars) ∨ x ∈ v.free := by
  obtain ⟨y, hy, hx⟩ := mem_free_substMany.1 hx
  rw [Replacements.standIn] at hx
  rcases hget : (Table.ofList (p.vars.zip vs)).get? y with _ | w <;> rw [hget] at hx
  · have hyp := (Table.get?_ofList_zip_eq_none_iff (Pattern.length_of_capture? h).symm).1 hget
    rw [Option.getD_none, free, List.mem_singleton] at hx
    exact .inl (hx ▸ ⟨hy, hyp⟩)
  · have hw : w ∈ vs := (List.of_mem_zip (Table.mem_of_get?_ofList hget)).2
    exact .inr (Pattern.mem_free_of_capture? h hw hx)

/-- A binder is the pattern of a bare variable. -/
theorem mem_free_subst {t v : Term} {x y : String} {s : Supply} (hy : y ∈ (t.subst x v s).1.free) :
    (y ∈ t.free ∧ y ≠ x) ∨ y ∈ v.free := by
  have h := mem_free_of_capture? (p := .var x) (v := v) rfl hy
  simpa [Pattern.vars] using h

end Term

/-! ### Closed scopes -/

namespace Scope

/-- All names free in the term are bound. -/
def Closes (scope : Scope) (t : Term) : Prop := ∀ x ∈ t.free, x ∈ scope.keys

/-- All names free in the terms of the scope are bound. -/
def Closed (scope : Scope) : Prop := ∀ x t, scope.get? x = some t → scope.Closes t

theorem closed_empty : Closed .empty := by
  intro x t h
  cases h

theorem closes_empty_iff {t : Term} : Closes .empty t ↔ t.free = [] := by
  simp [Closes, Table.keys, Table.empty, List.eq_nil_iff_forall_not_mem]

section

variable {scope : Scope}

theorem closes_app_iff {f a : Term} :
    scope.Closes (.app f a) ↔ scope.Closes f ∧ scope.Closes a := by
  simp [Closes, Term.free, or_imp, forall_and]

theorem closes_binary_iff {op : BinaryOp} {a b : Term} :
    scope.Closes (.binary op a b) ↔ scope.Closes a ∧ scope.Closes b := by
  simp [Closes, Term.free, or_imp, forall_and]

theorem closes_cond_iff {a b e : Term} :
    scope.Closes (.cond a b e) ↔ scope.Closes a ∧ scope.Closes b ∧ scope.Closes e := by
  simp [Closes, Term.free, or_imp, forall_and]

theorem closes_abs_iff {x : String} {t : Term} :
    scope.Closes (.abs x t) ↔ ∀ y ∈ t.free, y ≠ x → y ∈ scope.keys := by
  simp [Closes, Term.free]

theorem closes_fix_iff {x : String} {t : Term} :
    scope.Closes (.fix x t) ↔ ∀ y ∈ t.free, y ≠ x → y ∈ scope.keys := by
  simp [Closes, Term.free]

theorem closes_select_iff {a : Term} {cases : List (Pattern × Term)} :
    scope.Closes (.select a cases) ↔
      scope.Closes a ∧ ∀ e ∈ cases, ∀ y ∈ e.2.free, y ∉ e.1.vars → y ∈ scope.keys := by
  simp only [Closes, Term.free, Term.freeCases_eq_flatMap, List.mem_append, List.mem_flatMap,
    List.mem_filter, decide_eq_true_iff, or_imp, forall_and]
  refine and_congr_right fun _ => ⟨fun h e he y hy hyp => h y ⟨e, he, hy, hyp⟩, fun h y hy => ?_⟩
  obtain ⟨e, he, hy, hyp⟩ := hy
  exact h e he y hy hyp

/-- The body of an abstraction that is applied, or of a recursion that is unfolded. -/
theorem closes_subst {x : String} {t v : Term} (ht : ∀ y ∈ t.free, y ≠ x → y ∈ scope.keys)
    (hv : scope.Closes v) (s : Supply) : scope.Closes (t.subst x v s).1 := by
  intro y hy
  rcases Term.mem_free_subst hy with ⟨hy, hyx⟩ | hy
  · exact ht y hy hyx
  · exact hv y hy

/-- The body of the case that is taken. -/
theorem closes_firstMatch {v t : Term} {cases : List (Pattern × Term)}
    {bindings : Table String Term} (h : v.firstMatch cases = some (bindings, t))
    (hv : scope.Closes v)
    (hcases : ∀ e ∈ cases, ∀ y ∈ e.2.free, y ∉ e.1.vars → y ∈ scope.keys) (s : Supply) :
    scope.Closes (t.substMany bindings s).1 := by
  obtain ⟨p, vs, hp, hvs, rfl⟩ := Term.firstMatch_eq_some h
  intro y hy
  rcases Term.mem_free_of_capture? hvs hy with ⟨hy, hyp⟩ | hy
  · exact hcases _ hp y hy hyp
  · exact hv y hy

end

end Scope

/-! ### Evaluation -/

/-- What a closed term evaluates to is closed. -/
theorem Evaluates.closes {scope : Scope} (hscope : scope.Closed) {t v : Term}
    {seen : List Observation} (h : Evaluates scope t v seen) (ht : scope.Closes t) :
    scope.Closes v := by
  induction h with
  | var hx _ ih => exact ih (hscope _ _ hx)
  | lit l => exact ht
  | abs x t => exact ht
  | ctor name => exact ht
  | beta s _ _ _ ihf iha ih =>
    obtain ⟨hf, ha⟩ := Scope.closes_app_iff.1 ht
    exact ih (Scope.closes_subst (Scope.closes_abs_iff.1 (ihf hf)) (iha ha) s)
  | app _ _ _ ihf iha =>
    obtain ⟨hf, ha⟩ := Scope.closes_app_iff.1 ht
    exact Scope.closes_app_iff.2 ⟨ihf hf, iha ha⟩
  | fix s _ ih => exact ih (Scope.closes_subst (Scope.closes_fix_iff.1 ht) ht s)
  | computed =>
    intro x hx
    cases hx
  | binary _ _ _ iha ihb =>
    obtain ⟨ha, hb⟩ := Scope.closes_binary_iff.1 ht
    exact Scope.closes_binary_iff.2 ⟨iha ha, ihb hb⟩
  | negated =>
    intro x hx
    cases hx
  | not _ _ ih => exact ih ht
  | branch choice _ _ _ ih =>
    obtain ⟨-, hb, he⟩ := Scope.closes_cond_iff.1 ht
    cases choice with
    | true => exact ih hb
    | false => exact ih he
  | cond _ _ ih =>
    obtain ⟨ha, hb, he⟩ := Scope.closes_cond_iff.1 ht
    exact Scope.closes_cond_iff.2 ⟨ih ha, hb, he⟩
  | select s _ hmatch _ iha ih =>
    obtain ⟨ha, hcases⟩ := Scope.closes_select_iff.1 ht
    exact ih (Scope.closes_firstMatch hmatch (iha ha) hcases s)

/-- What is evaluated on the way is closed. -/
theorem Demands.closes {scope : Scope} (hscope : scope.Closed) {t u : Term}
    (h : Demands scope t u) (ht : scope.Closes t) : scope.Closes u := by
  cases h with
  | var hx => exact hscope _ _ hx
  | func f a => exact (Scope.closes_app_iff.1 ht).1
  | arg _ => exact (Scope.closes_app_iff.1 ht).2
  | beta s hf ha =>
    obtain ⟨hcf, hca⟩ := Scope.closes_app_iff.1 ht
    exact Scope.closes_subst (Scope.closes_abs_iff.1 (hf.closes hscope hcf)) (ha.closes hscope hca) s
  | fix x t s => exact Scope.closes_subst (Scope.closes_fix_iff.1 ht) ht s
  | left op a b => exact (Scope.closes_binary_iff.1 ht).1
  | right _ => exact (Scope.closes_binary_iff.1 ht).2
  | not a => exact ht
  | test a b e => exact (Scope.closes_cond_iff.1 ht).1
  | branch choice _ =>
    obtain ⟨-, hb, he⟩ := Scope.closes_cond_iff.1 ht
    cases choice with
    | true => exact hb
    | false => exact he
  | subject a cases => exact (Scope.closes_select_iff.1 ht).1
  | body s ha hmatch =>
    obtain ⟨hca, hcases⟩ := Scope.closes_select_iff.1 ht
    exact Scope.closes_firstMatch hmatch (ha.closes hscope hca) hcases s

/-- In a closed scope every name of a closed term is found. -/
theorem Term.evaluate_ne_unboundVariable {scope : Scope} (hscope : scope.Closed) {n : Nat}
    {t : Term} {s s' : Supply} {x : String} (ht : scope.Closes t) :
    t.evaluate scope n s ≠ some (.error (.unboundVariable x), s') := by
  intro h
  obtain ⟨u, hreached, hfails⟩ := exists_failsAt h
  have hu : scope.Closes u := Demands.reaches (fun _ _ hstep => hstep.closes hscope) hreached ht
  generalize he : EvalError.unboundVariable x = e at hfails
  cases hfails with
  | @unbound y hy =>
    have hbound : y ∈ scope.keys := hu y (by simp [free])
    exact Table.get?_eq_none_iff.1 hy hbound
  | fault _ _ hfault =>
    obtain ⟨fault, rfl⟩ := BinaryOp.exists_fault_of_onTerms hfault
    cases fault <;> cases he
  | unmatched _ _ => cases he

/-- **Evaluation stays closed.**  In a closed scope the evaluation of a closed term looks up no
    name in vain, and what it yields is closed.  So the value of a term without free names has
    none, when nothing is in scope. -/
theorem Term.evaluation_closed {scope : Scope} (hscope : scope.Closed) {t : Term}
    (ht : scope.Closes t) (fuel : Nat) (s : Supply) :
    (∀ x s', t.evaluate scope fuel s ≠ some (.error (.unboundVariable x), s')) ∧
      ∀ v s', t.evaluate scope fuel s = some (.ok v, s') →
        scope.Closes v ∧ (scope = .empty → v.free = []) := by
  refine ⟨fun x s' => evaluate_ne_unboundVariable hscope ht, fun v s' h => ?_⟩
  have hv : scope.Closes v := (Evaluates.of_evaluate h).closes hscope ht
  refine ⟨hv, ?_⟩
  rintro rfl
  exact Scope.closes_empty_iff.1 hv

/-- The argument mentions a name of the scope that a binder would capture, so the binder is
    renamed; the name stays free in the value, and it is in scope. -/
theorem evaluation_closed_capture :
    let scope : Scope := .ofList [("const", .abs "x" (.abs "y" (.var "x"))),
      ("y", .app (.var "const") (.lit (.int 1)))]
    let t : Term := .app (.var "const") (.abs "z" (.var "y"))
    let v : Term := .abs "y'7" (.abs "z" (.var "y"))
    scope.Closed ∧ scope.Closes t ∧ t.evaluate scope 3 ⟨7⟩ = some (.ok v, ⟨8⟩) ∧
      v.free = ["y"] ∧ scope.Closes v := by
  intro scope t v
  have hscope : scope.Closed := by
    intro x u hx
    have hmem : (x, u) ∈ [("const", Term.abs "x" (.abs "y" (.var "x"))),
        ("y", .app (.var "const") (.lit (.int 1)))] := Table.mem_of_get?_ofList hx
    simp only [List.mem_cons, Prod.mk.injEq, List.not_mem_nil, or_false] at hmem
    rcases hmem with ⟨-, rfl⟩ | ⟨-, rfl⟩ <;> unfold Scope.Closes <;> decide
  have ht : scope.Closes t := by
    unfold Scope.Closes
    decide
  have heval : t.evaluate scope 3 ⟨7⟩ = some (.ok v, ⟨8⟩) := by
    let u : Term := .abs "z" (.var "y")
    let live := Replacements.live (Table.ofList [("x", u)]) ["y"] (.var "x")
    have hempty : live.isEmpty = false := rfl
    have hrenamed : Term.renameBinder live "y" (.var "x") ⟨7⟩ = ("y'7", .var "x", ⟨8⟩) := by
      decide +kernel
    have hx : live.get? "x" = some u := rfl
    have hbody : (Term.abs "y" (.var "x")).subst "x" u ⟨7⟩ = (v, ⟨8⟩) := by
      simp only [live] at hempty hrenamed hx
      simp only [Term.subst, Term.substMany, Term.substUnder, hempty, hrenamed, hx]
      rfl
    change (Run.update (Term.subst _ "x" u) >>= Term.evaluate scope 2) ⟨7⟩ = _
    rw [Run.bind_apply, Run.update_apply, hbody]
    rfl
  exact ⟨hscope, ht, heval, rfl, ((Term.evaluation_closed hscope ht 3 ⟨7⟩).2 v ⟨8⟩ heval).1⟩

end CoreCalculus
