/-
  CoreCalculus/Proofs/JustifiedErrors.lean
  ========================================
  **Type errors are justified.**

  An error shows types as the session resolves them after a failed unification was undone,
  while the failure itself was found deeper, in parts of these types and under bindings
  that are gone.  What the error says is true of the types that it shows all the same: two
  types that it sets against each other have no common instance, what cannot be applied is
  neither a function nor open to become one, and an infinite type properly contains its
  variable.

  The first half needs that unification is complete, and that what has a common instance
  in a closed solution still has one after resolving (`Closed.unifiable_of_resolvesTo`).
  Nothing else is asked of the session, and every step of a check keeps its solution closed,
  failed or not.  So errors are justified at every place and after any history.  Of which
  steps inference is made is said once, by `Made`.
-/
import CoreCalculus.Proofs.InferenceMeaning
import CoreCalculus.Proofs.UnificationSession

namespace CoreCalculus

open Solution

/-! ### What errors say -/

namespace Ty

/-- Some assignment makes the types equal, up to hints. -/
def Unifiable (t u : Ty) : Prop := ∃ θ : Assignment, (t.assign θ).alike (u.assign θ) = true

/-- The variable occurs in the type, and is not the type itself. -/
def ProperlyContains (t : Ty) (v : TypeVar) : Prop := v.id ∈ t.ids ∧ t.alike (.var v) = false

end Ty

/-- What the error says is true of the types that it shows. -/
def UnifyError.Justified : UnifyError → Prop
  | .mismatch expected found => ¬ expected.Unifiable found
  | .occurs v t => t.ProperlyContains v

/-- What the error says is true of the types that it shows, if it shows any. -/
def TypeError.Justified : TypeError → Prop
  | .operandMismatch _ _ _ expected found => ¬ expected.Unifiable found
  | .operandsDisagree _ _ _ leftType rightType => ¬ leftType.Unifiable rightType
  | .argumentMismatch _ _ expected found => ¬ expected.Unifiable found
  | .branchMismatch _ yesType noType => ¬ yesType.Unifiable noType
  | .recursionMismatch _ expected found => ¬ expected.Unifiable found
  | .patternMismatch _ expected found => ¬ expected.Unifiable found
  | .caseMismatch _ _ expected found => ¬ expected.Unifiable found
  | .mismatch _ expected found => ¬ expected.Unifiable found
  | .nonBooleanCondition _ found => ¬ found.Unifiable .bool
  | .notAFunction _ _ found => (∀ v, found ≠ .var v) ∧ ∀ a b, found ≠ .func a b
  | .infiniteType _ v t => t.ProperlyContains v
  | .unboundVariable _ | .unknownConstructor _ | .constructorArity _ _ _
  | .duplicatePatternVariable _ _ | .emptyMatch _ | .nonExhaustive _ _ => True

/-! ### Failed unifications -/

namespace Ty

theorem not_unifiable_of_forall {t u : Ty} (h : ∀ θ : Assignment, t.assign θ ≠ u.assign θ) :
    ¬ t.Unifiable u := by
  rintro ⟨θ, hθ⟩
  exact h _ (alike_assign_iff.1 hθ)

theorem bindVar_justified (v : TypeVar) {t : Ty} (ht : t.alike (.var v) = false) :
    (bindVar v t).Honest (fun _ => True) UnifyError.Justified := by
  unfold bindVar
  split
  · rename_i hocc
    exact .fail ⟨hocc, ht⟩
  · exact .update fun _ _ => trivial

theorem unify_justified {n : Nat} {t u : Ty} {s s' : Solution} {e : UnifyError}
    (h : unify n t u s = some (.error e, s')) : e.Justified := by
  have herror := (unifyTypes_honest (fun v _ ht => bindVar_justified v ht)
    (fun _ _ hno => not_unifiable_of_forall hno) n t u).error
  unfold unify at h
  split at h
  · cases h
  · rename_i s₁ _
    obtain ⟨c, -, heq⟩ := Option.map_eq_some_iff.1 h
    cases heq
  · rename_i hrun
    cases h
    exact herror s e _ hrun trivial

end Ty

namespace Solution

variable {s : Solution} {t u t' u' : Ty}

/-- A common instance of what types resolve to is a common instance of the types where the solution
    holds: what is bound follows the values. -/
theorem Closed.unifiable_of_resolvesTo (hs : s.Closed) (ht : s.ResolvesTo t t')
    (hu : s.ResolvesTo u u') (h : t'.Unifiable u') :
    ∃ θ, s.HoldsAt θ ∧ t.assign θ = u.assign θ := by
  obtain ⟨θ, hθ⟩ := h
  rw [alike_assign_iff] at hθ
  let ρ : Assignment := fun i => (θ i).erase
  have hassign : ∀ x x' : Ty, s.ResolvesTo x x' →
      (x.assign fun i => (s.canonical i).assign ρ) = x'.assign ρ := by
    intro x x' hx
    rw [← Ty.assign_assign, ← hx.erase_eq hs, Ty.assign_erase]
  refine ⟨fun i => (s.canonical i).assign ρ, fun i x hx => ?_, ?_⟩
  · exact (congrArg (Ty.assign ρ) (hs.holdsAt_canonical i x hx)).trans (Ty.assign_assign _ _ _)
  · rw [hassign t t' ht, hassign u u' hu]
    exact hθ

/-- After a failed unification the types resolve to types without a common instance. -/
theorem Closed.not_unifiable_of_unify (hs : s.Closed) {n : Nat} {e : UnifyError} {s' : Solution}
    (h : Ty.unify n t u s = some (.error e, s')) (ht : s.ResolvesTo t t')
    (hu : s.ResolvesTo u u') : ¬ t'.Unifiable u' := by
  intro hunifiable
  obtain ⟨θ, hθ, htu⟩ := hs.unifiable_of_resolvesTo ht hu hunifiable
  rcases Ty.settles_unify hs t u with ⟨s₁, hm, -⟩ | ⟨e', -, hno⟩
  · cases Ty.unify_unique hm h
  · exact hno θ hθ htu

theorem Closed.unify (hs : s.Closed) {n : Nat} {r : Except UnifyError Solution} {s' : Solution}
    (h : Ty.unify n t u s = some (r, s')) : s'.Closed := by
  rcases Ty.settles_unify hs t u with ⟨s₁, hm, hclosed, -⟩ | ⟨e, hm, -⟩
  · cases Ty.unify_unique hm h
    exact hclosed
  · cases Ty.unify_unique hm h
    exact hs

theorem ResolvesTo.bool_eq (h : s.ResolvesTo .bool t) : t = .bool := by
  obtain ⟨n, hn⟩ := h
  cases n with
  | zero => cases hn
  | succ n =>
    cases hn
    rfl

end Solution

/-! ### The steps of a check -/

namespace Checker

/-- The check is made of the steps of a session, and reports only what is justified.  What an
    expectation reports, it reports about types as they are resolved, without common instance. -/
inductive Made : {α : Type} → Check α → Prop
  | pure {α : Type} (a : α) : Made (Pure.pure a : Check α)
  | fail {α : Type} {e : TypeError} : e.Justified → Made (Run.fail e : Check α)
  | bind {α β : Type} {m : Check α} {f : α → Check β} :
      Made m → (∀ a, Made (f a)) → Made (m >>= f)
  | fresh : Made Checker.fresh
  | freshFor (s : Scheme) : Made (freshFor .empty s.vars)
  | resolve (n : Nat) (t : Ty) : Made (Checker.resolve n t)
  | expect (n : Nat) {expected found : Ty} (t : Term) {onMismatch : Ty → Ty → TypeError} :
      (∀ s e f, ResolvesTo s expected e → ResolvesTo s found f → ¬ e.Unifiable f →
        (onMismatch e f).Justified) →
      Made (Checker.expect n expected found t onMismatch)

theorem Made.ofExcept {α : Type} {x : Except TypeError α} (hx : ∀ e, x = .error e → e.Justified) :
    Made (Run.ofExcept x : Check α) := by
  cases x with
  | ok a => exact .pure a
  | error e => exact .fail (hx e rfl)

theorem instantiate_made (s : Scheme) : Made (instantiate s) :=
  (Made.freshFor s).bind fun _ => .pure _

theorem typeSubPatterns_made (n : Nat) (r : Registry) (t : Term) {subs : List Pattern}
    (ih : ∀ p ∈ subs, Made (typePattern n r p)) (args : List Ty) :
    Made (typeSubPatterns n r t subs args) := by
  induction subs generalizing args with
  | nil => exact .pure _
  | cons p subs ihs =>
    cases args with
    | nil => exact .pure _
    | cons a args =>
      rw [List.forall_mem_cons] at ih
      simp only [typeSubPatterns]
      exact .bind ih.1 fun _ => .bind (.expect n t fun _ _ _ _ _ hno => hno) fun _ =>
        .bind (ihs ih.2 args) fun _ => .pure _

theorem typePattern_made (n : Nat) (r : Registry) (p : Pattern) : Made (typePattern n r p) := by
  induction p using Pattern.induct with
  | var x => exact .bind .fresh fun _ => .pure _
  | lit l => exact .pure _
  | ctor name subs ih =>
    simp only [typePattern]
    rcases r.constructor? name with _ | ⟨d, s⟩
    · exact .fail trivial
    · dsimp only
      split
      · exact .fail trivial
      · exact .bind (.freshFor (d.constructorScheme s)) fun _ =>
          .bind (typeSubPatterns_made n r _ ih _) fun _ => .pure _

theorem typeCase_made (n : Nat) (s : Term) (σ τ : Ty) {e : Pattern × Term}
    (ih : ∀ c, Made (typeOf n c e.2)) (c : Context) : Made (typeCase n c s σ τ e) := by
  simp only [typeCase]
  refine .bind (typePattern_made n _ _) fun typed => ?_
  have hrest : Made (do
      Checker.expect n σ typed.1 s (.patternMismatch e.1)
      let ρ ← typeOf n (c.extendAll typed.2) e.2
      Checker.expect n τ ρ e.2 (.caseMismatch e.1 e.2)) :=
    .bind (.expect n s fun _ _ _ _ _ hno => hno) fun _ =>
      .bind (ih _) fun _ => .expect n e.2 fun _ _ _ _ _ hno => hno
  rcases firstRepeated? [] (typed.2.map Prod.fst) with _ | name
  · exact hrest
  · exact .bind (.fail trivial) fun _ => hrest

theorem typeCases_made (n : Nat) (s : Term) (σ τ : Ty) {cases : List (Pattern × Term)}
    (ih : ∀ e ∈ cases, ∀ c, Made (typeOf n c e.2)) (c : Context) :
    Made (typeCases n c s σ τ cases) := by
  induction cases with
  | nil => exact .pure _
  | cons e cases ihc =>
    rw [List.forall_mem_cons] at ih
    rw [typeCases_cons]
    exact (typeCase_made n s σ τ ih.1 c).bind fun _ => ihc ih.2

theorem checkCoverage_justified {r : Registry} {t : Ty} {patterns : List Pattern} {e : TypeError}
    (h : r.checkCoverage t patterns = .error e) : e.Justified := by
  obtain ⟨-, d, -, rfl⟩ := Registry.eq_nonExhaustive_of_checkCoverage h
  trivial

theorem typeOf_made (n : Nat) (c : Context) (t : Term) : Made (typeOf n c t) := by
  induction t using Term.induct generalizing c with
  | var x =>
    simp only [typeOf]
    rcases c.bindings.get? x with _ | s
    · exact .fail trivial
    · exact instantiate_made s
  | lit l => exact .pure _
  | ctor name =>
    simp only [typeOf]
    rcases c.registry.constructor? name with _ | ⟨d, s⟩
    · exact .fail trivial
    · exact instantiate_made _
  | app f a ihf iha =>
    simp only [typeOf]
    refine (ihf c).bind fun φ => (iha c).bind fun σ => .bind (.resolve n φ) fun u => ?_
    cases u with
    | func param result =>
      exact .bind (.expect n _ fun _ _ _ _ _ hno => hno) fun _ => .resolve n _
    | var v =>
      exact .bind .fresh fun ρ =>
        .bind (.expect n _ fun _ _ _ _ _ hno => hno) fun _ => .resolve n ρ
    | const _ | prod _ _ | app _ _ | adt _ _ =>
      exact .fail ⟨fun _ h => (by cases h), fun _ _ h => (by cases h)⟩
  | abs x t ih =>
    simp only [typeOf]
    exact .bind .fresh fun σ => (ih _).bind fun _ => .bind (.resolve n σ) fun _ => .pure _
  | fix x t ih =>
    simp only [typeOf]
    exact .bind .fresh fun σ => .bind (ih _) fun _ =>
      .bind (.expect n _ fun _ _ _ _ _ hno => hno) fun _ => .resolve n σ
  | binary op a b iha ihb =>
    simp only [typeOf]
    refine (iha c).bind fun σ => ?_
    have hright : Made (do
        let ρ ← typeOf n c b
        Checker.expect n σ ρ (.binary op a b) (.operandsDisagree a b (.binary op a b))
        if op.isComparison then return .bool else Checker.resolve n σ) := by
      refine .bind (ihb c) fun ρ => .bind (.expect n _ fun _ _ _ _ _ hno => hno) fun _ => ?_
      split
      · exact .pure _
      · exact .resolve n σ
    cases op with
    | eq | le => exact hright
    | add | sub | mul | div | and | or =>
      exact .bind (.expect n _ fun _ _ _ _ _ hno => hno) fun _ => hright
  | not a ih =>
    simp only [typeOf]
    exact .bind (ih c) fun _ => .bind (.expect n _ fun _ _ _ _ _ hno => hno) fun _ => .pure _
  | cond a b e iha ihb ihe =>
    simp only [typeOf]
    refine .bind (iha c) fun σ => .bind (.expect n _ fun s x y hx _ hno => ?_) fun _ =>
      .bind (ihb c) fun ρ => .bind (ihe c) fun _ =>
        .bind (.expect n _ fun _ _ _ _ _ hno => hno) fun _ => .resolve n ρ
    -- what is expected of a test is resolved already
    obtain rfl := hx.bool_eq
    rintro ⟨θ, hθ⟩
    exact hno ⟨θ, by rwa [Ty.alike_comm]⟩
  | select s cases ihs ihc =>
    simp only [typeOf]
    split
    · exact .fail trivial
    · exact (ihs c).bind fun σ => .bind .fresh fun τ =>
        (typeCases_made n s σ τ ihc c).bind fun _ => .bind (.resolve n σ) fun _ =>
          .bind (.ofExcept fun _ => checkCoverage_justified) fun _ => .resolve n τ

theorem infer_made (n : Nat) (c : Context) (t : Term) : Made (infer n c t) :=
  (typeOf_made n c t).bind fun τ => .resolve n τ

/-! ### What the steps keep -/

/-- An expectation is a unification, and reports about its failure. -/
theorem expect_cases {n : Nat} {t u : Ty} {blame : Term} {onMismatch : Ty → Ty → TypeError}
    {k k' : Checker} {r : Except TypeError Unit}
    (h : expect n t u blame onMismatch k = some (r, k')) :
    ∃ x s, Ty.unify n t u k.solution = some (x, s) ∧ k' = { k with solution := s } ∧
      ∀ e, r = .error e →
        (∃ v w, x = .error (.occurs v w) ∧ e = .infiniteType blame v w) ∨
        ∃ t' u' t₁ u₁, x = .error (.mismatch t₁ u₁) ∧ s.resolve n t = some t' ∧
          s.resolve n u = some u' ∧ e = onMismatch t' u' := by
  unfold expect at h
  split at h
  · cases h
  · rename_i hunify
    cases h
    exact ⟨_, _, hunify, rfl, nofun⟩
  · rename_i v w s hunify
    cases h
    refine ⟨_, _, hunify, rfl, fun e he => ?_⟩
    cases he
    exact .inl ⟨v, w, rfl, rfl⟩
  · rename_i t₁ u₁ s hunify
    simp only [Option.bind_eq_bind, Option.bind_eq_some_iff, Option.pure_def] at h
    obtain ⟨t', ht, u', hu, heq⟩ := h
    cases heq
    refine ⟨_, _, hunify, rfl, fun e he => ?_⟩
    cases he
    exact .inr ⟨t', u', t₁, u₁, rfl, ht, hu, rfl⟩

/-- The check keeps the solution closed, and fails with justified errors only. -/
abbrev Justifies {α : Type} (m : Check α) : Prop :=
  m.Honest (fun k => k.solution.Closed) TypeError.Justified

theorem fresh_justifies : Justifies fresh := .update fun _ hk => hk

theorem freshFor_justifies (bindings : Table Nat Ty) (vars : List TypeVar) :
    Justifies (freshFor bindings vars) := by
  induction vars generalizing bindings with
  | nil => exact .pure _
  | cons v vars ih => exact fresh_justifies.bind fun _ => ih _

theorem expect_justifies (n : Nat) {expected found : Ty} (t : Term)
    {onMismatch : Ty → Ty → TypeError}
    (hreport : ∀ s e f, ResolvesTo s expected e → ResolvesTo s found f → ¬ e.Unifiable f →
      (onMismatch e f).Justified) :
    Justifies (expect n expected found t onMismatch) := by
  constructor
  · intro k r k' h hk
    obtain ⟨x, s, hunify, rfl, -⟩ := expect_cases h
    exact hk.unify hunify
  · intro k err k' h hk
    obtain ⟨x, s, hunify, -, herr⟩ := expect_cases h
    rcases herr err rfl with ⟨v, w, rfl, rfl⟩ | ⟨e, f, _, _, rfl, he, hf, rfl⟩
    · exact Ty.unify_justified hunify
    · obtain rfl := Ty.state_of_unify_eq_error hunify
      exact hreport _ e f ⟨n, he⟩ ⟨n, hf⟩ (hk.not_unifiable_of_unify hunify ⟨n, he⟩ ⟨n, hf⟩)

theorem Made.justifies {α : Type} {m : Check α} (h : Made m) : Justifies m := by
  induction h with
  | pure a => exact .pure a
  | fail he => exact .fail he
  | bind _ _ ihm ihf => exact ihm.bind ihf
  | fresh => exact fresh_justifies
  | freshFor s => exact freshFor_justifies .empty s.vars
  | resolve n t => exact .read? _
  | expect n t hreport => exact expect_justifies n t hreport

/-- The sessions of type checking: a new one for some context, however it counts, and what any
    inference or instantiation, successful or failed, makes of one. -/
inductive Reachable : Checker → Prop
  | ofContext (c : Context) (counting : Counting) : Reachable (ofContext c counting)
  | infer {k k' : Checker} {fuel : Nat} {c : Context} {t : Term} {r : Except TypeError Ty} :
      Reachable k → Checker.infer fuel c t k = some (r, k') → Reachable k'
  | instantiate {k k' : Checker} {s : Scheme} {r : Except TypeError Ty} :
      Reachable k → Checker.instantiate s k = some (r, k') → Reachable k'

theorem Reachable.closed {k : Checker} (h : k.Reachable) : k.solution.Closed := by
  induction h with
  | ofContext _ _ => exact closed_empty
  | @infer k k' fuel c t r _ hrun ih => exact (infer_made fuel c t).justifies.keeps k r k' hrun ih
  | @instantiate k k' s r _ hrun ih => exact (instantiate_made s).justifies.keeps k r k' hrun ih

end Checker

/-- **Type errors are justified.**  Whenever inference fails, in a session of its own or in one
    with any history, the types that the error shows are as it says: those that it sets against
    each other have no common instance, a condition's has none with `Bool`, what is applied is
    neither a variable nor a function, and an infinite type properly contains its variable. -/
theorem Term.type_errors_justified (c : Context) (t : Term) :
    (∀ fuel e, t.infer? fuel c = some (.error e) → e.Justified) ∧
      ∀ k : Checker, k.Reachable → ∀ fuel e k',
        Checker.infer fuel c t k = some (.error e, k') → e.Justified := by
  have hsession : ∀ k : Checker, k.Reachable → ∀ fuel e k',
      Checker.infer fuel c t k = some (.error e, k') → e.Justified := fun k hk fuel e k' h =>
    (Checker.infer_made fuel c t).justifies.error k e k' h hk.closed
  refine ⟨fun fuel e h => ?_, hsession⟩
  obtain ⟨⟨r, k'⟩, hrun, rfl⟩ := Option.map_eq_some_iff.1 h
  exact hsession _ (.ofContext c _) fuel e k' hrun

/-- The branches clash at their results, once `'t0` stands for `Int`.  This is forgotten in the
    report, and still no type for `'t0` makes the branches agree. -/
theorem type_errors_justified_branches :
    let t : Term := .cond (.lit (.bool true)) (.abs "x" (.var "x"))
      (.abs "n" (.binary .le (.var "n") (.lit (.int 0))))
    let yesType : Ty := .func (.var ⟨0, none⟩) (.var ⟨0, none⟩)
    let noType : Ty := .func .int .bool
    t.infer? 9 .empty = some (.error (.branchMismatch t yesType noType)) ∧
      ¬ yesType.Unifiable noType := by
  intro t yesType noType
  have hinfer : t.infer? 9 .empty = some (.error (.branchMismatch t yesType noType)) := by
    decide +kernel
  exact ⟨hinfer, (Term.type_errors_justified .empty t).1 9 _ hinfer⟩

end CoreCalculus
