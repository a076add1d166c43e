/-
  CoreCalculus/Proofs/Circulation.lean
  ====================================
  **Variables in circulation were minted before.**

  A session is valid if its solution mentions no id that the counter has not passed.  A
  run of inference keeps it so, and answers with a type of such ids, provided that the
  context starts with them.  This also holds of a run that fails, and of what it leaves
  behind: where inference stands for a typing relation (`typeOf_denotes`), nothing is
  said about the session after an error.

  So the next id that is drawn occurs neither in the solution nor in any answer.
-/
import CoreCalculus.Proofs.JustifiedErrors

namespace CoreCalculus.Checker

open Assignable

/-- Wherever a run of the check from `k` stops, the session has grown, and what is answered mentions
    minted ids only. -/
def Keeps {α : Type} [Assignable α] (k : Checker) (m : Check α) : Prop :=
  ∀ r k', m k = some (r, k') →
    k.Grows k' ∧ ∀ a, r = .ok a → ∀ i ∈ ids a, i < k'.supply.next

namespace Keeps

variable {α β : Type} [Assignable α] [Assignable β] {k : Checker}

theorem pure (hk : k.Valid) {a : α} (ha : ∀ i ∈ ids a, i < k.supply.next) :
    Keeps k (Pure.pure a) := by
  intro r k' h
  cases h
  refine ⟨hk.grows, fun a' h => ?_⟩
  cases h
  exact ha

theorem fail (hk : k.Valid) {e : TypeError} : Keeps k (Run.fail e : Check α) := by
  intro r k' h
  cases h
  exact ⟨hk.grows, nofun⟩

theorem ofExcept (hk : k.Valid) (x : Except TypeError Unit) : Keeps k (Run.ofExcept x) := by
  cases x with
  | error e => exact fail hk
  | ok a => exact pure hk (List.forall_mem_nil _)

theorem bind {m : Check α} {f : α → Check β} (hm : Keeps k m)
    (hf : ∀ a k', k.Grows k' → (∀ i ∈ ids a, i < k'.supply.next) → Keeps k' (f a)) :
    Keeps k (m >>= f) := by
  intro r k' h
  rcases Run.bind_eq_some_iff.1 h with ⟨e, hrun, rfl⟩ | ⟨a, k₁, hrun, h⟩
  · exact ⟨(hm _ k' hrun).1, nofun⟩
  · obtain ⟨hgrows, ha⟩ := hm _ k₁ hrun
    obtain ⟨hgrows', hb⟩ := hf a k₁ hgrows (ha a rfl) r k' h
    exact ⟨hgrows.trans hgrows', hb⟩

theorem seq {m : Check Unit} {m' : Check α} (hm : Keeps k m)
    (hm' : ∀ k', k.Grows k' → Keeps k' m') : Keeps k (m >>= fun _ => m') :=
  hm.bind fun _ k' hgrows _ => hm' k' hgrows

theorem fresh (hk : k.Valid) : Keeps k Checker.fresh := by
  intro r k' h
  rw [fresh_eq_mint hk.unbounded] at h
  cases h
  refine ⟨hk.grows_mint, fun t h i hi => ?_⟩
  cases h
  rw [List.mem_singleton.1 hi]
  exact Nat.lt_succ_self _

theorem resolve (hk : k.Valid) {t : Ty} (ht : ∀ i ∈ t.ids, i < k.supply.next) (n : Nat) :
    Keeps k (Checker.resolve n t) := by
  intro r k' h
  obtain ⟨u, hu, heq⟩ := Option.map_eq_some_iff.1 h
  cases heq
  refine ⟨hk.grows, fun a h => ?_⟩
  cases h
  exact hk.within.resolve ht hu

theorem expect (hk : k.Valid) {t u : Ty} (ht : ∀ i ∈ t.ids, i < k.supply.next)
    (hu : ∀ i ∈ u.ids, i < k.supply.next) (n : Nat) (blame : Term)
    (onMismatch : Ty → Ty → TypeError) : Keeps k (Checker.expect n t u blame onMismatch) := by
  intro r k' h
  obtain ⟨x, s, hunify, rfl, -⟩ := expect_cases h
  refine ⟨?_, fun _ _ => List.forall_mem_nil _⟩
  rcases Ty.settles_unify hk.closed t u with ⟨s', hs, hclosed, hholds, hwithin⟩ | ⟨e, hs, -⟩
  · cases Ty.unify_unique hs hunify
    exact ⟨⟨hclosed, hwithin _ hk.within ht hu, hk.unbounded⟩, Nat.le_refl _,
      fun θ hθ => ((hholds θ).1 hθ).1⟩
  · cases Ty.unify_unique hs hunify
    exact hk.grows

theorem freshFor_bind (hk : k.Valid) (vars : List TypeVar) {f : Table Nat Ty → Check α}
    (hf : ∀ bindings k', k.Grows k' → BindingsBelow k'.supply.next bindings →
      Keeps k' (f bindings)) : Keeps k (freshFor .empty vars >>= f) := by
  have hempty : BindingsBelow k.supply.next .empty := fun i t ht => by simp at ht
  obtain ⟨bindings, k₁, hrun, h⟩ := freshFor_minted vars hk hempty
  intro r k' hbind
  rw [Run.bind_apply, hrun] at hbind
  obtain ⟨hgrows, hb⟩ := hf bindings k₁ h.grows h.below r k' hbind
  exact ⟨h.grows.trans hgrows, hb⟩

theorem instantiate (hk : k.Valid) {s : Scheme} (hs : ∀ i ∈ s.ids, i < k.supply.next) :
    Keeps k (Checker.instantiate s) :=
  freshFor_bind hk s.vars fun _ _ hgrows hbelow =>
    pure hgrows.valid <| hbelow.replace <| hgrows.lt fun i hi =>
      hs i (List.mem_append_right _ hi)

end Keeps

/-! ### Patterns -/

/-- The check of the pattern keeps each valid session in which the registry has minted ids only. -/
def PatternKeeps (n : Nat) (r : Registry) (p : Pattern) : Prop :=
  ∀ k : Checker, k.Valid → r.Below k.supply.next → Keeps k (typePattern n r p)

theorem typeSubPatterns_keeps (n : Nat) {r : Registry} (t : Term) {subs : List Pattern}
    (ih : ∀ p ∈ subs, PatternKeeps n r p) {k : Checker} (hk : k.Valid)
    (hr : r.Below k.supply.next) {args : List Ty}
    (hargs : ∀ a ∈ args, ∀ i ∈ a.ids, i < k.supply.next) :
    Keeps k (typeSubPatterns n r t subs args) := by
  induction subs generalizing k args with
  | nil => exact .pure hk (List.forall_mem_nil _)
  | cons p subs ihs =>
    cases args with
    | nil => exact .pure hk (List.forall_mem_nil _)
    | cons a args =>
      rw [List.forall_mem_cons] at ih hargs
      simp only [typeSubPatterns]
      refine .bind (ih.1 k hk hr) fun typed k₁ h₁ htyped => ?_
      have hfound := fun i hi => htyped i (List.mem_append_left _ hi)
      have hvars := fun i hi => htyped i (List.mem_append_right _ hi)
      refine .seq (.expect h₁.valid (h₁.lt hargs.1) hfound n t _) fun k₂ h₂ => ?_
      have h₀₂ := h₁.trans h₂
      refine .bind (ihs ih.2 h₂.valid (hr.mono h₀₂.le) fun b hb => h₀₂.lt (hargs.2 b hb))
        fun more k₃ h₃ hmore => ?_
      refine .pure h₃.valid fun i hi => ?_
      rw [ids_append, List.mem_append] at hi
      exact hi.elim (h₃.lt (h₂.lt hvars) i) (hmore i)

theorem typePattern_keeps (n : Nat) (r : Registry) (p : Pattern) : PatternKeeps n r p := by
  induction p using Pattern.induct with
  | var x =>
    intro k hk hr
    refine .bind (.fresh hk) fun σ k₁ h₁ hσ => .pure h₁.valid ?_
    simpa [ids, Scheme.ids, Scheme.mono] using hσ
  | lit l =>
    intro k hk hr
    exact .pure hk (by cases l <;> simp [ids, Ty.ofLiteral, Ty.int, Ty.bool])
  | ctor name subs ih =>
    intro k hk hr
    simp only [typePattern]
    rcases hname : r.constructor? name with _ | ⟨d, s⟩
    · exact .fail hk
    dsimp only
    split
    · exact .fail hk
    obtain ⟨hparams, hargs⟩ := hr.constructor hname
    refine .freshFor_bind hk d.params fun bindings k₁ h₁ hbelow => ?_
    have hself := hbelow.replace <| h₁.lt fun i hi => hparams i (DataType.mem_ids_selfType.1 hi)
    have hargs₁ : ∀ a ∈ s.args.map (Ty.replace bindings), ∀ i ∈ a.ids, i < k₁.supply.next := by
      intro a ha
      obtain ⟨a', ha', rfl⟩ := List.mem_map.1 ha
      exact hbelow.replace (h₁.lt (hargs a' ha'))
    refine .bind (typeSubPatterns_keeps n _ ih h₁.valid (hr.mono h₁.le) hargs₁)
      fun vars k₂ h₂ hvars => .pure h₂.valid fun i hi => ?_
    exact (List.mem_append.1 hi).elim (h₂.lt hself i) (hvars i)

/-! ### Terms -/

/-- The check of the term keeps each valid session in which the context has minted ids only. -/
def TermKeeps (n : Nat) (t : Term) : Prop :=
  ∀ (c : Context) (k : Checker), k.Valid → c.Below k.supply.next → Keeps k (typeOf n c t)

theorem typeCase_keeps (n : Nat) (s : Term) {e : Pattern × Term} (ih : TermKeeps n e.2)
    {c : Context} {k : Checker} (hk : k.Valid) (hc : c.Below k.supply.next) {σ τ : Ty}
    (hσ : ∀ i ∈ σ.ids, i < k.supply.next) (hτ : ∀ i ∈ τ.ids, i < k.supply.next) :
    Keeps k (typeCase n c s σ τ e) := by
  simp only [typeCase]
  refine .bind (typePattern_keeps n _ e.1 k hk hc.registry) fun typed k₁ h₁ htyped => ?_
  have hfound := fun i hi => htyped i (List.mem_append_left _ hi)
  have hvars := fun i hi => htyped i (List.mem_append_right _ hi)
  have hrest : Keeps k₁ (do
      Checker.expect n σ typed.1 s (.patternMismatch e.1)
      let ρ ← typeOf n (c.extendAll typed.2) e.2
      Checker.expect n τ ρ e.2 (.caseMismatch e.1 e.2)) := by
    refine .seq (.expect h₁.valid (h₁.lt hσ) hfound n _ _) fun k₂ h₂ => ?_
    have h₀₂ := h₁.trans h₂
    refine .bind (ih _ k₂ h₂.valid ((hc.mono h₀₂.le).extendAll (h₂.lt hvars))) fun ρ k₃ h₃ hρ => ?_
    exact .expect h₃.valid (h₃.lt (h₀₂.lt hτ)) hρ n _ _
  rcases firstRepeated? [] (typed.2.map Prod.fst) with _ | name
  · exact hrest
  · exact .fail h₁.valid

theorem typeCases_keeps (n : Nat) (s : Term) {cases : List (Pattern × Term)}
    (ih : ∀ e ∈ cases, TermKeeps n e.2) {c : Context} {k : Checker} (hk : k.Valid)
    (hc : c.Below k.supply.next) {σ τ : Ty}
    (hσ : ∀ i ∈ σ.ids, i < k.supply.next) (hτ : ∀ i ∈ τ.ids, i < k.supply.next) :
    Keeps k (typeCases n c s σ τ cases) := by
  induction cases generalizing k with
  | nil => exact .pure hk (List.forall_mem_nil _)
  | cons e cases ihc =>
    rw [List.forall_mem_cons] at ih
    rw [typeCases_cons]
    exact .seq (typeCase_keeps n s ih.1 hk hc hσ hτ) fun k₁ h₁ =>
      ihc ih.2 h₁.valid (hc.mono h₁.le) (h₁.lt hσ) (h₁.lt hτ)

/-- An equation between types, and then a type. -/
theorem expect_resolve_keeps (n : Nat) {k : Checker} (hk : k.Valid) {e f t : Ty}
    (he : ∀ i ∈ e.ids, i < k.supply.next) (hf : ∀ i ∈ f.ids, i < k.supply.next)
    (ht : ∀ i ∈ t.ids, i < k.supply.next) (blame : Term) (onMismatch : Ty → Ty → TypeError) :
    Keeps k (Checker.expect n e f blame onMismatch >>= fun _ => Checker.resolve n t) :=
  .seq (.expect hk he hf n _ _) fun _ h => .resolve h.valid (h.lt ht) n

theorem rightOperand_keeps (n : Nat) (op : BinaryOp) {b t : Term} (ih : TermKeeps n b)
    {c : Context} {k : Checker} (hk : k.Valid) (hc : c.Below k.supply.next) {σ : Ty}
    (hσ : ∀ i ∈ σ.ids, i < k.supply.next) (onMismatch : Ty → Ty → TypeError) :
    Keeps k (do
      let ρ ← typeOf n c b
      Checker.expect n σ ρ t onMismatch
      if op.isComparison then return .bool else Checker.resolve n σ) := by
  refine .bind (ih c k hk hc) fun ρ k₁ h₁ hρ => ?_
  refine .seq (.expect h₁.valid (h₁.lt hσ) hρ n _ _) fun k₂ h₂ => ?_
  split
  · exact .pure h₂.valid (by simp [ids, Ty.bool])
  · exact .resolve h₂.valid ((h₁.trans h₂).lt hσ) n

theorem typeOf_keeps (n : Nat) (t : Term) : TermKeeps n t := by
  intro c k hk hc
  induction t using Term.induct generalizing c k with
  | var x =>
    simp only [typeOf]
    rcases hx : c.bindings.get? x with _ | s
    · exact .fail hk
    · exact .instantiate hk (hc.scheme hx)
  | lit l => exact .pure hk (by cases l <;> simp [ids, Ty.ofLiteral, Ty.int, Ty.bool])
  | ctor name =>
    simp only [typeOf]
    rcases hname : c.registry.constructor? name with _ | ⟨d, s⟩
    · exact .fail hk
    · exact .instantiate hk (hc.registry.constructorScheme hname)
  | app f a ihf iha =>
    simp only [typeOf]
    refine .bind (ihf c k hk hc) fun φ k₁ h₁ hφ => ?_
    refine .bind (iha c k₁ h₁.valid (hc.mono h₁.le)) fun σ k₂ h₂ hσ => ?_
    refine .bind (.resolve h₂.valid (h₂.lt hφ) n) fun u k₃ h₃ hu => ?_
    have hσ₃ := h₃.lt hσ
    cases u with
    | func param result =>
      have hparts : ∀ i ∈ param.ids ++ result.ids, i < k₃.supply.next := Ty.ids_func _ _ ▸ hu
      rw [List.forall_mem_append] at hparts
      exact expect_resolve_keeps n h₃.valid hparts.1 hσ₃ hparts.2 _ _
    | var v =>
      refine .bind (.fresh h₃.valid) fun ρ k₄ h₄ hρ => ?_
      have hfunc : ∀ i ∈ (Ty.func σ ρ).ids, i < k₄.supply.next := by
        rw [Ty.ids_func, List.forall_mem_append]
        exact ⟨h₄.lt hσ₃, hρ⟩
      exact expect_resolve_keeps n h₄.valid hfunc ((h₂.trans (h₃.trans h₄)).lt hφ) hρ _ _
    | const _ | prod _ _ | app _ _ | adt _ _ => exact .fail h₃.valid
  | abs x t ih =>
    simp only [typeOf]
    refine .bind (.fresh hk) fun σ k₁ h₁ hσ => ?_
    refine .bind (ih _ k₁ h₁.valid ((hc.mono h₁.le).extend_mono x hσ)) fun ρ k₂ h₂ hρ => ?_
    refine .bind (.resolve h₂.valid (h₂.lt hσ) n) fun u k₃ h₃ hu => .pure h₃.valid ?_
    change ∀ i ∈ (Ty.func u ρ).ids, i < k₃.supply.next
    rw [Ty.ids_func, List.forall_mem_append]
    exact ⟨hu, h₃.lt hρ⟩
  | fix x t ih =>
    simp only [typeOf]
    refine .bind (.fresh hk) fun σ k₁ h₁ hσ => ?_
    refine .bind (ih _ k₁ h₁.valid ((hc.mono h₁.le).extend_mono x hσ)) fun ρ k₂ h₂ hρ => ?_
    exact expect_resolve_keeps n h₂.valid (h₂.lt hσ) hρ (h₂.lt hσ) _ _
  | binary op a b iha ihb =>
    simp only [typeOf]
    refine .bind (iha c k hk hc) fun σ k₁ h₁ hσ => ?_
    have hc₁ := hc.mono h₁.le
    cases op with
    | eq | le => exact rightOperand_keeps n _ ihb h₁.valid hc₁ hσ _
    | add | sub | mul | div | and | or =>
      refine .seq (.expect h₁.valid (by simp [Ty.int, Ty.bool]) hσ n _ _) fun k₂ h₂ => ?_
      exact rightOperand_keeps n _ ihb h₂.valid (hc₁.mono h₂.le) (h₂.lt hσ) _
  | not a ih =>
    simp only [typeOf]
    refine .bind (ih c k hk hc) fun σ k₁ h₁ hσ => ?_
    refine .seq (.expect h₁.valid (by simp [Ty.bool]) hσ n _ _) fun k₂ h₂ => ?_
    exact .pure h₂.valid (by simp [ids, Ty.bool])
  | cond a b e iha ihb ihe =>
    simp only [typeOf]
    refine .bind (iha c k hk hc) fun σ k₁ h₁ hσ => ?_
    refine .seq (.expect h₁.valid (by simp [Ty.bool]) hσ n _ _) fun k₂ h₂ => ?_
    have hc₂ := hc.mono (h₁.trans h₂).le
    refine .bind (ihb c k₂ h₂.valid hc₂) fun ρ k₃ h₃ hρ => ?_
    refine .bind (ihe c k₃ h₃.valid (hc₂.mono h₃.le)) fun ρ' k₄ h₄ hρ' => ?_
    exact expect_resolve_keeps n h₄.valid (h₄.lt hρ) hρ' (h₄.lt hρ) _ _
  | select s cases ihs ihc =>
    simp only [typeOf]
    split
    · exact .fail hk
    refine .bind (ihs c k hk hc) fun σ k₁ h₁ hσ => ?_
    refine .bind (.fresh h₁.valid) fun ρ k₂ h₂ hρ => ?_
    have hσ₂ := h₂.lt hσ
    refine .seq (typeCases_keeps n s ihc h₂.valid (hc.mono (h₁.trans h₂).le) hσ₂ hρ)
      fun k₃ h₃ => ?_
    refine .bind (.resolve h₃.valid (h₃.lt hσ₂) n) fun u k₄ h₄ _ => ?_
    refine .seq (.ofExcept h₄.valid _) fun k₅ h₅ => ?_
    exact .resolve h₅.valid ((h₃.trans (h₄.trans h₅)).lt hρ) n

/-- Whether it fails or not, inference goes on to a valid session, and what it answers mentions
    minted ids only. -/
theorem infer_keeps (n : Nat) (t : Term) {c : Context} {k : Checker} (hk : k.Valid)
    (hc : c.Below k.supply.next) : Keeps k (infer n c t) :=
  .bind (typeOf_keeps n t c k hk hc) fun _ _ h hτ => .resolve h.valid hτ n

end CoreCalculus.Checker
