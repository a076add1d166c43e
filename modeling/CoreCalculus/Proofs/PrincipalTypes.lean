/-
  CoreCalculus/Proofs/PrincipalTypes.lean
  =======================================
  **Inference finds principal types.**

  A session starts without bindings and admits every assignment, so what inference of
  a term stands for is all its typings at once.  When it yields a type, the bindings
  made by then describe one assignment of the free variables of the context; every
  typing, for whatever assignment, is an instance of that one.  When it fails, the
  term has no typing.
-/
import CoreCalculus.Proofs.InferenceMeaning

namespace CoreCalculus

namespace Checker

/-! ### Fuel -/

theorem resolve_le (n : Nat) (t : Ty) : (resolve n t).Le (resolve (n + 1) t) :=
  Run.read?_le fun k u h => Solution.resolve_mono k.solution n t u h

theorem expect_le (n : Nat) (e f : Ty) (t : Term) (onMismatch : Ty → Ty → TypeError) :
    (expect n e f t onMismatch).Le (expect (n + 1) e f t onMismatch) := by
  intro k r h
  unfold expect at h ⊢
  rcases hunify : Ty.unify n e f k.solution with _ | ⟨⟨_ | _⟩ | _, s⟩
  · simp [hunify] at h
  · rw [Ty.unify_mono n e f _ _ hunify]
    rw [hunify] at h
    simp only [Option.bind_eq_bind, Option.bind_eq_some_iff] at h ⊢
    obtain ⟨e', he, f', hf, h⟩ := h
    exact ⟨e', Solution.resolve_mono s n e e' he, f', Solution.resolve_mono s n f f' hf, h⟩
  · rw [Ty.unify_mono n e f _ _ hunify]
    rwa [hunify] at h
  · rw [Ty.unify_mono n e f _ _ hunify]
    rwa [hunify] at h

theorem typeSubPatterns_le (n : Nat) (r : Registry) (t : Term) {subs : List Pattern}
    (ih : ∀ p ∈ subs, (typePattern n r p).Le (typePattern (n + 1) r p)) (args : List Ty) :
    (typeSubPatterns n r t subs args).Le (typeSubPatterns (n + 1) r t subs args) := by
  induction subs generalizing args with
  | nil => exact .refl _
  | cons p subs ihs =>
    cases args with
    | nil => exact .refl _
    | cons a args =>
      rw [List.forall_mem_cons] at ih
      simp only [typeSubPatterns]
      exact .bind ih.1 fun e => .bind (expect_le n _ _ _ _) fun _ =>
        .bind (ihs ih.2 args) fun _ => .refl _

theorem typePattern_le (n : Nat) (r : Registry) (p : Pattern) :
    (typePattern n r p).Le (typePattern (n + 1) r p) := by
  induction p using Pattern.induct with
  | var x => exact .refl _
  | lit l => exact .refl _
  | ctor name subs ih =>
    simp only [typePattern]
    rcases r.constructor? name with _ | ⟨d, s⟩
    · exact .refl _
    · dsimp only
      split
      · exact .refl _
      · exact .bind (.refl _) fun _ => .bind (typeSubPatterns_le n r _ ih _) fun _ => .refl _

theorem typeCase_le (n : Nat) (s : Term) (σ τ : Ty) {e : Pattern × Term}
    (ih : ∀ c, (typeOf n c e.2).Le (typeOf (n + 1) c e.2)) (c : Context) :
    (typeCase n c s σ τ e).Le (typeCase (n + 1) c s σ τ e) := by
  simp only [typeCase]
  refine .bind (typePattern_le n _ _) fun typed => ?_
  have hrest := Run.Le.bind (expect_le n σ typed.1 s (.patternMismatch e.1)) fun _ =>
    .bind (ih (c.extendAll typed.2)) fun ρ => expect_le n τ ρ e.2 (.caseMismatch e.1 e.2)
  rcases firstRepeated? [] (typed.2.map Prod.fst) with _ | name
  · exact hrest
  · exact .bind (.refl _) fun _ => hrest

theorem typeCases_le (n : Nat) (s : Term) (σ τ : Ty) {cases : List (Pattern × Term)}
    (ih : ∀ e ∈ cases, ∀ c, (typeOf n c e.2).Le (typeOf (n + 1) c e.2)) (c : Context) :
    (typeCases n c s σ τ cases).Le (typeCases (n + 1) c s σ τ cases) := by
  induction cases with
  | nil => exact .refl _
  | cons e cases ihc =>
    rw [List.forall_mem_cons] at ih
    rw [typeCases_cons, typeCases_cons]
    exact .bind (typeCase_le n s σ τ ih.1 c) fun _ => ihc ih.2

theorem typeOf_le (n : Nat) (c : Context) (t : Term) : (typeOf n c t).Le (typeOf (n + 1) c t) := by
  induction t using Term.induct generalizing c with
  | var x =>
    simp only [typeOf]
    exact .refl _
  | lit l => exact .refl _
  | ctor name =>
    simp only [typeOf]
    exact .refl _
  | app f a ihf iha =>
    simp only [typeOf]
    refine .bind (ihf c) fun φ => .bind (iha c) fun σ => .bind (resolve_le n φ) fun u => ?_
    cases u with
    | func param result => exact .bind (expect_le n _ _ _ _) fun _ => resolve_le n result
    | var v => exact .bind (.refl _) fun ρ => .bind (expect_le n _ _ _ _) fun _ => resolve_le n ρ
    | const _ | prod _ _ | app _ _ | adt _ _ => exact .refl _
  | abs x t ih =>
    simp only [typeOf]
    exact .bind (.refl _) fun σ => .bind (ih _) fun ρ => .bind (resolve_le n σ) fun _ => .refl _
  | fix x t ih =>
    simp only [typeOf]
    exact .bind (.refl _) fun σ => .bind (ih _) fun ρ => .bind (expect_le n _ _ _ _) fun _ =>
      resolve_le n σ
  | binary op a b iha ihb =>
    simp only [typeOf]
    refine .bind (iha c) fun σ => ?_
    have hright : (do
        let ρ ← typeOf n c b
        expect n σ ρ (.binary op a b) (.operandsDisagree a b (.binary op a b))
        if op.isComparison then return .bool else resolve n σ : Check Ty).Le (do
        let ρ ← typeOf (n + 1) c b
        expect (n + 1) σ ρ (.binary op a b) (.operandsDisagree a b (.binary op a b))
        if op.isComparison then return .bool else resolve (n + 1) σ) := by
      refine .bind (ihb c) fun ρ => .bind (expect_le n _ _ _ _) fun _ => ?_
      split
      · exact .refl _
      · exact resolve_le n σ
    cases op with
    | eq | le => exact hright
    | add | sub | mul | div | and | or => exact .bind (expect_le n _ _ _ _) fun _ => hright
  | not a ih =>
    simp only [typeOf]
    exact .bind (ih c) fun σ => .bind (expect_le n _ _ _ _) fun _ => .refl _
  | cond a b e iha ihb ihe =>
    simp only [typeOf]
    exact .bind (iha c) fun _ => .bind (expect_le n _ _ _ _) fun _ => .bind (ihb c) fun σ =>
      .bind (ihe c) fun _ => .bind (expect_le n _ _ _ _) fun _ => resolve_le n σ
  | select s cases ihs ihc =>
    simp only [typeOf]
    split
    · exact .refl _
    · exact .bind (ihs c) fun σ => .bind (.refl _) fun τ =>
        .bind (typeCases_le n s σ τ ihc c) fun _ => .bind (resolve_le n σ) fun _ =>
          .bind (.refl _) fun _ => resolve_le n τ

theorem infer_le (n : Nat) (c : Context) (t : Term) : (infer n c t).Le (infer (n + 1) c t) :=
  .bind (typeOf_le n c t) fun τ => resolve_le n τ

end Checker

namespace Term

theorem infer?_mono (c : Context) (t : Term) (counting : Counting) (n : Nat)
    (r : Except TypeError Ty) (h : t.infer? n c counting = some r) :
    t.infer? (n + 1) c counting = some r := by
  obtain ⟨e, he, rfl⟩ := Option.map_eq_some_iff.1 h
  exact Option.map_eq_some_iff.2 ⟨e, Checker.infer_le n c t _ _ he, rfl⟩

/-- Once inference has answered, more fuel does not change the answer. -/
theorem settles_infer? {c : Context} {t : Term} {counting : Counting} {n : Nat}
    {r : Except TypeError Ty} (h : t.infer? n c counting = some r) :
    Settles (fun n => t.infer? n c counting) r :=
  .of_mono (fun n r h => infer?_mono c t counting n r h) h

/-! ### Principal types -/

/-- `τ` is a type of `t` when the free variables of the context are assigned `θ`, which brings
    in no hints, and every other typing is an instance of this one. -/
structure Principal (c : Context) (t : Term) (θ : Assignment) (τ : Ty) : Prop where
  plain : Assignment.erase θ = θ
  typed : HasType (c.subst θ) t τ.erase
  general : ∀ θ' τ', HasType (c.subst θ') t τ' →
    ∃ ρ : Assignment, τ' = τ.assign ρ ∧ ∀ i ∈ c.freeIds, θ' i = (θ i).assign ρ

/-- Inference ends, with a principal type, or with an error when there is no typing. -/
theorem infer?_spec (c : Context) (t : Term) :
    (∃ τ, Settles (fun n => t.infer? n c) (.ok τ) ∧ ∃ θ, Principal c t θ τ) ∨
      ∃ e, Settles (fun n => t.infer? n c) (.error e) ∧ ∀ θ τ, ¬ HasType (c.subst θ) t τ := by
  have hstart : ∀ θ, (Checker.ofContext c).Admits θ := fun θ => Solution.holdsAt_empty
  have hbelow := below_ofContext c
  rcases Checker.typeOf_denotes t c _ (Checker.valid_ofContext c) hbelow with
    ⟨σ, k, h⟩ | ⟨e, k, h, hno⟩
  · obtain ⟨τ, hτ⟩ := h.grows.valid.closed.acyclic.settles_resolve σ
    obtain ⟨n, hn⟩ := hτ.exists_eq
    have hresolve : Settles (fun n => Checker.resolve n σ k) (.ok τ, k) := by
      filter_upwards [hτ] with n hn
      exact congrArg (Option.map _) hn
    have hinfer : Settles (fun n => Checker.infer n c t (Checker.ofContext c)) (.ok τ, k) :=
      Run.settles_bind h.settles hresolve
    have hsame : ∀ θ, k.Admits θ → τ.assign θ = σ.assign θ := fun θ hθ =>
      Solution.assign_resolve hn hθ
    refine .inl ⟨τ, ?_, k.solution.canonical, funext k.solution.erase_canonical, ?_,
      fun θ' τ' hτ' => ?_⟩
    · filter_upwards [hinfer] with n hn
      exact congrArg (Option.map _) hn
    · have hcanonical := h.grows.valid.closed.holdsAt_canonical
      have htyped := h.sound _ hcanonical
      change HasType _ t (σ.assign _) at htyped
      rwa [← hsame _ hcanonical,
        Solution.assign_canonical_of_unbound (Solution.unbound_of_resolve hn)] at htyped
    · obtain ⟨ρ, hagree, hρ, rfl⟩ := h.complete θ' τ' (hstart θ') hτ'
      refine ⟨ρ, (hsame ρ hρ).symm, fun i hi => ?_⟩
      rw [hρ.assign_canonical, hagree i (hbelow i (Context.mem_ids_of_mem_freeIds hi))]
  · refine .inr ⟨e, ?_, fun θ τ => hno θ τ (hstart θ)⟩
    have hinfer : Settles (fun n => Checker.infer n c t (Checker.ofContext c)) (.error e, k) :=
      Run.settles_bind_error h
    filter_upwards [hinfer] with n hn
    exact congrArg (Option.map _) hn

/-- Inference always answers. -/
theorem exists_infer? (c : Context) (t : Term) : ∃ fuel r, t.infer? fuel c = some r := by
  rcases infer?_spec c t with ⟨τ, hτ, -⟩ | ⟨e, he, -⟩
  · exact hτ.exists_eq.imp fun _ h => ⟨_, h⟩
  · exact he.exists_eq.imp fun _ h => ⟨_, h⟩

/-- What is inferred is principal. -/
theorem principal_of_infer? {c : Context} {t : Term} {n : Nat} {τ : Ty}
    (h : t.infer? n c = some (.ok τ)) : ∃ θ, Principal c t θ τ := by
  rcases infer?_spec c t with ⟨σ, hσ, hprincipal⟩ | ⟨e, he, -⟩
  · cases (settles_infer? h).unique hσ
    exact hprincipal
  · cases (settles_infer? h).unique he

/-- A term that has a type has an inferred one. -/
theorem exists_infer?_of_hasType {c : Context} {t : Term} {θ : Assignment} {τ : Ty}
    (h : HasType (c.subst θ) t τ) : ∃ n σ, t.infer? n c = some (.ok σ) := by
  rcases infer?_spec c t with ⟨σ, hσ, -⟩ | ⟨e, -, hno⟩
  · obtain ⟨n, hn⟩ := hσ.exists_eq
    exact ⟨n, σ, hn⟩
  · exact absurd h (hno θ τ)

/-- Principal types, when ids are counted without a bound.  Inference always answers.  It yields a
    type exactly for the terms that have one, for some assignment of the free variables of the
    context.  The type and an assignment are then a typing of which every other one is an
    instance. -/
theorem infer?_principal (c : Context) (t : Term) :
    ((∃ fuel τ, t.infer? fuel c = some (.ok τ)) ↔ ∃ θ τ, (c.subst θ).Types t τ) ∧
      ((∃ fuel e, t.infer? fuel c = some (.error e)) ↔ ¬ ∃ θ τ, (c.subst θ).Types t τ) ∧
      ∀ fuel τ, t.infer? fuel c = some (.ok τ) →
        ∃ θ, (c.subst θ).Types t τ ∧ ∀ θ' τ', (c.subst θ').Types t τ' →
          ∃ ρ : Assignment, τ'.alike (τ.assign ρ) ∧
            ∀ i ∈ c.freeIds, (θ' i).alike ((θ i).assign ρ) := by
  have htypes : ∀ {θ τ}, (c.subst θ).Types t τ ↔ HasType (c.subst (Assignment.erase θ)) t τ.erase :=
    fun {θ τ} => by rw [Context.Types, Context.erase_subst]
  refine ⟨⟨?_, ?_⟩, ⟨?_, fun hno => ?_⟩, fun fuel τ h => ?_⟩
  · rintro ⟨fuel, τ, h⟩
    obtain ⟨θ, hθ⟩ := principal_of_infer? h
    exact ⟨θ, τ, htypes.2 (hθ.plain.symm ▸ hθ.typed)⟩
  · rintro ⟨θ, τ, h⟩
    exact exists_infer?_of_hasType (htypes.1 h)
  · rintro ⟨fuel, e, h⟩ ⟨θ, τ, hτ⟩
    obtain ⟨n, σ, hσ⟩ := exists_infer?_of_hasType (htypes.1 hτ)
    cases (settles_infer? h).unique (settles_infer? hσ)
  · rcases infer?_spec c t with ⟨σ, hσ, θ, hθ⟩ | ⟨e, he, -⟩
    · exact absurd ⟨θ, σ, htypes.2 (hθ.plain.symm ▸ hθ.typed)⟩ hno
    · obtain ⟨fuel, h⟩ := he.exists_eq
      exact ⟨fuel, e, h⟩
  · obtain ⟨θ, hθ⟩ := principal_of_infer? h
    refine ⟨θ, htypes.2 (hθ.plain.symm ▸ hθ.typed), fun θ' τ' h' => ?_⟩
    obtain ⟨ρ, hτ, hfree⟩ := hθ.general _ _ (htypes.1 h')
    refine ⟨ρ, ?_, fun i hi => ?_⟩
    · rw [Ty.alike_iff, ← hτ, Ty.erase_erase]
    · rw [Ty.alike_iff, ← hfree i hi]
      exact (Ty.erase_erase (θ' i)).symm

end Term

end CoreCalculus
