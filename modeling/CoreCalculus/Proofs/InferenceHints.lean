/-
  CoreCalculus/Proofs/InferenceHints.lean
  =======================================
  **Type checking does not look at hints.**

  Hints are in the schemes and declarations of a context, in the bindings of a session and in
  the types that are handed from one step of inference to the next.  Each step mirrors itself
  when all of them are erased (`Checker.Mirrors`), so inference in a context is mirrored by
  inference in any context that holds the same, erased, in whatever order.  Two contexts that
  are alike are both mirrored by the erased first one.
-/
import Mathlib.Data.List.Nodup
import Mathlib.Data.List.Perm.Subperm
import CoreCalculus.Proofs.PrincipalTypes
import CoreCalculus.Proofs.TypeNormalization
import CoreCalculus.Proofs.UnificationHints

namespace CoreCalculus

/-! ### Tables that agree -/

namespace Table

variable {κ α β : Type} [DecidableEq κ]

/-- Tables that agree hold the same, up to what the comparison does not see. -/
theorem map_get?_of_agrees {eq : α → α → Bool} {f : α → β} (hf : ∀ a b, eq a b = true → f a = f b)
    {t u : Table κ α} (h : t.agrees eq u = true) (k : κ) :
    (t.get? k).map f = (u.get? k).map f := by
  rw [agrees, Bool.and_eq_true, beq_iff_eq, List.all_eq_true] at h
  obtain ⟨hsize, hall⟩ := h
  have hsome : ∀ k a, t.get? k = some a → ∃ b, u.get? k = some b ∧ eq a b = true := by
    intro k a ha
    have he := hall (k, a) (get?_eq_some_iff.1 ha)
    dsimp only at he
    split at he
    · rename_i b hb
      exact ⟨b, hb, he⟩
    · cases he
  cases ht : t.get? k with
  | some a =>
    obtain ⟨b, hb, hab⟩ := hsome k a ht
    rw [hb, Option.map_some, Option.map_some, hf a b hab]
  | none =>
    -- as many keys, and each key of `t` is one of `u`
    have hkeys : t.keys ⊆ u.keys := by
      intro l hl
      by_contra hu
      have hne : t.get? l ≠ none := fun hnone => get?_eq_none_iff.1 hnone hl
      obtain ⟨a, ha⟩ := Option.ne_none_iff_exists'.1 hne
      obtain ⟨b, hb, -⟩ := hsome l a ha
      rw [get?_eq_none_iff.2 hu] at hb
      cases hb
    have hlength : u.keys.length ≤ t.keys.length := by
      rw [keys, keys, List.length_map, List.length_map]
      exact Nat.le_of_eq hsize.symm
    have hperm : t.keys.Perm u.keys := (t.nodup.subperm hkeys).perm_of_length_le hlength
    have hu : u.get? k = none := get?_eq_none_iff.2 fun hk =>
      get?_eq_none_iff.1 ht (hperm.mem_iff.2 hk)
    rw [hu]

theorem mem_flatMap_values {f : α → List β} {t : Table κ α} {b : β} :
    b ∈ t.values.flatMap f ↔ ∃ k a, t.get? k = some a ∧ b ∈ f a := by
  simp only [values, List.mem_flatMap, List.mem_map, get?_eq_some_iff]
  constructor
  · rintro ⟨_, ⟨e, he, rfl⟩, hb⟩
    exact ⟨e.1, e.2, he, hb⟩
  · rintro ⟨k, a, he, hb⟩
    exact ⟨a, ⟨(k, a), he, rfl⟩, hb⟩

end Table

/-! ### Contexts without hints -/

namespace Ty

theorem headName?_erase (t : Ty) : t.erase.headName? = t.headName? := by
  induction t using induct with
  | app target arg iht _ => exact iht
  | _ => rfl

theorem erase_curried (args : List Ty) (result : Ty) :
    (curried args result).erase = curried (args.map erase) result.erase := by
  induction args with
  | nil => rfl
  | cons a args ih =>
    change Ty.func a.erase (curried args result).erase = _
    rw [ih]
    rfl

end Ty

theorem Scheme.ids_erase (s : Scheme) : s.erase.ids = s.ids := by
  rw [ids, erase, Ty.ids_erase, List.map_map, ids]
  rfl

/-- Drop all hints. -/
def Signature.erase (s : Signature) : Signature := ⟨s.name, s.args.map Ty.erase⟩

namespace DataType

theorem ids_erase (d : DataType) : d.erase.ids = d.ids := by
  have hargs : ∀ s : Signature, (s.args.map Ty.erase).flatMap Ty.ids = s.args.flatMap Ty.ids := by
    intro s
    rw [List.flatMap_map]
    exact List.flatMap_congr fun t _ => t.ids_erase
  simp only [ids, erase, List.map_map, List.flatMap_map, hargs]
  rfl

theorem find?_erase (d : DataType) (name : String) :
    d.erase.find? name = (d.find? name).map Signature.erase := List.find?_map

theorem constructorNames_erase (d : DataType) : d.erase.constructorNames = d.constructorNames := by
  rw [constructorNames, erase, List.map_map, constructorNames]
  rfl

theorem selfType_erase (d : DataType) : d.erase.selfType = d.selfType.erase := by
  rw [selfType, selfType, Ty.erase_adt, erase, List.map_map, List.map_map]
  rfl

theorem constructorScheme_erase (d : DataType) (s : Signature) :
    d.erase.constructorScheme s.erase = (d.constructorScheme s).erase := by
  rw [constructorScheme, selfType_erase, Scheme.erase, constructorScheme, Ty.erase_curried]
  rfl

end DataType

/-- `r'` holds what `r` holds, without hints. -/
structure Registry.Erases (r r' : Registry) : Prop where
  types : ∀ name, r'.types.get? name = (r.types.get? name).map DataType.erase
  owners : ∀ name, r'.owners.get? name = r.owners.get? name

namespace Registry.Erases

variable {r r' : Registry} (h : r.Erases r')
include h

theorem constructor? (name : String) :
    r'.constructor? name = (r.constructor? name).map fun e => (e.1.erase, e.2.erase) := by
  simp only [Registry.constructor?, h.owners]
  cases r.owners.get? name with
  | none => rfl
  | some owner =>
    simp only [Option.bind_eq_bind, Option.bind_some, h.types]
    cases r.types.get? owner with
    | none => rfl
    | some d =>
      simp only [Option.map_some, Option.bind_some, DataType.find?_erase]
      cases d.find? name <;> rfl

theorem checkCoverage (t : Ty) (patterns : List Pattern) :
    r'.checkCoverage t.erase patterns = r.checkCoverage t patterns := by
  have hdata : t.headName?.bind r'.types.get? =
      (t.headName?.bind r.types.get?).map DataType.erase := by
    cases t.headName? with
    | none => rfl
    | some name => exact h.types name
  rw [Registry.checkCoverage, Registry.checkCoverage, Ty.headName?_erase, hdata]
  cases t.headName?.bind r.types.get? with
  | none => rfl
  | some d => simp only [Option.map_some, missing, DataType.constructorNames_erase]; rfl

end Registry.Erases

/-- `c'` holds what `c` holds, without hints. -/
structure Context.Erases (c c' : Context) : Prop where
  bindings : ∀ x, c'.bindings.get? x = (c.bindings.get? x).map Scheme.erase
  registry : c.registry.Erases c'.registry

/-- Drop the hints of all schemes. -/
def eraseBindings (Δ : List (String × Scheme)) : List (String × Scheme) :=
  Δ.map fun e => (e.1, e.2.erase)

namespace Context

variable {c c' d : Context}

theorem erases_erase (c : Context) : c.Erases c.erase where
  bindings x := Table.get?_map _ _ x
  registry := ⟨fun x => Table.get?_map _ _ x, fun _ => rfl⟩

theorem erases_of_alike (h : c.alike d = true) : d.Erases c.erase := by
  rw [alike, Registry.alike, Bool.and_eq_true, Bool.and_eq_true] at h
  obtain ⟨hbindings, htypes, howners⟩ := h
  refine ⟨fun x => ?_, ⟨fun x => ?_, fun x => ?_⟩⟩
  · rw [← Table.map_get?_of_agrees (fun a b hab => of_decide_eq_true hab) hbindings]
    exact Table.get?_map _ _ x
  · rw [← Table.map_get?_of_agrees (fun a b hab => of_decide_eq_true hab) htypes]
    exact Table.get?_map _ _ x
  · have hget : (c.registry.owners.get? x).map id = (d.registry.owners.get? x).map id :=
      Table.map_get?_of_agrees (fun a b hab => of_decide_eq_true hab) howners x
    rw [Option.map_id] at hget
    exact hget

namespace Erases

theorem extendAll (h : c.Erases c') (Δ : List (String × Scheme)) :
    (c.extendAll Δ).Erases (c'.extendAll (eraseBindings Δ)) where
  bindings x := by
    by_cases hx : x ∈ Δ.map Prod.fst
    · have hx' : x ∈ (eraseBindings Δ).map Prod.fst := by
        rw [eraseBindings, List.map_map]
        exact hx
      have hget := Table.get?_map Scheme.erase (c.bindings.insertAll Δ) x
      rw [Table.map_insertAll] at hget
      exact (Table.get?_insertAll_of_mem _ _ hx').trans hget
    · have hx' : x ∉ (eraseBindings Δ).map Prod.fst := by
        rw [eraseBindings, List.map_map]
        exact hx
      have hget : (c.extendAll Δ).bindings.get? x = c.bindings.get? x :=
        Table.get?_insertAll_of_not_mem hx
      rw [hget, ← h.bindings]
      exact Table.get?_insertAll_of_not_mem hx'
  registry := h.registry

theorem extend (h : c.Erases c') (x : String) (σ : Ty) :
    (c.extend x (.mono σ)).Erases (c'.extend x (.mono σ.erase)) := h.extendAll [(x, .mono σ)]

/-- Both mention the same ids. -/
theorem mem_ids_iff (h : c.Erases c') {i : Nat} : i ∈ c'.ids ↔ i ∈ c.ids := by
  simp only [ids, Registry.ids, List.mem_append, Table.mem_flatMap_values, h.bindings,
    h.registry.types, Option.map_eq_some_iff]
  refine or_congr ?_ ?_
  · constructor
    · rintro ⟨x, _, ⟨s, hs, rfl⟩, hi⟩
      exact ⟨x, s, hs, s.ids_erase ▸ hi⟩
    · rintro ⟨x, s, hs, hi⟩
      exact ⟨x, s.erase, ⟨s, hs, rfl⟩, s.ids_erase.symm ▸ hi⟩
  · constructor
    · rintro ⟨x, _, ⟨d, hd, rfl⟩, hi⟩
      exact ⟨x, d, hd, d.ids_erase ▸ hi⟩
    · rintro ⟨x, d, hd, hi⟩
      exact ⟨x, d.erase, ⟨d, hd, rfl⟩, d.ids_erase.symm ▸ hi⟩

theorem ofContext_eq (h : c.Erases c') : Checker.ofContext c' = Checker.ofContext c := by
  have hmax : c'.maxId? = c.maxId? := by
    refine Option.ext fun i => ?_
    rw [maxId?_eq, maxId?_eq, List.max?_eq_some_iff, List.max?_eq_some_iff]
    simp only [h.mem_ids_iff]
  rw [Checker.ofContext, Checker.ofContext, hmax]

end Erases

end Context

/-! ### The steps of inference -/

/-- Drop the hints of all types. -/
def TypeError.erase : TypeError → TypeError
  | .operandMismatch side operand expr expected found =>
    .operandMismatch side operand expr expected.erase found.erase
  | .operandsDisagree left right expr leftType rightType =>
    .operandsDisagree left right expr leftType.erase rightType.erase
  | .notAFunction func arg found => .notAFunction func arg found.erase
  | .argumentMismatch arg expr expected found =>
    .argumentMismatch arg expr expected.erase found.erase
  | .nonBooleanCondition test found => .nonBooleanCondition test found.erase
  | .branchMismatch expr yesType noType => .branchMismatch expr yesType.erase noType.erase
  | .recursionMismatch name expected found => .recursionMismatch name expected.erase found.erase
  | .patternMismatch pattern expected found =>
    .patternMismatch pattern expected.erase found.erase
  | .caseMismatch pattern body expected found =>
    .caseMismatch pattern body expected.erase found.erase
  | .infiniteType term v ty => .infiniteType term ⟨v.id, none⟩ ty.erase
  | .mismatch term expected found => .mismatch term expected.erase found.erase
  | .unboundVariable name => .unboundVariable name
  | .unknownConstructor name => .unknownConstructor name
  | .constructorArity name expected found => .constructorArity name expected found
  | .duplicatePatternVariable name pattern => .duplicatePatternVariable name pattern
  | .emptyMatch subject => .emptyMatch subject
  | .nonExhaustive typeName missing => .nonExhaustive typeName missing

namespace Checker

/-- Drop all hints. -/
def erase (k : Checker) : Checker := { k with solution := k.solution.erase }

/-- The second check does to what is erased what the first does to the originals. -/
abbrev Mirrors {α : Type} (result : α → α) (m m' : Check α) : Prop :=
  Run.Mirrors erase TypeError.erase result m m'

theorem fail_mirrors {α : Type} {result : α → α} (e : TypeError) :
    Mirrors result (Run.fail e) (Run.fail e.erase) := .fail e

theorem fresh_mirrors : Mirrors Ty.erase fresh fresh := .update fun _ => rfl

theorem resolve_mirrors (n : Nat) (t : Ty) : Mirrors Ty.erase (resolve n t) (resolve n t.erase) :=
  .read? fun k => k.solution.resolve_erase n t

theorem freshFor_mirrors (bindings : Table Nat Ty) (vs : List TypeVar) :
    Mirrors (Table.map Ty.erase) (freshFor bindings vs)
      (freshFor (bindings.map Ty.erase) (vs.map fun v => ⟨v.id, none⟩)) := by
  induction vs generalizing bindings with
  | nil => exact .pure bindings
  | cons v vs ih =>
    refine fresh_mirrors.bind fun t => ?_
    rw [← Table.map_insert]
    exact ih (bindings.insert v.id t)

theorem instantiate_mirrors (s : Scheme) :
    Mirrors Ty.erase (instantiate s) (instantiate s.erase) := by
  refine (freshFor_mirrors .empty s.vars).bind fun bindings => ?_
  have hty : s.erase.ty.replace (bindings.map Ty.erase) = (s.ty.replace bindings).erase :=
    (Ty.erase_replace bindings s.ty).symm
  rw [hty]
  exact .pure _

theorem expect_mirrors (n : Nat) (e f : Ty) (t : Term)
    {onMismatch onMismatch' : Ty → Ty → TypeError}
    (h : ∀ a b, (onMismatch a b).erase = onMismatch' a.erase b.erase) :
    Mirrors id (expect n e f t onMismatch) (expect n e.erase f.erase t onMismatch') := by
  intro k
  have hunify : Ty.unify n e.erase f.erase k.erase.solution =
      (Ty.unify n e f k.solution).map fun r =>
        ((r.1.mapError UnifyError.erase).map Solution.erase, r.2.erase) :=
    Ty.unify_mirrors n e f k.solution
  rw [expect, expect, hunify]
  rcases Ty.unify n e f k.solution with _ | ⟨⟨_ | _⟩ | _, s⟩
  · rfl
  · simp only [Option.map_some, Except.mapError, Except.map, UnifyError.erase,
      Solution.resolve_erase]
    cases s.resolve n e with
    | none => rfl
    | some e' =>
      cases s.resolve n f with
      | none => rfl
      | some f' =>
        simp only [Option.map_some, Option.bind_eq_bind, Option.bind_some, ← h]
        rfl
  · rfl
  · rfl

/-! ### Patterns -/

/-- Drop all hints of a typed pattern. -/
def eraseTyped (typed : Ty × List (String × Scheme)) : Ty × List (String × Scheme) :=
  (typed.1.erase, eraseBindings typed.2)

variable {r r' : Registry}

theorem typeSubPatterns_mirrors (n : Nat) (t : Term) {subs : List Pattern}
    (ih : ∀ p ∈ subs, Mirrors eraseTyped (typePattern n r p) (typePattern n r' p))
    (args : List Ty) :
    Mirrors eraseBindings (typeSubPatterns n r t subs args)
      (typeSubPatterns n r' t subs (args.map Ty.erase)) := by
  induction subs generalizing args with
  | nil => exact .pure []
  | cons p subs ihs =>
    cases args with
    | nil => exact .pure []
    | cons a args =>
      rw [List.forall_mem_cons] at ih
      simp only [typeSubPatterns, List.map_cons]
      refine ih.1.bind fun typed => (expect_mirrors n a typed.1 t fun _ _ => rfl).bind fun _ =>
        (ihs ih.2 args).bind fun more => ?_
      have happend : eraseBindings typed.2 ++ eraseBindings more =
          eraseBindings (typed.2 ++ more) := List.map_append.symm
      dsimp only [eraseTyped]
      rw [happend]
      exact .pure _

theorem typePattern_mirrors (n : Nat) (hr : r.Erases r') (p : Pattern) :
    Mirrors eraseTyped (typePattern n r p) (typePattern n r' p) := by
  induction p using Pattern.induct with
  | var x =>
    simp only [typePattern]
    exact fresh_mirrors.bind fun t => .pure (t, [(x, Scheme.mono t)])
  | lit l =>
    cases l with
    | int i => exact .pure (Ty.int, [])
    | bool b => exact .pure (Ty.bool, [])
  | ctor name subs ih =>
    simp only [typePattern, hr.constructor?]
    cases r.constructor? name with
    | none => exact fail_mirrors (.unknownConstructor name)
    | some e =>
      obtain ⟨d, s⟩ := e
      have hlength : s.erase.args.length = s.args.length := List.length_map _
      dsimp only [Option.map_some]
      rw [hlength]
      split
      · exact fail_mirrors (.constructorArity name s.args.length subs.length)
      · refine (freshFor_mirrors .empty d.params).bind fun bindings => ?_
        have hargs : s.erase.args.map (Ty.replace (bindings.map Ty.erase)) =
            (s.args.map (Ty.replace bindings)).map Ty.erase := by
          rw [Signature.erase, List.map_map, List.map_map]
          exact List.map_congr_left fun t _ => (Ty.erase_replace bindings t).symm
        rw [hargs, d.selfType_erase, ← Ty.erase_replace]
        exact (typeSubPatterns_mirrors n _ ih _).bind fun vars =>
          .pure (d.selfType.replace bindings, vars)

theorem map_fst_eraseBindings (Δ : List (String × Scheme)) :
    (eraseBindings Δ).map Prod.fst = Δ.map Prod.fst := by
  rw [eraseBindings, List.map_map]
  rfl

/-! ### Terms -/

/-- In a context without hints, the term is checked as in the context. -/
def MirrorsTerm (n : Nat) (t : Term) : Prop :=
  ∀ {c c' : Context}, c.Erases c' → Mirrors Ty.erase (typeOf n c t) (typeOf n c' t)

variable {n : Nat} {c c' : Context}

theorem typeCase_mirrors (s : Term) (σ τ : Ty) {e : Pattern × Term} (ih : MirrorsTerm n e.2)
    (hc : c.Erases c') : Mirrors id (typeCase n c s σ τ e) (typeCase n c' s σ.erase τ.erase e) := by
  simp only [typeCase]
  refine (typePattern_mirrors n hc.registry e.1).bind fun typed => ?_
  have hrest : Mirrors id
      (expect n σ typed.1 s (.patternMismatch e.1) >>= fun _ =>
        typeOf n (c.extendAll typed.2) e.2 >>= fun ρ => expect n τ ρ e.2 (.caseMismatch e.1 e.2))
      (expect n σ.erase typed.1.erase s (.patternMismatch e.1) >>= fun _ =>
        typeOf n (c'.extendAll (eraseBindings typed.2)) e.2 >>= fun ρ =>
          expect n τ.erase ρ e.2 (.caseMismatch e.1 e.2)) :=
    (expect_mirrors n σ typed.1 s fun _ _ => rfl).bind fun _ =>
      (ih (hc.extendAll typed.2)).bind fun ρ => expect_mirrors n τ ρ e.2 fun _ _ => rfl
  simp only [eraseTyped, map_fst_eraseBindings]
  cases firstRepeated? [] (typed.2.map Prod.fst) with
  | none => exact hrest
  | some name =>
    have hfail : Mirrors id (Run.fail (.duplicatePatternVariable name e.1) : Check Unit)
        (Run.fail (.duplicatePatternVariable name e.1)) :=
      fail_mirrors (.duplicatePatternVariable name e.1)
    exact hfail.bind fun _ => hrest

theorem typeCases_mirrors (s : Term) (σ τ : Ty) {cases : List (Pattern × Term)}
    (ih : ∀ e ∈ cases, MirrorsTerm n e.2) (hc : c.Erases c') :
    Mirrors id (typeCases n c s σ τ cases) (typeCases n c' s σ.erase τ.erase cases) := by
  induction cases with
  | nil =>
    simp only [typeCases]
    exact .pure ()
  | cons e cases ihc =>
    rw [List.forall_mem_cons] at ih
    rw [typeCases_cons, typeCases_cons]
    exact (typeCase_mirrors s σ τ ih.1 hc).bind fun _ => ihc ih.2

theorem checkCoverage_mirrors (hr : r.Erases r') (t : Ty) (patterns : List Pattern) :
    Mirrors id (Run.ofExcept (r.checkCoverage t patterns))
      (Run.ofExcept (r'.checkCoverage t.erase patterns)) := by
  rw [hr.checkCoverage, Registry.checkCoverage]
  split
  · exact .pure ()
  · split
    · exact .pure ()
    · rename_i d _
      dsimp only
      split
      · exact .pure ()
      · exact fail_mirrors (.nonExhaustive d.name _)

theorem typeOf_var_mirrors (x : String) : MirrorsTerm n (.var x) := by
  intro c c' hc
  simp only [typeOf, hc.bindings]
  cases c.bindings.get? x with
  | none => exact fail_mirrors (.unboundVariable x)
  | some s => exact instantiate_mirrors s

theorem typeOf_lit_mirrors (l : Literal) : MirrorsTerm n (.lit l) := by
  intro c c' _
  simp only [typeOf]
  cases l with
  | int i => exact .pure Ty.int
  | bool b => exact .pure Ty.bool

theorem typeOf_ctor_mirrors (name : String) : MirrorsTerm n (.ctor name) := by
  intro c c' hc
  simp only [typeOf, hc.registry.constructor?]
  cases c.registry.constructor? name with
  | none => exact fail_mirrors (.unknownConstructor name)
  | some e =>
    dsimp only [Option.map_some]
    rw [DataType.constructorScheme_erase]
    exact instantiate_mirrors _

/-- What is applied is a function, or may become one, with its hints or without. -/
theorem typeOf_app_mirrors {f a : Term} (ihf : MirrorsTerm n f) (iha : MirrorsTerm n a) :
    MirrorsTerm n (.app f a) := by
  intro c c' hc
  simp only [typeOf]
  refine (ihf hc).bind fun φ => (iha hc).bind fun σ => (resolve_mirrors n φ).bind fun u => ?_
  cases u with
  | func param result =>
    exact (expect_mirrors n param σ _ fun _ _ => rfl).bind fun _ => resolve_mirrors n result
  | var v =>
    exact fresh_mirrors.bind fun ρ =>
      (expect_mirrors n (.func σ ρ) φ _ fun _ _ => rfl).bind fun _ => resolve_mirrors n ρ
  | const name => exact fail_mirrors (.notAFunction f a (.const name))
  | prod b d => exact fail_mirrors (.notAFunction f a (.prod b d))
  | app b d => exact fail_mirrors (.notAFunction f a (.app b d))
  | adt name ts => exact fail_mirrors (.notAFunction f a (.adt name ts))

theorem typeOf_abs_mirrors (x : String) {t : Term} (ih : MirrorsTerm n t) :
    MirrorsTerm n (.abs x t) := by
  intro c c' hc
  simp only [typeOf]
  exact fresh_mirrors.bind fun σ => (ih (hc.extend x σ)).bind fun ρ =>
    (resolve_mirrors n σ).bind fun σ' => .pure (Ty.func σ' ρ)

theorem typeOf_fix_mirrors (x : String) {t : Term} (ih : MirrorsTerm n t) :
    MirrorsTerm n (.fix x t) := by
  intro c c' hc
  simp only [typeOf]
  exact fresh_mirrors.bind fun σ => (ih (hc.extend x σ)).bind fun ρ =>
    (expect_mirrors n σ ρ _ fun _ _ => rfl).bind fun _ => resolve_mirrors n σ

theorem typeOf_binary_mirrors (op : BinaryOp) {a b : Term} (iha : MirrorsTerm n a)
    (ihb : MirrorsTerm n b) : MirrorsTerm n (.binary op a b) := by
  intro c c' hc
  simp only [typeOf]
  refine (iha hc).bind fun σ => ?_
  have hright : Mirrors Ty.erase
      (typeOf n c b >>= fun ρ =>
        expect n σ ρ (.binary op a b) (.operandsDisagree a b (.binary op a b)) >>= fun _ =>
          if op.isComparison then pure .bool else resolve n σ)
      (typeOf n c' b >>= fun ρ =>
        expect n σ.erase ρ (.binary op a b) (.operandsDisagree a b (.binary op a b)) >>= fun _ =>
          if op.isComparison then pure .bool else resolve n σ.erase) := by
    refine (ihb hc).bind fun ρ => (expect_mirrors n σ ρ _ fun _ _ => rfl).bind fun _ => ?_
    split
    · exact .pure Ty.bool
    · exact resolve_mirrors n σ
  cases op with
  | eq | le => exact hright
  | add | sub | mul | div =>
    exact (expect_mirrors n .int σ _ fun _ _ => rfl).bind fun _ => hright
  | and | or => exact (expect_mirrors n .bool σ _ fun _ _ => rfl).bind fun _ => hright

theorem typeOf_not_mirrors {a : Term} (ih : MirrorsTerm n a) : MirrorsTerm n (.not a) := by
  intro c c' hc
  simp only [typeOf]
  exact (ih hc).bind fun σ => (expect_mirrors n .bool σ _ fun _ _ => rfl).bind fun _ =>
    .pure Ty.bool

theorem typeOf_cond_mirrors {a b e : Term} (iha : MirrorsTerm n a) (ihb : MirrorsTerm n b)
    (ihe : MirrorsTerm n e) : MirrorsTerm n (.cond a b e) := by
  intro c c' hc
  simp only [typeOf]
  exact (iha hc).bind fun σ => (expect_mirrors n .bool σ _ fun _ _ => rfl).bind fun _ =>
    (ihb hc).bind fun τ => (ihe hc).bind fun ρ =>
      (expect_mirrors n τ ρ _ fun _ _ => rfl).bind fun _ => resolve_mirrors n τ

theorem typeOf_select_mirrors {s : Term} {cases : List (Pattern × Term)} (ihs : MirrorsTerm n s)
    (ihc : ∀ e ∈ cases, MirrorsTerm n e.2) : MirrorsTerm n (.select s cases) := by
  intro c c' hc
  simp only [typeOf]
  split
  · exact fail_mirrors (.emptyMatch s)
  · exact (ihs hc).bind fun σ => fresh_mirrors.bind fun τ =>
      (typeCases_mirrors s σ τ ihc hc).bind fun _ => (resolve_mirrors n σ).bind fun σ' =>
        (checkCoverage_mirrors hc.registry σ' _).bind fun _ => resolve_mirrors n τ

/-- **Inference of every term is mirrored without hints.** -/
theorem typeOf_mirrors (n : Nat) (t : Term) : MirrorsTerm n t := by
  induction t using Term.induct with
  | var x => exact typeOf_var_mirrors x
  | lit l => exact typeOf_lit_mirrors l
  | ctor name => exact typeOf_ctor_mirrors name
  | app f a ihf iha => exact typeOf_app_mirrors ihf iha
  | abs x t ih => exact typeOf_abs_mirrors x ih
  | fix x t ih => exact typeOf_fix_mirrors x ih
  | binary op a b iha ihb => exact typeOf_binary_mirrors op iha ihb
  | not a ih => exact typeOf_not_mirrors ih
  | cond a b e iha ihb ihe => exact typeOf_cond_mirrors iha ihb ihe
  | select s cases ihs ihc => exact typeOf_select_mirrors ihs ihc

theorem infer_mirrors (n : Nat) (t : Term) (hc : c.Erases c') :
    Mirrors Ty.erase (infer n c t) (infer n c' t) :=
  (typeOf_mirrors n t hc).bind fun τ => resolve_mirrors n τ

end Checker

/-! ### Two runs -/

namespace Term

/-- Where contexts are alike, inference answers with as much fuel, and alike. -/
theorem infer?_alike {c d : Context} (h : c.alike d = true) (t : Term) (n : Nat) :
    (t.infer? n c).map (fun r => (r.mapError TypeError.erase).map Ty.erase) =
      (t.infer? n d).map fun r => (r.mapError TypeError.erase).map Ty.erase := by
  have hmirror : ∀ c', c'.Erases c.erase → t.infer? n c.erase =
      (t.infer? n c').map fun r => (r.mapError TypeError.erase).map Ty.erase := by
    intro c' hc'
    have hrun := Checker.infer_mirrors n t hc' (Checker.ofContext c')
    have hstart : (Checker.ofContext c').erase = Checker.ofContext c.erase := hc'.ofContext_eq.symm
    rw [hstart] at hrun
    rw [infer?, hrun, infer?, Option.map_map, Option.map_map]
    rfl
  rw [← hmirror c c.erases_erase, ← hmirror d (Context.erases_of_alike h)]

theorem exists_settles_infer? (c : Context) (t : Term) :
    ∃ r, Settles (fun n => t.infer? n c) r := by
  rcases infer?_spec c t with ⟨τ, h, -⟩ | ⟨e, h, -⟩
  · exact ⟨_, h⟩
  · exact ⟨_, h⟩

end Term

/-- **Hints never matter.**  In contexts that differ in hints only, every term has types that
    differ in hints only, and are printed alike when normalized; or it has errors of one kind, about
    the same terms, patterns and names, with types that differ in hints only.

    Unifications that differ in hints only keep two sessions side by side: at each time the same
    variables are bound to types that differ in hints only, and the next two unifications both
    succeed or both fail in the same way. -/
theorem hints_irrelevant {c d : Context} (h : c.alike d = true) {s s' : Solution}
    (hs : s.SideBySide s') :
    (∀ t : Term,
      (∃ τ τ', Settles (fun n => t.infer? n c) (.ok τ) ∧ Settles (fun n => t.infer? n d) (.ok τ') ∧
          τ.alike τ' = true ∧ τ.normalize.render = τ'.normalize.render) ∨
        ∃ e e', Settles (fun n => t.infer? n c) (.error e) ∧
          Settles (fun n => t.infer? n d) (.error e') ∧ e.erase = e'.erase) ∧
      (∀ i, Option.Rel (fun t t' => t.alike t' = true) (s.get? i) (s'.get? i)) ∧
      ∀ t t' u u' : Ty, t.alike t' = true → u.alike u' = true →
        ∃ r r' s₁ s₁', Settles (fun n => Ty.unify n t u s) (r, s₁) ∧
          Settles (fun n => Ty.unify n t' u' s') (r', s₁') ∧ Solution.AnswersAlike r r' ∧
            s₁.SideBySide s₁' := by
  refine ⟨fun t => ?_, Solution.get?_of_erase_eq hs.erase_eq,
    fun t t' u u' ht hu => hs.exists_unify ht hu⟩
  obtain ⟨r, hr⟩ := t.exists_settles_infer? c
  obtain ⟨r', hr'⟩ := t.exists_settles_infer? d
  obtain ⟨n, hn, hn'⟩ := (hr.and hr').exists
  dsimp only at hn hn'
  have herase := t.infer?_alike h n
  rw [hn, hn', Option.map_some, Option.map_some, Option.some.injEq] at herase
  cases r with
  | ok τ =>
    cases r' with
    | ok τ' =>
      have halike : τ.alike τ' = true := Ty.alike_iff.2 (Except.ok.inj herase)
      exact .inl ⟨τ, τ', hr, hr', halike, by rw [Ty.normalize_congr halike]⟩
    | error e' => cases herase
  | error e =>
    cases r' with
    | ok τ' => cases herase
    | error e' => exact .inr ⟨e, e', hr, hr', Except.error.inj herase⟩

/-- A free variable of the context comes back with its hint, in a type and in an error. -/
theorem hints_irrelevant_pick :
    let context (hint : Option String) : Context := Context.empty.extend "pick"
      ⟨[⟨0, hint⟩], .func (.var ⟨0, hint⟩) (.var ⟨1, hint⟩)⟩
    let result (hint : Option String) : Ty := .func (.var ⟨2, none⟩) (.var ⟨1, hint⟩)
    let solution (hint : Option String) : Solution :=
      Table.empty.insert 0 (.func (.var ⟨1, hint⟩) .int)
    let c := context (some "k")
    let d := context none
    let t : Term := .abs "x" (.app (.var "pick") (.var "x"))
    let u : Term := .binary .add (.var "pick") (.lit (.int 1))
    c.alike d = true ∧ (solution (some "k")).SideBySide (solution none) ∧
      t.infer? 5 c = some (.ok (result (some "k"))) ∧ t.infer? 5 d = some (.ok (result none)) ∧
      (result (some "k")).normalize.render = (result none).normalize.render ∧
      ∃ e e', Settles (fun n => u.infer? n c) (.error e) ∧
        Settles (fun n => u.infer? n d) (.error e') ∧ e.erase = e'.erase := by
  intro context result solution c d t u
  have hc : c.alike d = true := by decide
  have hunify : ∀ hint, Ty.unify 3 (.var ⟨0, none⟩) (.func (.var ⟨1, hint⟩) .int) .empty =
      some (.ok (solution hint), solution hint) := fun _ => rfl
  have hs : (solution (some "k")).SideBySide (solution none) :=
    .unify .empty (Ty.alike_refl _) rfl (hunify (some "k")) (hunify none)
  have hok : t.infer? 5 c = some (.ok (result (some "k"))) := by decide
  have hok' : t.infer? 5 d = some (.ok (result none)) := by decide
  have hbad : (u.infer? 5 c).any (fun r => r.toOption.isNone) = true := by decide
  obtain ⟨hinfer, -, -⟩ := hints_irrelevant hc hs
  refine ⟨hc, hs, hok, hok', ?_, ?_⟩
  · rcases hinfer t with ⟨τ, τ', hτ, hτ', -, hrender⟩ | ⟨e, e', he, -, -⟩
    · cases hτ.unique (Term.settles_infer? hok)
      cases hτ'.unique (Term.settles_infer? hok')
      exact hrender
    · cases he.unique (Term.settles_infer? hok)
  · rcases hinfer u with ⟨τ, τ', hτ, -, -, -⟩ | herror
    · obtain ⟨r, hr, hnone⟩ := (Option.any_eq_true _ _).1 hbad
      cases hτ.unique (Term.settles_infer? hr)
      cases hnone
    · exact herror

end CoreCalculus
