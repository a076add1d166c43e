/-
  CoreCalculus/Proofs/InferenceMeaning.lean
  =========================================
  **What the inference of a term stands for** is its typing relation.

  The check of `t` in the context `c` relates an assignment to the types of `t` in `c`
  under that assignment (`typeOf_denotes`), and likewise for patterns.  The proof goes
  along the term.  Each rule of the calculus is a composition of relations, in the
  order in which inference visits the parts, and each call of `expect` is an equation
  that the rule asks for.
-/
import CoreCalculus.Proofs.Session

namespace CoreCalculus

open Assignable

/-! ### Contexts with old ids -/

/-- All ids of the registry are below `n`. -/
def Registry.Below (n : Nat) (r : Registry) : Prop := ∀ i ∈ r.ids, i < n

/-- All ids of the context are below `n`. -/
def Context.Below (n : Nat) (c : Context) : Prop := ∀ i ∈ c.ids, i < n

namespace Registry.Below

variable {n : Nat} {r : Registry}

theorem mono {n' : Nat} (h : r.Below n) (hn : n ≤ n') : r.Below n' := fun i hi =>
  Nat.lt_of_lt_of_le (h i hi) hn

theorem subst_eq (h : r.Below n) {θ θ' : Assignment} (hagree : AgreeBelow n θ θ') :
    r.subst θ = r.subst θ' :=
  Registry.subst_congr fun d hd i hi =>
    hagree i (h i (List.mem_flatMap.2 ⟨d, hd, DataType.mem_ids_of_mem_freeIds hi⟩))

theorem constructor (h : r.Below n) {name : String} {d : DataType} {s : Signature}
    (hname : r.constructor? name = some (d, s)) :
    (∀ i ∈ d.params.map TypeVar.id, i < n) ∧ ∀ t ∈ s.args, ∀ i ∈ t.ids, i < n := by
  have hs := Registry.mem_constructors hname
  simp only [Registry.constructor?, Option.bind_eq_bind, Option.bind_eq_some_iff,
    Option.pure_def, Option.some.injEq, Prod.mk.injEq] at hname
  obtain ⟨owner, _, e, he, _, _, rfl, rfl⟩ := hname
  have hd : ∀ i ∈ e.ids, i < n := fun i hi => h i <| List.mem_flatMap.2
    ⟨e, List.mem_map.2 ⟨_, Table.get?_eq_some_iff.1 he, rfl⟩, hi⟩
  refine ⟨fun i hi => hd i (List.mem_append_left _ hi), ?_⟩
  intro t ht i hi
  exact hd i (List.mem_append_right _
    (List.mem_flatMap.2 ⟨_, hs, List.mem_flatMap.2 ⟨t, ht, hi⟩⟩))

theorem constructorScheme (h : r.Below n) {name : String} {d : DataType} {s : Signature}
    (hname : r.constructor? name = some (d, s)) : ∀ i ∈ (d.constructorScheme s).ids, i < n := by
  obtain ⟨hparams, hargs⟩ := h.constructor hname
  intro i hi
  rcases List.mem_append.1 hi with hi | hi
  · exact hparams i hi
  · rcases Ty.mem_ids_curried.1 hi with ⟨a, ha, hi⟩ | hi
    · exact hargs a ha i hi
    · exact hparams i (DataType.mem_ids_selfType.1 hi)

end Registry.Below

namespace Context.Below

variable {n : Nat} {c : Context}

theorem mono {n' : Nat} (h : c.Below n) (hn : n ≤ n') : c.Below n' := fun i hi =>
  Nat.lt_of_lt_of_le (h i hi) hn

theorem registry (h : c.Below n) : c.registry.Below n := fun i hi =>
  h i (List.mem_append_right _ hi)

theorem scheme (h : c.Below n) {x : String} {s : Scheme} (hx : c.bindings.get? x = some s) :
    ∀ i ∈ s.ids, i < n := fun i hi =>
  h i <| List.mem_append_left _ <| List.mem_flatMap.2
    ⟨s, List.mem_map.2 ⟨_, Table.get?_eq_some_iff.1 hx, rfl⟩, hi⟩

theorem subst_eq (h : c.Below n) {θ θ' : Assignment} (hagree : AgreeBelow n θ θ') :
    c.subst θ = c.subst θ' :=
  Context.subst_congr fun i hi => hagree i (h i (Context.mem_ids_of_mem_freeIds hi))

theorem extend (h : c.Below n) (x : String) {s : Scheme} (hs : ∀ i ∈ s.ids, i < n) :
    (c.extend x s).Below n := by
  intro i hi
  rcases List.mem_append.1 hi with hi | hi
  · obtain ⟨s', hs', hi⟩ := List.mem_flatMap.1 hi
    obtain ⟨⟨y, _⟩, he, rfl⟩ := List.mem_map.1 hs'
    have hget := Table.get?_eq_some_iff.2 he
    simp only [Context.extend, Table.get?_insert] at hget
    split at hget
    · cases hget
      exact hs i hi
    · exact h.scheme hget i hi
  · exact h.registry i hi

theorem extend_mono (h : c.Below n) (x : String) {σ : Ty} (hσ : ∀ i ∈ σ.ids, i < n) :
    (c.extend x (.mono σ)).Below n :=
  h.extend x (by simpa [Scheme.ids, Scheme.mono] using hσ)

theorem extendAll (h : c.Below n) {Δ : List (String × Scheme)} (hΔ : ∀ i ∈ Assignable.ids Δ, i < n) :
    (c.extendAll Δ).Below n := by
  induction Δ generalizing c with
  | nil => exact h
  | cons e Δ ih =>
    have hcons : ∀ i, i ∈ Assignable.ids (e :: Δ) ↔ i ∈ e.2.ids ∨ i ∈ Assignable.ids Δ :=
      fun i => by simp [Assignable.ids]
    simp only [hcons] at hΔ
    exact ih (h.extend e.1 fun i hi => hΔ i (.inl hi)) fun i hi => hΔ i (.inr hi)

end Context.Below

theorem below_ofContext (c : Context) : c.Below (Checker.ofContext c).supply.next := by
  intro i hi
  rw [Checker.ofContext, c.maxId?_eq]
  exact lt_beyond hi

namespace Checker

attribute [simp] typePattern typeSubPatterns typeOf typeCases

/-! ### Patterns -/

/-- A list repeats no name, and none that was seen. -/
theorem firstRepeated?_eq_none_iff {seen names : List String} :
    firstRepeated? seen names = none ↔ names.Nodup ∧ ∀ x ∈ names, x ∉ seen := by
  induction names generalizing seen with
  | nil => simp [firstRepeated?]
  | cons x names ih =>
    rw [firstRepeated?]
    split
    · rename_i hx
      simp [hx]
    · rename_i hx
      rw [ih]
      grind

/-- What the check of a pattern stands for. -/
def PatternDenotes (r : Registry) (p : Pattern) : Prop :=
  ∀ k : Checker, k.Valid → r.Below k.supply.next →
    Denotes k (fun n => typePattern n r p) fun θ e => PatternTyped (r.subst θ) p e.1 e.2

theorem typeSubPatterns_denotes {r : Registry} (t : Term) {subs : List Pattern}
    (ih : ∀ p ∈ subs, PatternDenotes r p) {k : Checker} (hk : k.Valid)
    (hr : r.Below k.supply.next) {args : List Ty} (hlength : subs.length = args.length)
    (hargs : ∀ a ∈ args, ∀ i ∈ a.ids, i < k.supply.next) :
    Denotes k (fun n => typeSubPatterns n r t subs args)
      fun θ Δ => PatternsTyped (r.subst θ) subs (args.map (Ty.assign θ)) Δ := by
  induction subs generalizing k args with
  | nil =>
    obtain rfl := List.length_eq_zero_iff.1 hlength.symm
    simp only [typeSubPatterns]
    refine (Denotes.pure hk (by simp [ids])).congr fun θ _ Δ => ?_
    simp [patternsTyped_nil_iff, assign]
  | cons p subs ihs =>
    cases args with
    | nil => cases hlength
    | cons a args =>
      rw [List.forall_mem_cons] at ih hargs
      have hmap : ∀ {k' : Checker} {θ θ' : Assignment}, k.Grows k' →
          AgreeBelow k'.supply.next θ θ' → args.map (Ty.assign θ) = args.map (Ty.assign θ') :=
        fun hgrows hagree => List.map_congr_left fun b hb =>
          hagree.assign_eq (hgrows.lt (hargs.2 b hb))
      simp only [typeSubPatterns]
      refine (Denotes.bind (fun θ e Δ => a.assign θ = e.1 ∧
          ∃ Δ', PatternsTyped (r.subst θ) subs (args.map (Ty.assign θ)) Δ' ∧ Δ = e.2 ++ Δ')
        (ih.1 k hk hr) ?_ ?_).congr fun θ _ Δ => ?_
      · rintro θ θ' e Δ hagree ⟨ha, Δ', hsubs, hΔ⟩
        refine ⟨(hagree.assign_eq hargs.1).symm.trans ha, Δ', ?_, hΔ⟩
        rwa [← hmap hk.grows hagree, ← hr.subst_eq hagree]
      · rintro ⟨found, vars⟩ k₁ h₁ he -
        have hfound : ∀ i ∈ found.ids, i < k₁.supply.next := fun i hi =>
          he i (List.mem_append_left _ hi)
        have hvars : ∀ i ∈ ids vars, i < k₁.supply.next := fun i hi =>
          he i (List.mem_append_right _ hi)
        refine Denotes.seq (Denotes.expect h₁.valid (h₁.lt hargs.1) hfound t _) ?_
          fun k₂ h₂ _ => ?_
        · rintro θ θ' Δ hagree ⟨Δ', hsubs, hΔ⟩
          refine ⟨Δ', ?_, ?_⟩
          · rwa [← hmap h₁ hagree, ← (hr.mono h₁.le).subst_eq hagree]
          · rw [hΔ]
            exact congrArg (· ++ Δ') (hagree.assign_eq hvars)
        · have h₀₂ := h₁.trans h₂
          refine Denotes.bind (fun θ Δ' Δ => Δ = assign θ vars ++ Δ')
            (ihs ih.2 h₂.valid (hr.mono h₀₂.le) (Nat.succ.inj hlength)
              fun b hb => h₀₂.lt (hargs.2 b hb)) ?_ fun more k₃ h₃ hmore _ => ?_
          · rintro θ θ' Δ' Δ hagree rfl
            exact congrArg (· ++ Δ') (hagree.assign_eq (h₂.lt hvars))
          · refine (Denotes.pure h₃.valid ?_).congr fun θ _ Δ => ?_
            · intro i hi
              rw [ids_append, List.mem_append] at hi
              rcases hi with hi | hi
              · exact h₃.lt (h₂.lt hvars) i hi
              · exact hmore i hi
            · rw [assign_append]
      · rw [patternsTyped_cons_iff]
        constructor
        · rintro ⟨⟨σ, Δ₁⟩, hp, rfl, Δ₂, hsubs, rfl⟩
          exact ⟨_, _, Δ₁, Δ₂, hp, hsubs, rfl, rfl⟩
        · rintro ⟨σ, σs, Δ₁, Δ₂, hp, hsubs, hargs, rfl⟩
          cases hargs
          exact ⟨(_, Δ₁), hp, rfl, Δ₂, hsubs, rfl⟩

/-- A constructor at any types for the parameters of its data type. -/
theorem constructorPattern_denotes {r : Registry} {name : String} {subs : List Pattern}
    {d : DataType} {s : Signature} (hname : r.constructor? name = some (d, s))
    (ih : ∀ p ∈ subs, PatternDenotes r p) {k : Checker} (hk : k.Valid)
    (hr : r.Below k.supply.next) (hlength : subs.length = s.args.length) :
    Denotes k
      (fun n => do
        let bindings ← freshFor .empty d.params
        let vars ← typeSubPatterns n r (.ctor name) subs (s.args.map (Ty.replace bindings))
        return (d.selfType.replace bindings, vars))
      fun θ (e : Ty × List (String × Scheme)) => ∃ g, PatternsTyped (r.subst θ) subs
          (s.args.map (Ty.assign (Assignment.override θ d.params g))) e.2 ∧
        e.1 = d.selfType.assign (Assignment.override θ d.params g) := by
  obtain ⟨hparams, hargs⟩ := hr.constructor hname
  have hself : ∀ i ∈ d.selfType.ids, i < k.supply.next := fun i hi =>
    hparams i (DataType.mem_ids_selfType.1 hi)
  refine Denotes.freshFor_bind d.params (fun θ ψ (e : Ty × List (String × Scheme)) =>
      PatternsTyped (r.subst θ) subs (s.args.map (Ty.assign ψ)) e.2 ∧
        e.1 = d.selfType.assign ψ) hk ?_ fun bindings k₁ h₁ hbelow => ?_
  · rintro θ θ' ψ ψ' e hagree hψ ⟨hsubs, he⟩
    have hmap : s.args.map (Ty.assign ψ) = s.args.map (Ty.assign ψ') :=
      List.map_congr_left fun a ha => hψ.assign_eq (hargs a ha)
    refine ⟨?_, he.trans (hψ.assign_ty_eq hself)⟩
    rwa [← hmap, ← hr.subst_eq hagree]
  · have hreplaced : ∀ θ, (s.args.map (Ty.replace bindings)).map (Ty.assign θ) =
        s.args.map (Ty.assign (reading bindings θ)) := fun θ => by
      rw [List.map_map]
      exact List.map_congr_left fun a _ => assign_replace_eq bindings θ a
    have hself₁ := hbelow.replace (h₁.lt hself)
    have hargs₁ : ∀ a ∈ s.args.map (Ty.replace bindings), ∀ i ∈ a.ids, i < k₁.supply.next := by
      intro a ha
      obtain ⟨a', ha', rfl⟩ := List.mem_map.1 ha
      exact hbelow.replace (h₁.lt (hargs a' ha'))
    refine (Denotes.bind (fun θ Δ e => e = ((d.selfType.replace bindings).assign θ, Δ))
      (typeSubPatterns_denotes (.ctor name) ih h₁.valid (hr.mono h₁.le) (by simp [hlength]) hargs₁)
      ?_ fun Δ k₂ h₂ hΔ _ => ?_).congr fun θ _ e => ?_
    · rintro θ θ' Δ e hagree rfl
      rw [hagree.assign_ty_eq hself₁]
    · refine (Denotes.pure h₂.valid fun i hi => ?_).congr fun θ _ e => Iff.rfl
      rcases List.mem_append.1 hi with hi | hi
      · exact h₂.lt hself₁ i hi
      · exact hΔ i hi
    · rw [hreplaced, assign_replace_eq]
      constructor
      · rintro ⟨Δ, hsubs, rfl⟩
        exact ⟨hsubs, rfl⟩
      · rintro ⟨hsubs, he⟩
        exact ⟨_, hsubs, Prod.ext he rfl⟩

theorem typePattern_denotes (r : Registry) (p : Pattern) : PatternDenotes r p := by
  induction p using Pattern.induct with
  | var x =>
    intro k hk hr
    simp only [typePattern]
    refine (Denotes.fresh_bind (fun _ σ e => e = (σ, [(x, Scheme.mono σ)])) hk
      (fun _ _ _ _ _ h => h) fun σ k' h hσ => ?_).congr fun θ _ e => ?_
    · refine (Denotes.pure h.valid (by simpa [ids, Scheme.ids, Scheme.mono] using hσ)).congr
        fun θ _ e => ?_
      simp [assign]
    · rw [patternTyped_var_iff]
      constructor
      · rintro ⟨σ, rfl⟩
        rfl
      · intro h
        exact ⟨e.1, Prod.ext rfl h⟩
  | lit l =>
    intro k hk hr
    simp only [typePattern]
    refine (Denotes.pure hk (by cases l <;> simp [ids, Ty.ofLiteral, Ty.int, Ty.bool])).congr
      fun θ _ e => ?_
    rw [patternTyped_lit_iff]
    simp [assign, Prod.ext_iff]
  | ctor name subs ih =>
    intro k hk hr
    simp only [typePattern, patternTyped_subst_ctor_iff]
    rcases hname : r.constructor? name with _ | ⟨d, s⟩
    · refine Denotes.fail _ fun θ e _ h => ?_
      obtain ⟨_, _, hname', _⟩ := h
      cases hname'
    · dsimp only
      split
      · -- the wrong number of arguments
        rename_i hlength
        refine Denotes.fail _ fun θ e _ h => hlength ?_
        obtain ⟨d', s', hname', g, hsubs, _⟩ := h
        cases hname'
        simpa using hsubs.length_eq.symm
      · rename_i hlength
        have hlength : subs.length = s.args.length := (Decidable.not_not.1 hlength).symm
        refine (constructorPattern_denotes hname ih hk hr hlength).congr fun θ _ e => ?_
        constructor
        · intro h
          exact ⟨d, s, rfl, h⟩
        · rintro ⟨d', s', hname', h⟩
          cases hname'
          exact h

/-! ### Coverage -/

end Checker

theorem Ty.headName?_assign {t : Ty} {name : String} (θ : Assignment)
    (h : t.headName? = some name) : (t.assign θ).headName? = some name := by
  induction t using Ty.induct with
  | app target arg iht _ => exact iht h
  | const _ | adt _ _ _ => exact h
  | var _ | func _ _ _ _ | prod _ _ _ _ => cases h

/-- Where the outermost name is known, coverage does not change with the assignment. -/
theorem Registry.covers_assign_iff {r : Registry} {t : Ty} {patterns : List Pattern}
    (θ : Assignment) (h : (∃ x, .var x ∈ patterns) ∨ t.headName? ≠ none) :
    r.Covers (t.assign θ) patterns ↔ r.Covers t patterns := by
  rcases h with h | h
  · exact iff_of_true (.inl h) (.inl h)
  · obtain ⟨name, hname⟩ := Option.ne_none_iff_exists'.1 h
    rw [Covers, Covers, hname, Ty.headName?_assign θ hname]

/-- A subject that is matched by more than bare variables has an outermost name. -/
theorem CasesTyped.headName?_ne_none {c : Context} {σ τ : Ty} {cases : List (Pattern × Term)}
    (h : CasesTyped c σ τ cases) (hne : cases ≠ []) :
    (∃ x, .var x ∈ cases.map Prod.fst) ∨ σ.headName? ≠ none := by
  cases h with
  | nil => exact absurd rfl hne
  | cons hp =>
    cases hp with
    | var x => exact .inl ⟨x, List.mem_cons_self⟩
    | lit l => exact .inr (by cases l <;> exact Option.some_ne_none _)
    | ctor => exact .inr (Option.some_ne_none _)

namespace Checker

/-- A resolved subject type covers under an assignment if it covers as it is. -/
theorem coverage_denotes {k : Checker} (hk : k.Valid) {r : Registry} {u : Ty}
    {patterns : List Pattern} (hunbound : ∀ i ∈ u.ids, k.solution.get? i = none)
    (hhead : ∀ θ, k.Admits θ →
      (∃ x, .var x ∈ patterns) ∨ (u.assign θ).headName? ≠ none) :
    Denotes k (fun _ => Run.ofExcept (r.checkCoverage u patterns))
      fun θ _ => r.Covers (u.assign θ) patterns := by
  have hcanonical := hhead _ hk.closed.holdsAt_canonical
  rw [Solution.assign_canonical_of_unbound hunbound] at hcanonical
  -- dropping hints puts no name where there was none
  have hknown : (∃ x, .var x ∈ patterns) ∨ u.headName? ≠ none := by
    refine hcanonical.imp_right fun h hnone => h ?_
    have herase : ∀ t : Ty, t.headName? = none → t.erase.headName? = none := by
      intro t
      induction t using Ty.induct with
      | app target arg iht _ => exact iht
      | _ => exact id
    exact herase u hnone
  rcases hcheck : r.checkCoverage u patterns with e | ⟨⟩
  · refine Denotes.fail e fun θ _ _ h => ?_
    rw [Registry.covers_assign_iff θ hknown, ← Registry.checkCoverage_eq_ok_iff, hcheck] at h
    cases h
  · refine (Denotes.pure hk (a := ()) (by simp [ids])).congr fun θ _ _ => ?_
    rw [Registry.covers_assign_iff θ hknown, ← Registry.checkCoverage_eq_ok_iff, hcheck]
    exact iff_of_true rfl rfl

/-! ### Terms -/

/-- What the check of a term stands for. -/
def TermDenotes (t : Term) : Prop :=
  ∀ (c : Context) (k : Checker), k.Valid → c.Below k.supply.next →
    Denotes k (fun n => typeOf n c t) fun θ τ => HasType (c.subst θ) t τ

theorem local_hasType {c : Context} {n : Nat} (hc : c.Below n) {θ θ' : Assignment}
    (hagree : AgreeBelow n θ θ') {t : Term} {τ : Ty} (h : HasType (c.subst θ) t τ) :
    HasType (c.subst θ') t τ := hc.subst_eq hagree ▸ h

theorem typeOf_var_denotes (x : String) : TermDenotes (.var x) := by
  intro c k hk hc
  simp only [typeOf]
  rcases hx : c.bindings.get? x with _ | s
  · refine Denotes.fail _ fun θ τ _ h => ?_
    obtain ⟨s, hs, -⟩ := hasType_subst_var_iff.1 h
    rw [hx] at hs
    cases hs
  · refine (instantiate_denotes hk (hc.scheme hx)).congr fun θ _ τ => ?_
    rw [hasType_subst_var_iff, hx]
    simp

theorem typeOf_lit_denotes (l : Literal) : TermDenotes (.lit l) := by
  intro c k hk hc
  simp only [typeOf]
  refine (Denotes.pure hk (by cases l <;> simp [ids, Ty.ofLiteral, Ty.int, Ty.bool])).congr
    fun θ _ τ => ?_
  rw [hasType_lit_iff]
  exact Eq.congr_right (Ty.assign_ofLiteral θ l)

theorem typeOf_ctor_denotes (name : String) : TermDenotes (.ctor name) := by
  intro c k hk hc
  simp only [typeOf]
  rcases hname : c.registry.constructor? name with _ | ⟨d, s⟩
  · refine Denotes.fail _ fun θ τ _ h => ?_
    obtain ⟨d, s, hs, -⟩ := hasType_subst_ctor_iff.1 h
    rw [hname] at hs
    cases hs
  · refine (instantiate_denotes hk (hc.registry.constructorScheme hname)).congr fun θ _ τ => ?_
    rw [hasType_subst_ctor_iff, hname]
    simp [DataType.constructorScheme]

theorem typeOf_app_denotes {f a : Term} (ihf : TermDenotes f) (iha : TermDenotes a) :
    TermDenotes (.app f a) := by
  intro c k hk hc
  simp only [typeOf]
  refine (Denotes.bind (fun θ φ τ => ∃ σ, HasType (c.subst θ) a σ ∧ φ = .func σ τ)
    (ihf c k hk hc) ?_ fun φ k₁ h₁ hφ _ => ?_).congr fun θ _ τ => hasType_app_iff.symm
  · rintro θ θ' φ τ hagree ⟨σ, ha, hφ⟩
    exact ⟨σ, local_hasType hc hagree ha, hφ⟩
  refine Denotes.bind (fun θ σ τ => φ.assign θ = .func σ τ) (iha c k₁ h₁.valid (hc.mono h₁.le))
    ?_ fun σ k₂ h₂ hσ _ => ?_
  · intro θ θ' σ τ hagree hτ
    rw [← hτ, hagree.assign_ty_eq hφ]
  have hφ₂ := h₂.lt hφ
  refine Denotes.resolve_bind h₂.valid hφ₂ fun u hu _ hsame => ?_
  cases u with
  | func param result =>
    simp only [Ty.ids_func, List.mem_append, or_imp, forall_and] at hu
    refine (Denotes.expect_resolve h₂.valid hu.1 hσ hu.2 _ _).congr fun θ hθ τ => ?_
    change _ ↔ φ.assign θ = .func (σ.assign θ) τ
    rw [← hsame θ hθ, Ty.assign_func, Ty.func.injEq, @eq_comm _ τ]
  | var v =>
    refine (Denotes.fresh_bind (fun θ ρ τ => .func (σ.assign θ) ρ = φ.assign θ ∧ τ = ρ) h₂.valid
      ?_ fun ρ k₃ h₃ hρ => ?_).congr fun θ _ τ => ?_
    · rintro θ θ' ρ τ hagree ⟨hfunc, hτ⟩
      rw [hagree.assign_ty_eq hσ, hagree.assign_ty_eq hφ₂] at hfunc
      exact ⟨hfunc, hτ⟩
    · have hfunc : ∀ i ∈ (Ty.func σ ρ).ids, i < k₃.supply.next := by
        intro i hi
        rw [Ty.ids_func, List.mem_append] at hi
        exact hi.elim (h₃.lt hσ i) (hρ i)
      exact Denotes.expect_resolve h₃.valid hfunc (h₃.lt hφ₂) hρ _ _
    · change (∃ ρ, _ ∧ τ = ρ) ↔ φ.assign θ = .func (σ.assign θ) τ
      rw [exists_eq_right', eq_comm]
  | const _ | prod _ _ | app _ _ | adt _ _ =>
    refine Denotes.fail _ fun θ τ hθ h => ?_
    have hfunc := (hsame θ hθ).trans h
    simp at hfunc

theorem typeOf_abs_denotes (x : String) {t : Term} (ih : TermDenotes t) :
    TermDenotes (.abs x t) := by
  intro c k hk hc
  simp only [typeOf]
  refine (Denotes.fresh_bind (fun θ σ τ => ∃ ρ,
      HasType ((c.subst θ).extend x (.mono σ)) t ρ ∧ τ = .func σ ρ) hk ?_
    fun σ k₁ h₁ hσ => ?_).congr fun θ _ τ => hasType_abs_iff.symm
  · rintro θ θ' σ τ hagree ⟨ρ, ht, hτ⟩
    exact ⟨ρ, hc.subst_eq hagree ▸ ht, hτ⟩
  have hextend : (c.extend x (.mono σ)).Below k₁.supply.next :=
    (hc.mono h₁.le).extend_mono x hσ
  refine (Denotes.bind (fun θ ρ τ => τ = .func (σ.assign θ) ρ) (ih _ k₁ h₁.valid hextend) ?_
    fun ρ k₂ h₂ hρ _ => ?_).congr fun θ _ τ => ?_
  · rintro θ θ' ρ τ hagree rfl
    rw [hagree.assign_ty_eq hσ]
  · refine Denotes.resolve_bind h₂.valid (h₂.lt hσ) fun u hu _ hsame => ?_
    refine (Denotes.pure h₂.valid fun i hi => ?_).congr fun θ hθ τ => ?_
    · change i ∈ (Ty.func u ρ).ids at hi
      rw [Ty.ids_func, List.mem_append] at hi
      exact hi.elim (hu i) (hρ i)
    · rw [← hsame θ hθ]
      rfl
  · simp only [Context.subst_extend]

theorem typeOf_fix_denotes (x : String) {t : Term} (ih : TermDenotes t) :
    TermDenotes (.fix x t) := by
  intro c k hk hc
  simp only [typeOf]
  refine (Denotes.fresh_bind (fun θ σ τ => τ = σ ∧
      HasType ((c.subst θ).extend x (.mono σ)) t σ) hk ?_ fun σ k₁ h₁ hσ => ?_).congr
    fun θ _ τ => ?_
  · rintro θ θ' σ τ hagree ⟨hτ, ht⟩
    exact ⟨hτ, hc.subst_eq hagree ▸ ht⟩
  · have hextend : (c.extend x (.mono σ)).Below k₁.supply.next :=
      (hc.mono h₁.le).extend_mono x hσ
    refine (Denotes.bind (fun θ ρ τ => σ.assign θ = ρ ∧ τ = σ.assign θ)
      (ih _ k₁ h₁.valid hextend) ?_ fun ρ k₂ h₂ hρ _ => ?_).congr fun θ _ τ => ?_
    · intro θ θ' ρ τ hagree h
      rwa [hagree.assign_ty_eq hσ] at h
    · exact Denotes.expect_resolve h₂.valid (h₂.lt hσ) hρ (h₂.lt hσ) _ _
    · simp only [Context.subst_extend]
      constructor
      · rintro ⟨ρ, ht, rfl, hτ⟩
        exact ⟨hτ, ht⟩
      · rintro ⟨hτ, ht⟩
        exact ⟨_, ht, rfl, hτ⟩
  · rw [hasType_fix_iff, exists_eq_left']

theorem typeOf_not_denotes {a : Term} (ih : TermDenotes a) : TermDenotes (.not a) := by
  intro c k hk hc
  simp only [typeOf]
  refine (Denotes.bind (fun _ σ τ => Ty.bool = σ ∧ τ = Ty.bool) (ih c k hk hc)
    (fun _ _ _ _ _ h => h) fun σ k₁ h₁ hσ _ => ?_).congr fun θ _ τ => ?_
  · refine Denotes.seq (Denotes.expect h₁.valid (by simp [Ty.bool]) hσ _ _) (fun _ _ _ _ h => h)
      fun k₂ h₂ _ => ?_
    exact Denotes.pure h₂.valid (by simp [ids, Ty.bool])
  · rw [hasType_not_iff]
    constructor
    · rintro ⟨_, ha, rfl, hτ⟩
      exact ⟨ha, hτ⟩
    · rintro ⟨ha, hτ⟩
      exact ⟨_, ha, rfl, hτ⟩

theorem typeOf_cond_denotes {a b e : Term} (iha : TermDenotes a) (ihb : TermDenotes b)
    (ihe : TermDenotes e) : TermDenotes (.cond a b e) := by
  intro c k hk hc
  simp only [typeOf]
  refine (Denotes.bind
    (fun θ σ τ => .bool = σ ∧ HasType (c.subst θ) b τ ∧ HasType (c.subst θ) e τ)
    (iha c k hk hc) ?_ fun σ k₁ h₁ hσ _ => ?_).congr fun θ _ τ => ?_
  · rintro θ θ' σ τ hagree ⟨h, hb, he⟩
    exact ⟨h, local_hasType hc hagree hb, local_hasType hc hagree he⟩
  · have hc₁ := hc.mono h₁.le
    refine Denotes.seq (Denotes.expect h₁.valid (by simp [Ty.bool]) hσ _ _) ?_ fun k₂ h₂ _ => ?_
    · rintro θ θ' τ hagree ⟨hb, he⟩
      exact ⟨local_hasType hc₁ hagree hb, local_hasType hc₁ hagree he⟩
    have hc₂ := hc₁.mono h₂.le
    refine (Denotes.bind (fun θ ρ τ => HasType (c.subst θ) e ρ ∧ τ = ρ) (ihb c k₂ h₂.valid hc₂) ?_
      fun ρ k₃ h₃ hρ _ => ?_).congr fun θ _ τ => ?_
    · rintro θ θ' ρ τ hagree ⟨he, hτ⟩
      exact ⟨local_hasType hc₂ hagree he, hτ⟩
    · refine (Denotes.bind (fun θ ρ' τ => ρ.assign θ = ρ' ∧ τ = ρ.assign θ)
        (ihe c k₃ h₃.valid (hc₂.mono h₃.le)) ?_ fun ρ' k₄ h₄ hρ' _ => ?_).congr fun θ _ τ => ?_
      · intro θ θ' ρ' τ hagree h
        rwa [hagree.assign_ty_eq hρ] at h
      · exact Denotes.expect_resolve h₄.valid (h₄.lt hρ) hρ' (h₄.lt hρ) _ _
      · constructor
        · rintro ⟨_, he, rfl, hτ⟩
          exact ⟨he, hτ⟩
        · rintro ⟨he, hτ⟩
          exact ⟨_, he, rfl, hτ⟩
    · constructor
      · rintro ⟨_, hb, he, rfl⟩
        exact ⟨hb, he⟩
      · rintro ⟨hb, he⟩
        exact ⟨_, hb, he, rfl⟩
  · rw [hasType_cond_iff]
    constructor
    · rintro ⟨_, ha, rfl, h⟩
      exact ⟨ha, h⟩
    · rintro ⟨ha, h⟩
      exact ⟨_, ha, rfl, h⟩

/-- The right operand has the type of the left one, for which the operator is known to be
    defined. -/
theorem rightOperand_denotes {op : BinaryOp} {b : Term} (ih : TermDenotes b) (t : Term)
    (onMismatch : Ty → Ty → TypeError) {c : Context} {k : Checker} (hk : k.Valid)
    (hc : c.Below k.supply.next) {σ : Ty} (hσ : ∀ i ∈ σ.ids, i < k.supply.next)
    (hop : ∀ θ, k.Admits θ → ∃ τ, op.Typed (σ.assign θ) τ) :
    Denotes k (fun n => do
        let found ← typeOf n c b
        Checker.expect n σ found t onMismatch
        if op.isComparison then return .bool else Checker.resolve n σ)
      fun θ τ => HasType (c.subst θ) b (σ.assign θ) ∧ op.Typed (σ.assign θ) τ := by
  refine (Denotes.bind (fun θ ρ τ => σ.assign θ = ρ ∧ op.Typed (σ.assign θ) τ) (ih c k hk hc) ?_
    fun ρ k₁ h₁ hρ _ => ?_).congr fun θ _ τ => ?_
  · intro θ θ' ρ τ hagree h
    rwa [hagree.assign_ty_eq hσ] at h
  · have hσ₁ := h₁.lt hσ
    refine Denotes.seq (Denotes.expect h₁.valid hσ₁ hρ _ _) ?_ fun k₂ h₂ _ => ?_
    · intro θ θ' τ hagree hτ
      rwa [hagree.assign_ty_eq hσ₁] at hτ
    · have hop₂ : ∀ θ, k₂.Admits θ → ∃ τ, op.Typed (σ.assign θ) τ := fun θ hθ =>
        hop θ (h₁.admits θ (h₂.admits θ hθ))
      cases op with
      | eq | le => exact Denotes.pure h₂.valid (by simp [ids, Ty.bool])
      | add | sub | mul | div | and | or =>
        refine (Denotes.resolve h₂.valid (h₂.lt hσ₁)).congr fun θ hθ τ => ?_
        obtain ⟨τ', hσ', rfl⟩ := hop₂ θ hθ
        change τ = σ.assign θ ↔ σ.assign θ = _ ∧ τ = _
        rw [hσ']
        simp
  · constructor
    · rintro ⟨_, hb, rfl, hτ⟩
      exact ⟨hb, hτ⟩
    · rintro ⟨hb, hτ⟩
      exact ⟨_, hb, rfl, hτ⟩

theorem typeOf_binary_denotes (op : BinaryOp) {a b : Term} (iha : TermDenotes a)
    (ihb : TermDenotes b) : TermDenotes (.binary op a b) := by
  intro c k hk hc
  simp only [typeOf]
  refine (Denotes.bind (fun θ σ τ => HasType (c.subst θ) b σ ∧ op.Typed σ τ) (iha c k hk hc) ?_
    fun σ k₁ h₁ hσ _ => ?_).congr fun θ _ τ => hasType_binary_iff.symm
  · rintro θ θ' σ τ hagree ⟨hb, hτ⟩
    exact ⟨local_hasType hc hagree hb, hτ⟩
  have hc₁ := hc.mono h₁.le
  have hlocal : ∀ θ θ' τ, AgreeBelow k₁.supply.next θ θ' →
      HasType (c.subst θ) b (σ.assign θ) ∧ op.Typed (σ.assign θ) τ →
      HasType (c.subst θ') b (σ.assign θ') ∧ op.Typed (σ.assign θ') τ := by
    intro θ θ' τ hagree h
    rwa [hagree.assign_ty_eq hσ, hc₁.subst_eq hagree] at h
  cases op with
  | eq | le => exact rightOperand_denotes ihb _ _ h₁.valid hc₁ hσ fun θ _ => ⟨_, rfl⟩
  | add | sub | mul | div | and | or =>
    refine (Denotes.seq (Denotes.expect h₁.valid (by simp [Ty.int, Ty.bool]) hσ _ _) hlocal
      fun k₂ h₂ hequal => ?_).congr fun θ _ τ => and_iff_right_of_imp fun h => h.2.1.symm
    exact rightOperand_denotes ihb _ _ h₂.valid (hc₁.mono h₂.le) (h₂.lt hσ) fun θ hθ =>
      ⟨_, (hequal θ hθ).symm, rfl⟩

/-- The check of one case. -/
def typeCase (n : Nat) (c : Context) (s : Term) (σ τ : Ty) (e : Pattern × Term) : Check Unit := do
  let (found, vars) ← typePattern n c.registry e.1
  match firstRepeated? [] (vars.map Prod.fst) with
  | some name => Run.fail (.duplicatePatternVariable name e.1)
  | none => pure ()
  expect n σ found s (.patternMismatch e.1)
  let ρ ← typeOf n (c.extendAll vars) e.2
  expect n τ ρ e.2 (.caseMismatch e.1 e.2)

theorem typeCases_cons (n : Nat) (c : Context) (s : Term) (σ τ : Ty) (e : Pattern × Term)
    (cases : List (Pattern × Term)) :
    typeCases n c s σ τ (e :: cases) =
      typeCase n c s σ τ e >>= fun _ => typeCases n c s σ τ cases := by
  obtain ⟨p, b⟩ := e
  simp only [typeCases, typeCase, Run.bind_assoc]
  congr 1
  funext typed
  cases firstRepeated? [] (typed.2.map Prod.fst) <;> simp only [Run.bind_assoc]

theorem typeCase_denotes (s : Term) {e : Pattern × Term} (ih : TermDenotes e.2) {c : Context}
    {k : Checker} (hk : k.Valid) (hc : c.Below k.supply.next) {σ τ : Ty}
    (hσ : ∀ i ∈ σ.ids, i < k.supply.next) (hτ : ∀ i ∈ τ.ids, i < k.supply.next) :
    Denotes k (fun n => typeCase n c s σ τ e)
      fun θ _ => CaseTyped (c.subst θ) (σ.assign θ) (τ.assign θ) e := by
  obtain ⟨p, b⟩ := e
  unfold typeCase
  refine (Denotes.bind (fun θ e _ => σ.assign θ = e.1 ∧ p.vars.Nodup ∧
      HasType ((c.subst θ).extendAll e.2) b (τ.assign θ))
    (typePattern_denotes c.registry p k hk hc.registry) ?_ ?_).congr fun θ _ _ => ?_
  · rintro θ θ' e ⟨⟩ hagree h
    rwa [hagree.assign_ty_eq hσ, hagree.assign_ty_eq hτ, hc.subst_eq hagree] at h
  · rintro ⟨found, Δ⟩ k₁ h₁ he htyped
    have hfound : ∀ i ∈ found.ids, i < k₁.supply.next := fun i hi =>
      he i (List.mem_append_left _ hi)
    have hΔ : ∀ i ∈ ids Δ, i < k₁.supply.next := fun i hi =>
      he i (List.mem_append_right _ hi)
    have hnames : Δ.map Prod.fst = p.vars := by
      rw [← (htyped _ h₁.valid.closed.holdsAt_canonical).names_eq]
      simp [assign]
    dsimp only
    rcases hrepeated : firstRepeated? [] (Δ.map Prod.fst) with _ | name
    · have hnodup : p.vars.Nodup := hnames ▸ (firstRepeated?_eq_none_iff.1 hrepeated).1
      have hσ₁ := h₁.lt hσ
      have hτ₁ := h₁.lt hτ
      have hc₁ := hc.mono h₁.le
      refine Denotes.seq (Denotes.expect h₁.valid hσ₁ hfound _ _) ?_ fun k₂ h₂ _ => ?_
      · intro θ θ' _ hagree h
        have hassign : assign θ (found, Δ) = assign θ' (found, Δ) := hagree.assign_eq he
        rwa [hagree.assign_ty_eq hτ₁, hc₁.subst_eq hagree, hassign] at h
      · have hc₂ := hc₁.mono h₂.le
        refine (Denotes.bind (fun θ ρ _ => τ.assign θ = ρ)
          (ih _ k₂ h₂.valid (hc₂.extendAll (h₂.lt hΔ))) ?_ fun ρ k₃ h₃ hρ _ => ?_).congr
          fun θ _ _ => ?_
        · rintro θ θ' ρ ⟨⟩ hagree h
          rwa [hagree.assign_ty_eq (h₂.lt hτ₁)] at h
        · exact Denotes.expect h₃.valid (h₃.lt (h₂.lt hτ₁)) hρ _ _
        · rw [Context.subst_extendAll, exists_eq_right']
          exact ⟨fun hb => ⟨hnodup, hb⟩, fun h => h.2⟩
    · refine Denotes.fail (.duplicatePatternVariable name p) fun θ _ _ h => ?_
      have hnone := (@firstRepeated?_eq_none_iff [] (Δ.map Prod.fst)).2
        ⟨hnames ▸ h.2.1, fun _ _ => List.not_mem_nil⟩
      rw [hrepeated] at hnone
      cases hnone
  · constructor
    · rintro ⟨⟨_, Δ⟩, hp, rfl, h⟩
      exact ⟨Δ, hp, h⟩
    · rintro ⟨Δ, hp, h⟩
      exact ⟨(_, Δ), hp, rfl, h⟩

theorem typeCases_denotes (s : Term) {cases : List (Pattern × Term)}
    (ih : ∀ e ∈ cases, TermDenotes e.2) {c : Context} {k : Checker} (hk : k.Valid)
    (hc : c.Below k.supply.next) {σ τ : Ty} (hσ : ∀ i ∈ σ.ids, i < k.supply.next)
    (hτ : ∀ i ∈ τ.ids, i < k.supply.next) :
    Denotes k (fun n => typeCases n c s σ τ cases)
      fun θ _ => CasesTyped (c.subst θ) (σ.assign θ) (τ.assign θ) cases := by
  simp only [casesTyped_iff]
  induction cases generalizing k with
  | nil =>
    simp only [typeCases]
    refine (Denotes.pure hk (a := ()) (by simp [ids])).congr fun θ _ _ => ?_
    exact iff_of_true rfl (by simp)
  | cons e cases ihc =>
    rw [List.forall_mem_cons] at ih
    simp only [typeCases_cons, List.forall_mem_cons]
    refine Denotes.seq (typeCase_denotes s ih.1 hk hc hσ hτ) ?_ fun k₁ h₁ _ => ?_
    · intro θ θ' _ hagree h
      rwa [hagree.assign_ty_eq hσ, hagree.assign_ty_eq hτ, hc.subst_eq hagree] at h
    · exact ihc ih.2 h₁.valid (hc.mono h₁.le) (h₁.lt hσ) (h₁.lt hτ)

theorem typeOf_select_denotes {s : Term} {cases : List (Pattern × Term)} (ihs : TermDenotes s)
    (ihc : ∀ e ∈ cases, TermDenotes e.2) : TermDenotes (.select s cases) := by
  intro c k hk hc
  simp only [typeOf]
  split
  · rename_i hempty
    refine Denotes.fail _ fun θ τ _ h => ?_
    exact (hasType_select_iff.1 h).1 (List.isEmpty_iff.1 hempty)
  rename_i hempty
  have hne : cases ≠ [] := fun h => hempty (List.isEmpty_iff.2 h)
  refine (Denotes.bind (fun θ σ τ => CasesTyped (c.subst θ) σ τ cases ∧
      c.registry.Covers σ (cases.map Prod.fst)) (ihs c k hk hc) ?_
    fun σ k₁ h₁ hσ _ => ?_).congr fun θ _ τ => ?_
  · intro θ θ' σ τ hagree h
    rwa [hc.subst_eq hagree] at h
  · have hc₁ := hc.mono h₁.le
    refine (Denotes.fresh_bind (fun θ ρ τ => CasesTyped (c.subst θ) (σ.assign θ) ρ cases ∧
        c.registry.Covers (σ.assign θ) (cases.map Prod.fst) ∧ τ = ρ) h₁.valid ?_
      fun ρ k₂ h₂ hρ => ?_).congr fun θ _ τ => ?_
    · intro θ θ' ρ τ hagree h
      rwa [hc₁.subst_eq hagree, hagree.assign_ty_eq hσ] at h
    · have hσ₂ := h₂.lt hσ
      have hc₂ := hc₁.mono h₂.le
      refine Denotes.seq (typeCases_denotes s ihc h₂.valid hc₂ hσ₂ hρ) ?_ fun k₃ h₃ hcases => ?_
      · intro θ θ' τ hagree h
        rwa [hagree.assign_ty_eq hσ₂, hagree.assign_ty_eq hρ] at h
      have hρ₃ := h₃.lt hρ
      refine Denotes.resolve_bind h₃.valid (h₃.lt hσ₂) fun u hu hunbound hsame => ?_
      have hcoverage := coverage_denotes h₃.valid (r := c.registry) hunbound fun θ hθ => by
        rw [hsame θ hθ]
        exact (hcases θ hθ).headName?_ne_none hne
      refine (Denotes.seq (D := fun θ τ => τ = ρ.assign θ) hcoverage ?_ fun k₄ h₄ _ => ?_).congr
        fun θ hθ τ => ?_
      · intro θ θ' τ hagree hτ
        exact hτ.trans (hagree.assign_ty_eq hρ₃)
      · exact Denotes.resolve h₄.valid (h₄.lt hρ₃)
      · rw [hsame θ hθ]
    · constructor
      · rintro ⟨ρ, hcases, hcovers, rfl⟩
        exact ⟨hcases, hcovers⟩
      · rintro ⟨hcases, hcovers⟩
        exact ⟨τ, hcases, hcovers, rfl⟩
  · rw [hasType_select_iff]
    simp only [Context.subst, Registry.covers_subst_iff]
    exact ⟨fun h => ⟨hne, h⟩, fun h => h.2⟩

/-- **Inference of a term stands for its typing relation.** -/
theorem typeOf_denotes (t : Term) : TermDenotes t := by
  induction t using Term.induct with
  | var x => exact typeOf_var_denotes x
  | lit l => exact typeOf_lit_denotes l
  | ctor name => exact typeOf_ctor_denotes name
  | app f a ihf iha => exact typeOf_app_denotes ihf iha
  | abs x t ih => exact typeOf_abs_denotes x ih
  | fix x t ih => exact typeOf_fix_denotes x ih
  | binary op a b iha ihb => exact typeOf_binary_denotes op iha ihb
  | not a ih => exact typeOf_not_denotes ih
  | cond a b e iha ihb ihe => exact typeOf_cond_denotes iha ihb ihe
  | select s cases ihs ihc => exact typeOf_select_denotes ihs ihc

end Checker

end CoreCalculus
