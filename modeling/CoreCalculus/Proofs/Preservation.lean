/-
  CoreCalculus/Proofs/Preservation.lean
  =====================================
  **Evaluation keeps types.**

  A value that a pattern takes gives the variables of the pattern values of their
  types: a constructor at the head of a spine is used at some types, and the result
  type tells which.  With the substitution lemma, every rule of the evaluator keeps the
  type of the node it reduces; a node that stays as it is has parts of the types that
  the parts before had.  So what is observed on the way is typed too: patterns are tested
  against values of literal types and data types only (`HasType.evaluates`).

  Together with principal types: a value has an inferred type, of which the inferred
  type of the term is an instance.
-/
import CoreCalculus.Proofs.BigStep
import CoreCalculus.Proofs.Operators
import CoreCalculus.Proofs.PrincipalTypes
import CoreCalculus.Proofs.TypedSubstitution

namespace CoreCalculus

/-! ### Spines -/

theorem hasType_apply_iff {c : Context} {head : Term} {args : List Term} {τ : Ty} :
    HasType c (head.apply args) τ ↔
      ∃ σs, HasType c head (Ty.curried σs τ) ∧ List.Forall₂ (HasType c) args σs := by
  induction args generalizing head with
  | nil =>
    constructor
    · exact fun h => ⟨[], h, .nil⟩
    · rintro ⟨σs, h, hargs⟩
      cases hargs
      exact h
  | cons a args ih =>
    have hcons : head.apply (a :: args) = (head.app a).apply args := rfl
    rw [hcons, ih]
    constructor
    · rintro ⟨σs, h, hargs⟩
      obtain ⟨_, hhead, σ, ha, rfl⟩ := hasType_app_iff.1 h
      exact ⟨σ :: σs, hhead, .cons ha hargs⟩
    · rintro ⟨_, hhead, hargs⟩
      cases hargs with
      | @cons _ σ _ σs ha hargs => exact ⟨σs, .app hhead ha, hargs⟩

theorem Ty.curried_inj {σs τs : List Ty} {σ τ : Ty} (hlength : σs.length = τs.length)
    (h : curried σs σ = curried τs τ) : σs = τs ∧ σ = τ := by
  induction σs generalizing τs with
  | nil =>
    obtain rfl := List.length_eq_zero_iff.1 hlength.symm
    exact ⟨rfl, h⟩
  | cons a σs ih =>
    cases τs with
    | nil => cases hlength
    | cons b τs =>
      obtain ⟨rfl, hrest⟩ := Ty.func.inj h
      obtain ⟨rfl, rfl⟩ := ih (Nat.succ.inj hlength) hrest
      exact ⟨rfl, rfl⟩

/-- A data type at some types determines the types of the arguments of its constructors. -/
theorem DataType.inst_eq_of_selfType {d : DataType} {g g' : Nat → Ty}
    (h : d.selfType.inst d.params g = d.selfType.inst d.params g') :
    Ty.inst d.params g = Ty.inst d.params g' := by
  have hparams : ∀ v ∈ d.params, g v.id = g' v.id := by
    simp only [selfType, Ty.inst, Ty.subst, Ty.substAll_eq_map, List.map_map, Ty.adt.injEq,
      true_and] at h
    intro v hv
    have hv' : v.id ∈ d.params.map TypeVar.id := List.mem_map_of_mem hv
    have hval := List.map_inj_left.1 h v hv
    simpa only [Function.comp_apply, Ty.subst, if_pos hv'] using hval
  funext t
  refine Ty.subst_congr fun v _ => ?_
  split
  · rename_i hv
    obtain ⟨w, hw, hid⟩ := List.mem_map.1 hv
    rw [← hid, hparams w hw]
  · rfl

/-- The arguments of a saturated constructor have the types of the sub-patterns. -/
theorem args_typed {c : Context} {name : String} {args : List Term} {subs : List Pattern}
    {σ : Ty} {Δ : List (String × Scheme)} (hv : HasType c ((Term.ctor name).apply args) σ)
    (hlength : args.length = subs.length) (hp : PatternTyped c.registry (.ctor name subs) σ Δ) :
    ∃ σs, PatternsTyped c.registry subs σs Δ ∧ List.Forall₂ (HasType c) args σs := by
  obtain ⟨σs, hhead, hargs⟩ := hasType_apply_iff.1 hv
  obtain ⟨d, s, g, hname, hcurried⟩ := hasType_ctor_iff.1 hhead
  obtain ⟨d', s', g', hname', hsubs, hσ⟩ := patternTyped_ctor_iff.1 hp
  obtain ⟨rfl, rfl⟩ : d = d' ∧ s = s' := by
    rw [hname] at hname'
    cases hname'
    exact ⟨rfl, rfl⟩
  have hsame : σs.length = (s.args.map (Ty.inst d.params g)).length := by
    rw [← hargs.length_eq, hlength, hsubs.length_eq, List.length_map, List.length_map]
  rw [DataType.constructorScheme, Ty.inst_curried] at hcurried
  obtain ⟨rfl, hself⟩ := Ty.curried_inj hsame hcurried
  rw [← DataType.inst_eq_of_selfType (hself.symm.trans hσ)] at hsubs
  exact ⟨_, hsubs, hargs⟩

/-! ### Matching -/

/-- Each name of `Δ` is bound to a value of all types of its scheme. -/
def BindingsTyped (c : Context) (Δ : List (String × Scheme)) (bindings : Table String Term) :
    Prop :=
  ∀ x s, (x, s) ∈ Δ →
    ∃ v, bindings.get? x = some v ∧ ∀ g, HasType c v (s.ty.inst s.vars g)

/-- What a successful match with a pattern does to the bindings. -/
def MatchTyped (c : Context) (p : Pattern) : Prop :=
  ∀ (bindings bindings' : Table String Term) (v : Term) (σ : Ty) (Δ : List (String × Scheme)),
    p.matchInto bindings v = (true, bindings') → PatternTyped c.registry p σ Δ → p.vars.Nodup →
    HasType c v σ →
    BindingsTyped c Δ bindings' ∧ ∀ x, x ∉ p.vars → bindings'.get? x = bindings.get? x

theorem matchAll_typed {c : Context} {subs : List Pattern} (ih : ∀ p ∈ subs, MatchTyped c p)
    {bindings bindings' : Table String Term} {args : List Term} {σs : List Ty}
    {Δ : List (String × Scheme)} (h : Pattern.matchAll bindings subs args = (true, bindings'))
    (hsubs : PatternsTyped c.registry subs σs Δ) (hnodup : (Pattern.varsAll subs).Nodup)
    (hargs : List.Forall₂ (HasType c) args σs) :
    BindingsTyped c Δ bindings' ∧
      ∀ x, x ∉ Pattern.varsAll subs → bindings'.get? x = bindings.get? x := by
  induction subs generalizing bindings args σs Δ with
  | nil =>
    obtain ⟨rfl, rfl⟩ := patternsTyped_nil_iff.1 hsubs
    cases hargs
    cases h
    exact ⟨fun _ _ hmem => absurd hmem List.not_mem_nil, fun _ _ => rfl⟩
  | cons p ps ihs =>
    rw [List.forall_mem_cons] at ih
    obtain ⟨σ, σs, Δ₁, Δ₂, hp, hps, rfl, rfl⟩ := patternsTyped_cons_iff.1 hsubs
    obtain ⟨hnodup₁, hnodup₂, hdisjoint⟩ := List.nodup_append.1 hnodup
    cases hargs with
    | @cons a _ args _ ha hargs =>
      rw [Pattern.matchAll] at h
      rcases hmatch : p.matchInto bindings a with ⟨_ | _, bindings₁⟩
      · rw [hmatch] at h
        cases h
      · rw [hmatch] at h
        obtain ⟨htyped₁, hothers₁⟩ := ih.1 _ _ _ _ _ hmatch hp hnodup₁ ha
        obtain ⟨htyped₂, hothers₂⟩ := ihs ih.2 h hps hnodup₂ hargs
        refine ⟨fun x s hmem => ?_, fun x hx => ?_⟩
        · rcases List.mem_append.1 hmem with hmem | hmem
          · have hx : x ∈ p.vars := hp.names_eq ▸ List.mem_map_of_mem hmem
            rw [hothers₂ x fun hx' => hdisjoint x hx x hx' rfl]
            exact htyped₁ x s hmem
          · exact htyped₂ x s hmem
        · rw [Pattern.varsAll, List.mem_append, not_or] at hx
          rw [hothers₂ x hx.2, hothers₁ x hx.1]

theorem matchInto_typed (c : Context) (p : Pattern) : MatchTyped c p := by
  induction p using Pattern.induct with
  | var y =>
    intro bindings bindings' v σ Δ h hp _ hv
    obtain rfl := patternTyped_var_iff.1 hp
    cases h
    refine ⟨fun x s hmem => ?_, fun x hx => ?_⟩
    · cases List.mem_singleton.1 hmem
      refine ⟨v, by rw [Table.get?_insert, if_pos rfl], fun g => ?_⟩
      rwa [Scheme.mono, Ty.inst_nil]
    · rw [Table.get?_insert, if_neg (by simpa [Pattern.vars] using hx)]
  | lit l =>
    intro bindings bindings' v σ Δ h hp _ _
    obtain ⟨-, rfl⟩ := patternTyped_lit_iff.1 hp
    obtain rfl : bindings = bindings' := (Prod.mk.inj h).2
    exact ⟨fun _ _ hmem => absurd hmem List.not_mem_nil, fun _ _ => rfl⟩
  | ctor name subs ih =>
    intro bindings bindings' v σ Δ h hp hnodup hv
    rw [Pattern.matchInto] at h
    dsimp only at h
    split at h
    · rename_i hcond
      obtain ⟨hhead, hlength⟩ := hcond
      rw [← v.apply_spine, hhead] at hv
      obtain ⟨σs, hsubs, hargs⟩ := args_typed hv hlength hp
      exact matchAll_typed ih h hsubs hnodup hargs
    · cases h

/-- Bindings stand in for the names that they bind, and only for those. -/
theorem BindingsTyped.interprets {c : Context} {Δ : List (String × Scheme)}
    {bindings : Table String Term} (h : BindingsTyped c Δ bindings)
    (hothers : ∀ x, x ∉ Δ.map Prod.fst → bindings.get? x = none) (xs : List String) :
    Interprets (c.extendAll Δ) c xs (Replacements.standIn bindings) := by
  refine ⟨rfl, fun x _ σ hσ => ?_⟩
  by_cases hx : x ∈ Δ.map Prod.fst
  · obtain ⟨s, g, hs, rfl⟩ := hasType_var_iff.1 hσ
    obtain ⟨v, hv, htyped⟩ := h x s (Table.mem_of_get?_insertAll hs hx)
    rw [Replacements.standIn, hv]
    exact htyped g
  · rw [Replacements.standIn, hothers x hx]
    exact (hasType_var_extendAll_iff hx).1 hσ

theorem mem_of_firstMatch {v : Term} {cases : List (Pattern × Term)}
    {bindings : Table String Term} {t : Term} (h : v.firstMatch cases = some (bindings, t)) :
    ∃ p, (p, t) ∈ cases ∧ p.matchInto .empty v = (true, bindings) := by
  induction cases with
  | nil => cases h
  | cons e cases ih =>
    obtain ⟨p, t'⟩ := e
    rw [Term.firstMatch, Pattern.match?] at h
    rcases hmatch : p.matchInto .empty v with ⟨_ | _, bindings'⟩
    · rw [hmatch] at h
      obtain ⟨q, hq, hmatch'⟩ := ih h
      exact ⟨q, List.mem_cons_of_mem _ hq, hmatch'⟩
    · rw [hmatch] at h
      cases h
      exact ⟨p, List.mem_cons_self, hmatch⟩

/-- The body of the case that is taken, with the bindings put in, has the type of the match. -/
theorem HasType.firstMatch {c : Context} {v t : Term} {cases : List (Pattern × Term)} {σ τ : Ty}
    {bindings : Table String Term} (h : v.firstMatch cases = some (bindings, t))
    (hv : HasType c v σ) (hcases : CasesTyped c σ τ cases) (supply : Supply) :
    HasType c (t.substMany bindings supply).1 τ := by
  obtain ⟨p, hp, hmatch⟩ := mem_of_firstMatch h
  obtain ⟨Δ, hpattern, hnodup, ht⟩ := casesTyped_iff.1 hcases _ hp
  obtain ⟨htyped, hothers⟩ := matchInto_typed c p _ _ _ _ _ hmatch hpattern hnodup hv
  refine ht.substMany (htyped.interprets (fun x hx => ?_) _) supply
  have hx : x ∉ p.vars := hpattern.names_eq ▸ hx
  rw [hothers x hx, Table.get?_empty]

/-- A value put in for a binder. -/
theorem HasType.subst {c : Context} {x : String} {t v : Term} {σ τ : Ty}
    (ht : HasType (c.extend x (.mono σ)) t τ) (hv : HasType c v σ) (supply : Supply) :
    HasType c (t.subst x v supply).1 τ := by
  have hget : ∀ y, (Table.ofList [(x, v)]).get? y = if y = x then some v else none := fun y => by
    rw [Table.ofList, Table.insertAll, List.foldl_cons, List.foldl_nil, Table.get?_insert,
      Table.get?_empty]
  have htyped : BindingsTyped c [(x, .mono σ)] (Table.ofList [(x, v)]) := by
    intro y s hmem
    cases List.mem_singleton.1 hmem
    refine ⟨v, by rw [hget, if_pos rfl], fun g => ?_⟩
    rwa [Scheme.mono, Ty.inst_nil]
  refine HasType.substMany ht (htyped.interprets (fun y hy => ?_) _) supply
  rw [hget, if_neg (by simpa using hy)]

/-! ### Observations -/

/-- The types of literal and constructor patterns. -/
def Ty.Matchable (τ : Ty) : Prop :=
  (∃ l, τ = .ofLiteral l) ∨ ∃ name params, τ = .adt name params

/-- What is observed has the types that it is observed at. -/
def Observation.Typed (c : Context) : Observation → Prop
  | .matched v => ∃ τ, HasType c v τ
  | .tested _ v => v.Evaluated ∧ ∃ τ : Ty, τ.Matchable ∧ HasType c v τ
  | .operated op a b => ∃ σ τ, op.Typed σ τ ∧ HasType c a σ ∧ HasType c b σ
  | .unfolded v => ∃ τ, HasType c v τ

theorem testsAll_typed {c : Context} {ps : List Pattern}
    (ih : ∀ p ∈ ps, ∀ (v : Term) (σ : Ty) (Δ : List (String × Scheme)),
      PatternTyped c.registry p σ Δ → HasType c v σ →
        ∀ e ∈ p.tests v, ∃ τ : Ty, τ.Matchable ∧ HasType c e.2 τ)
    {args : List Term} {σs : List Ty} {Δ : List (String × Scheme)}
    (hps : PatternsTyped c.registry ps σs Δ) (hargs : List.Forall₂ (HasType c) args σs) :
    ∀ e ∈ Pattern.testsAll ps args, ∃ τ : Ty, τ.Matchable ∧ HasType c e.2 τ := by
  induction ps generalizing args σs Δ with
  | nil => exact List.forall_mem_nil _
  | cons p ps ihs =>
    rw [List.forall_mem_cons] at ih
    obtain ⟨σ, σs, Δ₁, Δ₂, hp, htail, rfl, rfl⟩ := patternsTyped_cons_iff.1 hps
    cases hargs with
    | cons ha hargs =>
      rw [Pattern.testsAll, List.forall_mem_append]
      refine ⟨ih.1 _ _ _ hp ha, ?_⟩
      split
      · exact ihs ih.2 htail hargs
      · exact List.forall_mem_nil _

/-- A pattern is tested against values of its type, its sub-patterns against values of theirs. -/
theorem tests_typed {c : Context} {p : Pattern} {v : Term} {σ : Ty} {Δ : List (String × Scheme)}
    (hp : PatternTyped c.registry p σ Δ) (hv : HasType c v σ) :
    ∀ e ∈ p.tests v, ∃ τ : Ty, τ.Matchable ∧ HasType c e.2 τ := by
  induction p using Pattern.induct generalizing v σ Δ with
  | var x => exact List.forall_mem_nil _
  | lit l =>
    rw [Pattern.tests, List.forall_mem_singleton]
    exact ⟨σ, .inl ⟨l, (patternTyped_lit_iff.1 hp).1⟩, hv⟩
  | ctor name subs ih =>
    obtain ⟨d, s, g, -, -, hσ⟩ := patternTyped_ctor_iff.1 hp
    rw [Pattern.tests, List.forall_mem_cons]
    refine ⟨⟨σ, .inr ⟨_, _, hσ⟩, hv⟩, ?_⟩
    split
    · rename_i hspine
      rw [← v.apply_spine, hspine.1] at hv
      obtain ⟨σs, hsubs, hargs⟩ := args_typed hv hspine.2 hp
      exact testsAll_typed (fun q hq _ _ _ hq' hv => ih q hq hq' hv) hsubs hargs
    · exact List.forall_mem_nil _

theorem testsOfCases_typed {c : Context} {v : Term} {σ τ : Ty} {cases : List (Pattern × Term)}
    (hevaluated : v.Evaluated) (hv : HasType c v σ) (hcases : CasesTyped c σ τ cases) :
    ∀ e ∈ v.testsOfCases cases, (Observation.tested e.1 e.2).Typed c := by
  induction cases with
  | nil => exact List.forall_mem_nil _
  | cons e cases ih =>
    obtain ⟨Δ, hp, -, -, hcases⟩ := casesTyped_cons_iff.1 hcases
    rw [Term.testsOfCases, List.forall_mem_append]
    refine ⟨fun e he => ⟨?_, tests_typed hp hv e he⟩, ?_⟩
    · exact Pattern.forall_of_tests (fun _ => Term.Evaluated.of_mem_spine) hevaluated e he
    · split
      · exact List.forall_mem_nil _
      · exact ih hcases

/-! ### Evaluation -/

/-- The literal that an operator computes has the type of the result. -/
theorem BinaryOp.Typed.of_compute {op : BinaryOp} {σ τ : Ty} (hop : op.Typed σ τ) {a b l : Literal}
    (h : op.compute a b = .ok (some l)) : τ = .ofLiteral l := by
  have hexact : ∀ {r : Int}, (exact r).map (some ∘ .int) = .ok (some l) → Ty.int = .ofLiteral l := by
    intro r hr
    rcases hexact : exact r with e | c
    · rw [hexact] at hr
      cases hr
    · rw [hexact] at hr
      cases hr
      rfl
  cases op with
  | add | sub | mul =>
    obtain ⟨-, rfl⟩ := hop
    cases a <;> cases b <;> first | exact hexact h | cases h
  | div =>
    obtain ⟨-, rfl⟩ := hop
    cases a <;> cases b <;> try cases h
    rw [compute] at h
    split at h
    · cases h
    · exact hexact h
  | and | or =>
    obtain ⟨-, rfl⟩ := hop
    cases a <;> cases b <;> cases h
    rfl
  | eq =>
    obtain rfl := hop
    cases a <;> cases b <;> cases h
  | le =>
    obtain rfl := hop
    cases a <;> cases b <;> cases h <;> rfl

theorem BinaryOp.Typed.of_onTerms {op : BinaryOp} {σ τ : Ty} (hop : op.Typed σ τ) {a b : Term}
    {l : Literal} (h : op.onTerms a b = .ok (some l)) : τ = .ofLiteral l := by
  by_cases heq : op = .eq
  · subst heq
    obtain ⟨-, -, rfl⟩ := onTerms_eq_some_iff.1 h
    exact hop
  · obtain ⟨m, n, -, -, hcompute⟩ := (onTerms_compute_iff heq).1 h
    exact hop.of_compute hcompute

/-- Every rule of the evaluator keeps types, and looks only at values of their types. -/
theorem HasType.evaluates {c : Context} {t v : Term} {τ : Ty} {seen : List Observation}
    (hrun : Evaluates .empty t v seen) (h : HasType c t τ) :
    HasType c v τ ∧ ∀ o ∈ seen, o.Typed c := by
  induction hrun generalizing τ with
  | var hx _ _ => cases hx
  | lit l => exact ⟨h, nofun⟩
  | abs x t => exact ⟨h, nofun⟩
  | ctor name => exact ⟨h, nofun⟩
  | beta s _ _ _ ihf iha iht =>
    obtain ⟨_, hf, σ, ha, rfl⟩ := hasType_app_iff.1 h
    obtain ⟨hf, hseen₁⟩ := ihf hf
    obtain ⟨ha, hseen₂⟩ := iha ha
    obtain ⟨σ', ρ, hbody, hfunc⟩ := hasType_abs_iff.1 hf
    cases hfunc
    obtain ⟨hv, hseen₃⟩ := iht (hbody.subst ha s)
    simp only [List.forall_mem_append]
    exact ⟨hv, hseen₁, hseen₂, hseen₃⟩
  | app _ _ _ ihf iha =>
    obtain ⟨_, hf, σ, ha, rfl⟩ := hasType_app_iff.1 h
    obtain ⟨hf, hseen₁⟩ := ihf hf
    obtain ⟨ha, hseen₂⟩ := iha ha
    simp only [List.append_nil, List.forall_mem_append]
    exact ⟨.app hf ha, hseen₁, hseen₂⟩
  | fix s _ ih =>
    obtain ⟨hv, hseen⟩ := ih ((hasType_fix_iff.1 h).subst h s)
    rw [List.forall_mem_append, List.forall_mem_singleton]
    exact ⟨hv, hseen, τ, hv⟩
  | computed _ _ honTerms iha ihb =>
    obtain ⟨σ, ha, hb, hop⟩ := hasType_binary_iff.1 h
    obtain ⟨ha, hseen₁⟩ := iha ha
    obtain ⟨hb, hseen₂⟩ := ihb hb
    simp only [List.forall_mem_append, List.forall_mem_singleton]
    exact ⟨hop.of_onTerms honTerms ▸ .lit _, hseen₁, hseen₂, σ, τ, hop, ha, hb⟩
  | binary _ _ _ iha ihb =>
    obtain ⟨σ, ha, hb, hop⟩ := hasType_binary_iff.1 h
    obtain ⟨ha, hseen₁⟩ := iha ha
    obtain ⟨hb, hseen₂⟩ := ihb hb
    simp only [List.forall_mem_append, List.forall_mem_singleton]
    exact ⟨.binary ha hb hop, hseen₁, hseen₂, σ, τ, hop, ha, hb⟩
  | negated _ ih =>
    obtain ⟨ha, rfl⟩ := hasType_not_iff.1 h
    exact ⟨.lit (.bool _), (ih ha).2⟩
  | not _ _ ih =>
    obtain ⟨ha, rfl⟩ := hasType_not_iff.1 h
    exact ⟨.not (ih ha).1, (ih ha).2⟩
  | @branch _ b e _ _ _ choice _ _ iha ihb =>
    obtain ⟨ha, hb, he⟩ := hasType_cond_iff.1 h
    have hbranch : HasType c (if choice then b else e) τ := by
      cases choice
      · exact he
      · exact hb
    obtain ⟨hv, hseen₂⟩ := ihb hbranch
    rw [List.forall_mem_append]
    exact ⟨hv, (iha ha).2, hseen₂⟩
  | cond _ _ ih =>
    obtain ⟨ha, hb, he⟩ := hasType_cond_iff.1 h
    obtain ⟨ha, hseen⟩ := ih ha
    rw [List.append_nil]
    exact ⟨.cond ha hb he, hseen⟩
  | select s hsubject hmatch _ iha iht =>
    obtain ⟨-, σ, ha, hcases, -⟩ := hasType_select_iff.1 h
    obtain ⟨ha, hseen₁⟩ := iha ha
    obtain ⟨hv, hseen₂⟩ := iht (ha.firstMatch hmatch hcases s)
    simp only [List.forall_mem_append, List.forall_mem_cons, List.forall_mem_map]
    exact ⟨hv, hseen₁, ⟨σ, ha⟩, testsOfCases_typed hsubject.evaluated ha hcases, hseen₂⟩

theorem HasType.evaluate {c : Context} {n : Nat} {t v : Term} {τ : Ty} {supply supply' : Supply}
    (h : HasType c t τ) (hrun : t.evaluate .empty n supply = some (.ok v, supply')) :
    HasType c v τ :=
  (h.evaluates (.of_evaluate hrun)).1

/-- **Preservation.**  What a term evaluates to has an inferred type, and the inferred type of
    the term is an instance of it. -/
theorem Term.evaluation_preserves {c : Context} {t v : Term} {τ : Ty} {fuel fuel' : Nat}
    (hinfer : t.infer? fuel c = some (.ok τ)) (heval : t.eval? fuel' .empty = some (.ok v)) :
    ∃ fuel'' τ' ρ, v.infer? fuel'' c = some (.ok τ') ∧ τ.alike (τ'.assign ρ) := by
  obtain ⟨θ, hθ⟩ := principal_of_infer? hinfer
  obtain ⟨⟨_, supply⟩, hrun, rfl⟩ := Option.map_eq_some_iff.1 heval
  have htyped : HasType (c.subst θ) v τ.erase := hθ.typed.evaluate hrun
  obtain ⟨fuel'', τ', hinfer'⟩ := exists_infer?_of_hasType htyped
  obtain ⟨θ', hθ'⟩ := principal_of_infer? hinfer'
  obtain ⟨ρ, hρ, -⟩ := hθ'.general _ _ htyped
  exact ⟨fuel'', τ', ρ, hinfer', by rw [Ty.alike_iff, ← hρ, Ty.erase_erase]⟩

/-- One branch forces integers on the other, so the value of the conditional has a more general
    type than the conditional. -/
theorem evaluation_preserves_branch :
    let id : Term := .abs "x" (.var "x")
    let t : Term := .cond (.lit (.bool true)) id
      (.abs "x" (.binary .add (.var "x") (.lit (.int 1))))
    t.infer? 9 .empty = some (.ok (.func .int .int)) ∧ t.eval? 2 .empty = some (.ok id) ∧
      ∃ fuel τ ρ, id.infer? fuel .empty = some (.ok τ) ∧ (Ty.func .int .int).alike (τ.assign ρ) := by
  intro id t
  have hinfer : t.infer? 9 .empty = some (.ok (.func .int .int)) := rfl
  have heval : t.eval? 2 .empty = some (.ok id) := rfl
  exact ⟨hinfer, heval, Term.evaluation_preserves hinfer heval⟩

end CoreCalculus
