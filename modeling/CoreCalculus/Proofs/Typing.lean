/-
  CoreCalculus/Proofs/Typing.lean
  ===============================
  **The typing rules of the calculus**, apart from how types are found.

  Binders are monomorphic: what `abs`, `fix` and a pattern bind has one type, kept as
  a scheme that quantifies nothing.  The scheme of a name, and the signature of a
  constructor, may be used at any types for their variables.

  The rules follow the syntax, so each has an inversion lemma; a list of patterns or
  of cases is typed member by member.
-/
import CoreCalculus.Typing.Coverage

namespace CoreCalculus

/-! ### Instances -/

namespace Ty

/-- The type with `g` for the listed variables. -/
def inst (vars : List TypeVar) (g : Nat → Ty) (t : Ty) : Ty :=
  t.subst fun v => if v.id ∈ vars.map TypeVar.id then g v.id else .var v

@[simp] theorem inst_nil (g : Nat → Ty) (t : Ty) : t.inst [] g = t := by
  simp [inst, subst_var]

theorem inst_curried (vars : List TypeVar) (g : Nat → Ty) (args : List Ty) (result : Ty) :
    (curried args result).inst vars g = curried (args.map (inst vars g)) (result.inst vars g) := by
  induction args with
  | nil => rfl
  | cons a args ih =>
    have hcons : (curried (a :: args) result).inst vars g =
        .func (a.inst vars g) ((curried args result).inst vars g) := rfl
    rw [hcons, ih]
    rfl

end Ty

/-! ### Patterns -/

mutual

/-- A pattern takes values of a type, and binds its variables to types. -/
inductive PatternTyped (r : Registry) : Pattern → Ty → List (String × Scheme) → Prop
  | var (x : String) (σ : Ty) : PatternTyped r (.var x) σ [(x, .mono σ)]
  | lit (l : Literal) : PatternTyped r (.lit l) (.ofLiteral l) []
  | ctor {name : String} {subs : List Pattern} {d : DataType} {s : Signature} {g : Nat → Ty}
      {Δ : List (String × Scheme)} : r.constructor? name = some (d, s) →
      PatternsTyped r subs (s.args.map (Ty.inst d.params g)) Δ →
      PatternTyped r (.ctor name subs) (d.selfType.inst d.params g) Δ

/-- As many patterns as types, each taking values of its type. -/
inductive PatternsTyped (r : Registry) : List Pattern → List Ty → List (String × Scheme) → Prop
  | nil : PatternsTyped r [] [] []
  | cons {p : Pattern} {ps : List Pattern} {σ : Ty} {σs : List Ty}
      {Δ Δ' : List (String × Scheme)} : PatternTyped r p σ Δ → PatternsTyped r ps σs Δ' →
      PatternsTyped r (p :: ps) (σ :: σs) (Δ ++ Δ')

end

section

variable {r : Registry}

theorem patternTyped_var_iff {x : String} {σ : Ty} {Δ : List (String × Scheme)} :
    PatternTyped r (.var x) σ Δ ↔ Δ = [(x, .mono σ)] := by
  constructor
  · intro h
    cases h
    rfl
  · rintro rfl
    exact .var x σ

theorem patternTyped_lit_iff {l : Literal} {σ : Ty} {Δ : List (String × Scheme)} :
    PatternTyped r (.lit l) σ Δ ↔ σ = .ofLiteral l ∧ Δ = [] := by
  constructor
  · intro h
    cases h
    exact ⟨rfl, rfl⟩
  · rintro ⟨rfl, rfl⟩
    exact .lit l

theorem patternTyped_ctor_iff {name : String} {subs : List Pattern} {σ : Ty}
    {Δ : List (String × Scheme)} :
    PatternTyped r (.ctor name subs) σ Δ ↔ ∃ d s g, r.constructor? name = some (d, s) ∧
      PatternsTyped r subs (s.args.map (Ty.inst d.params g)) Δ ∧
      σ = d.selfType.inst d.params g := by
  constructor
  · intro h
    cases h with
    | ctor hname hsubs => exact ⟨_, _, _, hname, hsubs, rfl⟩
  · rintro ⟨d, s, g, hname, hsubs, rfl⟩
    exact .ctor hname hsubs

theorem patternsTyped_nil_iff {σs : List Ty} {Δ : List (String × Scheme)} :
    PatternsTyped r [] σs Δ ↔ σs = [] ∧ Δ = [] := by
  constructor
  · intro h
    cases h
    exact ⟨rfl, rfl⟩
  · rintro ⟨rfl, rfl⟩
    exact .nil

theorem patternsTyped_cons_iff {p : Pattern} {ps : List Pattern} {σs : List Ty}
    {Δ : List (String × Scheme)} :
    PatternsTyped r (p :: ps) σs Δ ↔ ∃ σ σs' Δ₁ Δ₂, PatternTyped r p σ Δ₁ ∧
      PatternsTyped r ps σs' Δ₂ ∧ σs = σ :: σs' ∧ Δ = Δ₁ ++ Δ₂ := by
  constructor
  · intro h
    cases h with
    | cons hp hps => exact ⟨_, _, _, _, hp, hps, rfl, rfl⟩
  · rintro ⟨σ, σs', Δ₁, Δ₂, hp, hps, rfl, rfl⟩
    exact .cons hp hps

theorem PatternsTyped.length_eq {ps : List Pattern} {σs : List Ty} {Δ : List (String × Scheme)}
    (h : PatternsTyped r ps σs Δ) : ps.length = σs.length := by
  induction ps generalizing σs Δ with
  | nil =>
    obtain ⟨rfl, rfl⟩ := patternsTyped_nil_iff.1 h
    rfl
  | cons p ps ih =>
    obtain ⟨σ, σs, Δ₁, Δ₂, _, hps, rfl, rfl⟩ := patternsTyped_cons_iff.1 h
    rw [List.length_cons, List.length_cons, ih hps]

/-- A pattern binds its variables, from left to right. -/
theorem PatternTyped.names_eq {p : Pattern} {σ : Ty} {Δ : List (String × Scheme)}
    (h : PatternTyped r p σ Δ) : Δ.map Prod.fst = p.vars := by
  induction p using Pattern.induct generalizing σ Δ with
  | var x =>
    obtain rfl := patternTyped_var_iff.1 h
    rfl
  | lit l =>
    obtain ⟨rfl, rfl⟩ := patternTyped_lit_iff.1 h
    rfl
  | ctor name subs ih =>
    obtain ⟨d, s, g, _, hsubs, rfl⟩ := patternTyped_ctor_iff.1 h
    rw [Pattern.vars]
    generalize s.args.map (Ty.inst d.params g) = σs at hsubs
    clear h
    induction subs generalizing σs Δ with
    | nil =>
      obtain ⟨rfl, rfl⟩ := patternsTyped_nil_iff.1 hsubs
      rfl
    | cons p ps ihs =>
      rw [List.forall_mem_cons] at ih
      obtain ⟨σ, σs, Δ₁, Δ₂, hp, hps, rfl, rfl⟩ := patternsTyped_cons_iff.1 hsubs
      rw [List.map_append, Pattern.varsAll, ih.1 hp, ihs ih.2 σs hps]

end

/-! ### Coverage -/

theorem Pattern.any_isCatchAll_iff {patterns : List Pattern} :
    patterns.any isCatchAll = true ↔ ∃ x, .var x ∈ patterns := by
  rw [List.any_eq_true]
  constructor
  · rintro ⟨p, hp, hc⟩
    cases p with
    | var x => exact ⟨x, hp⟩
    | lit l => cases hc
    | ctor name subs => cases hc
  · rintro ⟨x, hx⟩
    exact ⟨_, hx, rfl⟩

theorem Pattern.mem_topConstructors_iff {patterns : List Pattern} {name : String} :
    name ∈ patterns.filterMap topConstructor? ↔ ∃ subs, .ctor name subs ∈ patterns := by
  rw [List.mem_filterMap]
  constructor
  · rintro ⟨p, hp, hc⟩
    cases p with
    | var x => cases hc
    | lit l => cases hc
    | ctor name subs =>
      cases hc
      exact ⟨subs, hp⟩
  · rintro ⟨subs, hp⟩
    exact ⟨_, hp, rfl⟩

/-- Among the patterns is a bare variable, or, if the outermost name of the type is that
    of a data type, a pattern for each of its constructors. -/
def Registry.Covers (r : Registry) (t : Ty) (patterns : List Pattern) : Prop :=
  (∃ x, .var x ∈ patterns) ∨ ∀ d, t.headName?.bind r.types.get? = some d →
    ∀ c ∈ d.constructorNames, ∃ subs, .ctor c subs ∈ patterns

theorem Registry.checkCoverage_eq_ok_iff {r : Registry} {t : Ty} {patterns : List Pattern} :
    r.checkCoverage t patterns = .ok () ↔ r.Covers t patterns := by
  rw [checkCoverage, Covers, ← Pattern.any_isCatchAll_iff]
  split
  · simp_all
  · rename_i hcatch
    rw [or_iff_right hcatch]
    rcases t.headName?.bind r.types.get? with _ | d
    · simp
    · have huncovered : (missing d patterns).isEmpty = true ↔
          ∀ c ∈ d.constructorNames, ∃ subs, .ctor c subs ∈ patterns := by
        simp only [missing, List.isEmpty_iff, List.filter_eq_nil_iff, decide_not,
          Bool.not_eq_true', decide_eq_false_iff_not, Classical.not_not,
          Pattern.mem_topConstructors_iff]
      simp [← huncovered]

/-- A failed check names the data type of the subject and what is missing there. -/
theorem Registry.eq_nonExhaustive_of_checkCoverage {r : Registry} {t : Ty} {patterns : List Pattern}
    {e : TypeError} (h : r.checkCoverage t patterns = .error e) :
    (∀ x, .var x ∉ patterns) ∧ ∃ d, t.headName?.bind r.types.get? = some d ∧
      e = .nonExhaustive d.name (missing d patterns) := by
  unfold checkCoverage at h
  split at h
  · cases h
  · rename_i hcatch
    refine ⟨fun x hx => hcatch (Pattern.any_isCatchAll_iff.2 ⟨x, hx⟩), ?_⟩
    split at h
    · cases h
    · rename_i d hd
      dsimp only at h
      split at h
      · cases h
      · cases h
        exact ⟨d, hd, rfl⟩

/-! ### Terms -/

/-- The type of the operands and the type of the result.  Operands of one type can be
    compared whatever that type is. -/
def BinaryOp.Typed (op : BinaryOp) (operand result : Ty) : Prop :=
  match op with
  | .eq | .le => result = .bool
  | .and | .or => operand = .bool ∧ result = .bool
  | _ => operand = .int ∧ result = .int

mutual

inductive HasType : Context → Term → Ty → Prop
  | var {c : Context} {x : String} {s : Scheme} (g : Nat → Ty) :
      c.bindings.get? x = some s → HasType c (.var x) (s.ty.inst s.vars g)
  | lit {c : Context} (l : Literal) : HasType c (.lit l) (.ofLiteral l)
  | ctor {c : Context} {name : String} {d : DataType} {s : Signature} (g : Nat → Ty) :
      c.registry.constructor? name = some (d, s) →
      HasType c (.ctor name) ((d.constructorScheme s).ty.inst d.params g)
  | app {c : Context} {f a : Term} {σ τ : Ty} :
      HasType c f (.func σ τ) → HasType c a σ → HasType c (.app f a) τ
  | abs {c : Context} {x : String} {t : Term} {σ τ : Ty} :
      HasType (c.extend x (.mono σ)) t τ → HasType c (.abs x t) (.func σ τ)
  | binary {c : Context} {op : BinaryOp} {a b : Term} {σ τ : Ty} :
      HasType c a σ → HasType c b σ → op.Typed σ τ → HasType c (.binary op a b) τ
  | not {c : Context} {a : Term} : HasType c a .bool → HasType c (.not a) .bool
  | cond {c : Context} {a b e : Term} {τ : Ty} :
      HasType c a .bool → HasType c b τ → HasType c e τ → HasType c (.cond a b e) τ
  | fix {c : Context} {x : String} {t : Term} {τ : Ty} :
      HasType (c.extend x (.mono τ)) t τ → HasType c (.fix x t) τ
  | select {c : Context} {s : Term} {cases : List (Pattern × Term)} {σ τ : Ty} :
      cases ≠ [] → HasType c s σ → CasesTyped c σ τ cases →
      c.registry.Covers σ (cases.map Prod.fst) → HasType c (.select s cases) τ

/-- Cases from values of type `σ` to type `τ`.  A pattern binds each variable once. -/
inductive CasesTyped : Context → Ty → Ty → List (Pattern × Term) → Prop
  | nil {c : Context} {σ τ : Ty} : CasesTyped c σ τ []
  | cons {c : Context} {σ τ : Ty} {p : Pattern} {t : Term} {cases : List (Pattern × Term)}
      {Δ : List (String × Scheme)} :
      PatternTyped c.registry p σ Δ → p.vars.Nodup → HasType (c.extendAll Δ) t τ →
      CasesTyped c σ τ cases → CasesTyped c σ τ ((p, t) :: cases)

end

section

variable {c : Context} {τ : Ty}

theorem hasType_var_iff {x : String} : HasType c (.var x) τ ↔
    ∃ s g, c.bindings.get? x = some s ∧ τ = s.ty.inst s.vars g := by
  constructor
  · intro h
    cases h with
    | var g hx => exact ⟨_, g, hx, rfl⟩
  · rintro ⟨s, g, hx, rfl⟩
    exact .var g hx

theorem hasType_lit_iff {l : Literal} : HasType c (.lit l) τ ↔ τ = .ofLiteral l := by
  constructor
  · intro h
    cases h
    rfl
  · rintro rfl
    exact .lit l

theorem hasType_ctor_iff {name : String} : HasType c (.ctor name) τ ↔
    ∃ d s g, c.registry.constructor? name = some (d, s) ∧
      τ = (d.constructorScheme s).ty.inst d.params g := by
  constructor
  · intro h
    cases h with
    | ctor g hname => exact ⟨_, _, g, hname, rfl⟩
  · rintro ⟨d, s, g, hname, rfl⟩
    exact .ctor g hname

theorem hasType_app_iff {f a : Term} : HasType c (.app f a) τ ↔
    ∃ φ, HasType c f φ ∧ ∃ σ, HasType c a σ ∧ φ = .func σ τ := by
  constructor
  · intro h
    cases h with
    | app hf ha => exact ⟨_, hf, _, ha, rfl⟩
  · rintro ⟨φ, hf, σ, ha, rfl⟩
    exact .app hf ha

theorem hasType_abs_iff {x : String} {t : Term} : HasType c (.abs x t) τ ↔
    ∃ σ ρ, HasType (c.extend x (.mono σ)) t ρ ∧ τ = .func σ ρ := by
  constructor
  · intro h
    cases h with
    | abs ht => exact ⟨_, _, ht, rfl⟩
  · rintro ⟨σ, ρ, ht, rfl⟩
    exact .abs ht

theorem hasType_binary_iff {op : BinaryOp} {a b : Term} : HasType c (.binary op a b) τ ↔
    ∃ σ, HasType c a σ ∧ HasType c b σ ∧ op.Typed σ τ := by
  constructor
  · intro h
    cases h with
    | binary ha hb hop => exact ⟨_, ha, hb, hop⟩
  · rintro ⟨σ, ha, hb, hop⟩
    exact .binary ha hb hop

theorem hasType_not_iff {a : Term} : HasType c (.not a) τ ↔ HasType c a .bool ∧ τ = .bool := by
  constructor
  · intro h
    cases h with
    | not ha => exact ⟨ha, rfl⟩
  · rintro ⟨ha, rfl⟩
    exact .not ha

theorem hasType_cond_iff {a b e : Term} : HasType c (.cond a b e) τ ↔
    HasType c a .bool ∧ HasType c b τ ∧ HasType c e τ := by
  constructor
  · intro h
    cases h with
    | cond ha hb he => exact ⟨ha, hb, he⟩
  · rintro ⟨ha, hb, he⟩
    exact .cond ha hb he

theorem hasType_fix_iff {x : String} {t : Term} : HasType c (.fix x t) τ ↔
    HasType (c.extend x (.mono τ)) t τ := by
  constructor
  · intro h
    cases h with
    | fix ht => exact ht
  · exact .fix

theorem hasType_select_iff {s : Term} {cases : List (Pattern × Term)} :
    HasType c (.select s cases) τ ↔ cases ≠ [] ∧ ∃ σ, HasType c s σ ∧ CasesTyped c σ τ cases ∧
      c.registry.Covers σ (cases.map Prod.fst) := by
  constructor
  · intro h
    cases h with
    | select hne hs hcases hcovers => exact ⟨hne, _, hs, hcases, hcovers⟩
  · rintro ⟨hne, σ, hs, hcases, hcovers⟩
    exact .select hne hs hcases hcovers

/-- A case from values of type `σ` to type `τ`. -/
def CaseTyped (c : Context) (σ τ : Ty) (e : Pattern × Term) : Prop :=
  ∃ Δ, PatternTyped c.registry e.1 σ Δ ∧ e.1.vars.Nodup ∧ HasType (c.extendAll Δ) e.2 τ

theorem casesTyped_cons_iff {σ : Ty} {p : Pattern} {t : Term} {cases : List (Pattern × Term)} :
    CasesTyped c σ τ ((p, t) :: cases) ↔ ∃ Δ, PatternTyped c.registry p σ Δ ∧ p.vars.Nodup ∧
      HasType (c.extendAll Δ) t τ ∧ CasesTyped c σ τ cases := by
  constructor
  · intro h
    cases h with
    | cons hp hnodup ht hcases => exact ⟨_, hp, hnodup, ht, hcases⟩
  · rintro ⟨Δ, hp, hnodup, ht, hcases⟩
    exact .cons hp hnodup ht hcases

theorem casesTyped_iff {σ : Ty} {cases : List (Pattern × Term)} :
    CasesTyped c σ τ cases ↔ ∀ e ∈ cases, CaseTyped c σ τ e := by
  induction cases with
  | nil => exact iff_of_true .nil (by simp)
  | cons e cases ih =>
    rw [casesTyped_cons_iff, List.forall_mem_cons, ← ih]
    constructor
    · rintro ⟨Δ, hp, hnodup, ht, hcases⟩
      exact ⟨⟨Δ, hp, hnodup, ht⟩, hcases⟩
    · rintro ⟨⟨Δ, hp, hnodup, ht⟩, hcases⟩
      exact ⟨Δ, hp, hnodup, ht, hcases⟩

/-- A binder is the case of a bare variable. -/
theorem caseTyped_var_iff {σ : Ty} {x : String} {t : Term} :
    CaseTyped c σ τ (.var x, t) ↔ HasType (c.extend x (.mono σ)) t τ := by
  constructor
  · rintro ⟨Δ, hp, -, ht⟩
    obtain rfl := patternTyped_var_iff.1 hp
    exact ht
  · intro ht
    exact ⟨_, .var x σ, by simp [Pattern.vars], ht⟩

end

end CoreCalculus
