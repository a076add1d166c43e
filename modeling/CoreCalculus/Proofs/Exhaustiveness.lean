/-
  CoreCalculus/Proofs/Exhaustiveness.lean
  =======================================
  **A covered match takes every value of its type.**

  The check of a match compares names of constructors; evaluation compares a value with one
  pattern after another.  The two agree when patterns are flat: then a pattern of the
  constructor at the head of the value takes it as soon as it has as many sub-patterns as
  the value has arguments, and both numbers are those of the signature.  A type of literals
  has no list of constructors, so there a variable has to be among the patterns.

  Flatness is seen in the nameless form of a term, where substitution puts a term in as it
  is; so evaluation keeps it.  Types are kept too, hence every subject that evaluation
  reaches is a typed value: it is blocked, or it looks like its type and some case takes it.
-/
import CoreCalculus.Proofs.Progress
import CoreCalculus.Proofs.TextProperty
import CoreCalculus.Proofs.ValueCode

namespace CoreCalculus

/-! ### Flat matches -/

namespace Shape

def isBind : Shape → Bool
  | .bind => true
  | _ => false

def isLiteral : Shape → Bool
  | .lit _ => true
  | _ => false

/-- A constructor has only variables for its arguments. -/
def isFlat : Shape → Bool
  | .ctor _ subs => subs.all isBind
  | _ => true

/-- All shapes are flat, and if one is a literal, another is a variable. -/
def allFlat (shapes : List Shape) : Bool :=
  shapes.all isFlat && (!shapes.any isLiteral || shapes.any isBind)

end Shape

mutual

/-- The shapes of the patterns of each match are flat, with a variable beside any literal. -/
def Term.isFlat : Term → Bool
  | .var _ => true
  | .lit _ => true
  | .ctor _ => true
  | .app f a => f.isFlat && a.isFlat
  | .abs _ t => t.isFlat
  | .fix _ t => t.isFlat
  | .binary _ a b => a.isFlat && b.isFlat
  | .not a => a.isFlat
  | .cond a b e => a.isFlat && b.isFlat && e.isFlat
  | .select a cases =>
    a.isFlat && Shape.allFlat (cases.map fun c => Shape.ofPattern c.1) && Term.flatBodies cases

def Term.flatBodies : List (Pattern × Term) → Bool
  | [] => true
  | (_, t) :: cases => t.isFlat && Term.flatBodies cases

end

mutual

/-- The same of a nameless term. -/
def Nameless.isFlat : Nameless → Bool
  | .free _ => true
  | .bound _ => true
  | .lit _ => true
  | .ctor _ => true
  | .app f a => f.isFlat && a.isFlat
  | .abs t => t.isFlat
  | .fix t => t.isFlat
  | .binary _ a b => a.isFlat && b.isFlat
  | .not a => a.isFlat
  | .cond a b e => a.isFlat && b.isFlat && e.isFlat
  | .select a cases => a.isFlat && Shape.allFlat (cases.map Prod.fst) && Nameless.flatBodies cases

def Nameless.flatBodies : List (Shape × Nameless) → Bool
  | [] => true
  | (_, t) :: cases => t.isFlat && Nameless.flatBodies cases

end

theorem Term.flatBodies_iff {cases : List (Pattern × Term)} :
    flatBodies cases ↔ ∀ c ∈ cases, c.2.isFlat := by
  induction cases with
  | nil => simp [flatBodies]
  | cons c cases ih => rw [flatBodies, Bool.and_eq_true, ih, List.forall_mem_cons]

theorem Nameless.flatBodies_iff {cases : List (Shape × Nameless)} :
    flatBodies cases ↔ ∀ c ∈ cases, c.2.isFlat := by
  induction cases with
  | nil => simp [flatBodies]
  | cons c cases ih => rw [flatBodies, Bool.and_eq_true, ih, List.forall_mem_cons]

/-- The names of binders do not matter. -/
theorem Term.isFlat_nameless (scope : List String) (t : Term) :
    (t.nameless scope).isFlat = t.isFlat := by
  induction t using Term.induct generalizing scope with
  | var x =>
    rw [nameless, Scope.resolve]
    split <;> rfl
  | select a cases iha ihc =>
    have hshapes : (namelessCases scope cases).map Prod.fst =
        cases.map fun c => Shape.ofPattern c.1 := by
      rw [namelessCases_eq_map, List.map_map]
      rfl
    have hbodies : Nameless.flatBodies (namelessCases scope cases) = flatBodies cases := by
      rw [Bool.eq_iff_iff, Nameless.flatBodies_iff, flatBodies_iff, namelessCases_eq_map,
        List.forall_mem_map]
      exact forall₂_congr fun c hc => by rw [ihc c hc]
    rw [nameless, Nameless.isFlat, isFlat, iha, hshapes, hbodies]
  | _ => simp_all [nameless, Nameless.isFlat, isFlat]

theorem Nameless.isFlat_subst {r : String → Option Nameless}
    (hr : ∀ x m, r x = some m → m.isFlat) {n : Nameless} (hn : n.isFlat) :
    (n.subst r).isFlat := by
  induction n using Nameless.induct with
  | free x =>
    rw [subst]
    rcases hx : r x with _ | m
    · rfl
    · exact hr x m hx
  | select a cases iha ihc =>
    simp only [isFlat, Bool.and_eq_true, flatBodies_iff] at hn
    simp only [subst, isFlat, substCases_eq_map, List.map_map, Bool.and_eq_true, flatBodies_iff,
      List.forall_mem_map]
    exact ⟨⟨iha hn.1.1, hn.1.2⟩, fun c hc => ihc c hc (hn.2 c hc)⟩
  | _ => simp_all [subst, isFlat]

namespace Term

theorem isFlat_substMany {r : Replacements} (hr : ∀ x v, r.get? x = some v → v.isFlat) {t : Term}
    (ht : t.isFlat) (s : Supply) : (t.substMany r s).1.isFlat := by
  rw [← isFlat_nameless [], nameless_substMany]
  refine Nameless.isFlat_subst (fun x m hx => ?_) (by rwa [isFlat_nameless])
  obtain ⟨v, hv, rfl⟩ := Option.map_eq_some_iff.1 hx
  rw [isFlat_nameless]
  exact hr x v hv

theorem isFlat_select_iff {a : Term} {cases : List (Pattern × Term)} :
    (select a cases).isFlat ↔ a.isFlat ∧
      Shape.allFlat ((cases.map Prod.fst).map Shape.ofPattern) ∧ ∀ c ∈ cases, c.2.isFlat := by
  rw [isFlat, Bool.and_eq_true, Bool.and_eq_true, flatBodies_iff, and_assoc, List.map_map]
  rfl

theorem textual_isFlat : Textual fun t => t.isFlat where
  lit _ := rfl
  app := by simp [isFlat]
  abs h := h
  fix h := h
  binary := by simp [isFlat]
  not := Iff.rfl
  cond := by simp [isFlat, and_assoc]
  select h := by
    obtain ⟨ha, -, hcases⟩ := isFlat_select_iff.1 h
    exact ⟨ha, hcases⟩
  substMany s hr ht := isFlat_substMany hr ht s

end Term

/-! ### Some case takes a value of its type -/

namespace Pattern

theorem isBind_ofPattern (p : Pattern) : (Shape.ofPattern p).isBind = p.isCatchAll := by
  cases p <;> rfl

theorem captureAll?_isSome {ps : List Pattern} (h : ∀ p ∈ ps, p.isCatchAll) (args : List Term) :
    (captureAll? ps args).isSome := by
  induction ps generalizing args with
  | nil => rfl
  | cons p ps ih =>
    rw [List.forall_mem_cons] at h
    obtain ⟨hp, hps⟩ := h
    cases args with
    | nil => rfl
    | cons a args =>
      cases p with
      | var x =>
        obtain ⟨rest, hrest⟩ := Option.isSome_iff_exists.1 (ih hps args)
        rw [captureAll?, capture?, hrest]
        rfl
      | lit l => cases hp
      | ctor name subs => cases hp

/-- A constructor over variables takes that constructor with as many arguments. -/
theorem capture?_ctor_isSome (name : String) {subs : List Pattern} (h : ∀ p ∈ subs, p.isCatchAll)
    {args : List Term} (hlength : args.length = subs.length) :
    ((Pattern.ctor name subs).capture? ((Term.ctor name).apply args)).isSome := by
  have hspine : ((Term.ctor name).apply args).spine = (.ctor name, args) := by
    rw [Term.spine_apply]
    rfl
  rw [capture?, hspine, if_pos ⟨rfl, hlength⟩]
  exact captureAll?_isSome h args

/-- In a flat match without a variable every pattern is a constructor over variables. -/
theorem exists_eq_ctor_of_allFlat {ps : List Pattern}
    (hflat : Shape.allFlat (ps.map Shape.ofPattern)) (hvar : ∀ x, .var x ∉ ps) :
    ∀ p ∈ ps, ∃ name subs, p = .ctor name subs ∧ ∀ q ∈ subs, q.isCatchAll := by
  simp only [Shape.allFlat, Bool.and_eq_true, Bool.or_eq_true, Bool.not_eq_true', List.all_map,
    List.any_map, List.all_eq_true, List.any_eq_true, List.any_eq_false, Function.comp_apply,
    isBind_ofPattern] at hflat
  obtain ⟨hflat, hlit⟩ := hflat
  intro p hp
  cases p with
  | var x => exact absurd hp (hvar x)
  | lit l =>
    rcases hlit with hlit | ⟨q, hq, hcatch⟩
    · exact absurd rfl (hlit _ hp)
    · cases q with
      | var x => exact absurd hq (hvar x)
      | lit l => cases hcatch
      | ctor name subs => cases hcatch
  | ctor name subs =>
    have hsubs := hflat _ hp
    rw [Shape.ofPattern, Shape.isFlat, Shape.ofPatterns_eq_map, List.all_map, List.all_eq_true]
      at hsubs
    exact ⟨name, subs, rfl, fun q hq => isBind_ofPattern q ▸ hsubs q hq⟩

end Pattern

theorem Term.firstMatch_eq_none_iff {v : Term} {cases : List (Pattern × Term)} :
    v.firstMatch cases = none ↔ ∀ p ∈ cases.map Prod.fst, p.capture? v = none := by
  induction cases with
  | nil => simp [firstMatch]
  | cons e cases ih =>
    obtain ⟨p, t⟩ := e
    rw [firstMatch, Pattern.match?_eq, List.map_cons, List.forall_mem_cons, ← ih]
    rcases p.capture? v with _ | vs <;> simp

section

variable {c : Context} {θ : Assignment}

/-- The type that a constructor pattern takes names the current declaration of the constructor,
    and the signature there has a type for each sub-pattern. -/
theorem CasesTyped.declared (hc : c.Built) {σ τ : Ty} {cases : List (Pattern × Term)}
    (hcases : CasesTyped (c.subst θ) σ τ cases) {name : String} {subs : List Pattern}
    (hmem : .ctor name subs ∈ cases.map Prod.fst) :
    ∃ d s params, σ = .adt d.name params ∧ c.registry.types.get? d.name = some d ∧
      d.find? name = some s ∧ subs.length = s.args.length := by
  obtain ⟨⟨_, t⟩, he, rfl⟩ := List.mem_map.1 hmem
  obtain ⟨Δ, hp, -, -⟩ := casesTyped_iff.1 hcases _ he
  obtain ⟨d, s, hname, g, hsubs, rfl⟩ := patternTyped_subst_ctor_iff.1 hp
  obtain ⟨htype, hfind⟩ := hc.declared hname
  refine ⟨d, s, _, Ty.assign_adt _ _ _, htype, hfind, ?_⟩
  rw [hsubs.length_eq, List.length_map]

/-- Typed cases that cover a type take every value that looks like it. -/
theorem HasShape.firstMatch_ne_none (hc : c.Built) {σ τ : Ty} {v : Term}
    {cases : List (Pattern × Term)} (hne : cases ≠ []) (hcases : CasesTyped (c.subst θ) σ τ cases)
    (hcovers : c.registry.Covers σ (cases.map Prod.fst))
    (hflat : Shape.allFlat ((cases.map Prod.fst).map Shape.ofPattern))
    (hv : HasShape c.registry σ v) : v.firstMatch cases ≠ none := by
  rw [ne_eq, Term.firstMatch_eq_none_iff]
  intro hnone
  have hvar : ∀ x, .var x ∉ cases.map Prod.fst := by
    intro x hmem
    cases hnone _ hmem
  have hctors := Pattern.exists_eq_ctor_of_allFlat hflat hvar
  -- there is a case; its constructor makes the type that of a declaration
  obtain ⟨p, hp⟩ := List.exists_mem_of_ne_nil (cases.map Prod.fst) (by simpa using hne)
  obtain ⟨name, subs, rfl, -⟩ := hctors p hp
  obtain ⟨d, s, params, rfl, htype, -, -⟩ := hcases.declared hc hp
  cases hv with
  | @ctor _ _ name d' s args htype' hfind hlength =>
    obtain rfl : d = d' := Option.some.inj (htype.symm.trans htype')
    -- the constructor at the head of the value is covered, by a pattern of as many variables
    have hall := hcovers.resolve_left (fun ⟨x, hmem⟩ => hvar x hmem) d htype
    obtain ⟨subs, hmem⟩ := hall name (List.mem_map.2
      ⟨s, List.mem_of_find?_eq_some hfind, by simpa using List.find?_some hfind⟩)
    obtain ⟨_, _, hq, hsubs⟩ := hctors _ hmem
    cases hq
    obtain ⟨e, s', _, hσ, htype', hfind', hlength'⟩ := hcases.declared hc hmem
    obtain ⟨hname, -⟩ := Ty.adt.inj hσ
    rw [← hname] at htype'
    obtain rfl : d = e := Option.some.inj (htype.symm.trans htype')
    obtain rfl : s = s' := Option.some.inj (hfind.symm.trans hfind')
    have hsome := Pattern.capture?_ctor_isSome name hsubs (hlength.trans hlength'.symm)
    rw [hnone _ hmem] at hsome
    cases hsome

end

/-! ### Evaluation -/

/-- The evaluation of a typed term evaluates only typed terms. -/
theorem Demands.hasType {c : Context} {t u : Term} (h : Demands .empty t u)
    (ht : ∃ τ, HasType c t τ) : ∃ τ, HasType c u τ := by
  obtain ⟨τ, ht⟩ := ht
  cases h with
  | var hx => cases hx
  | func f a =>
    obtain ⟨φ, hf, -⟩ := hasType_app_iff.1 ht
    exact ⟨φ, hf⟩
  | arg _ =>
    obtain ⟨_, -, σ, ha, -⟩ := hasType_app_iff.1 ht
    exact ⟨σ, ha⟩
  | beta s hf ha =>
    obtain ⟨_, htf, σ, hta, rfl⟩ := hasType_app_iff.1 ht
    obtain ⟨_, _, hbody, hfunc⟩ := hasType_abs_iff.1 (htf.evaluates hf).1
    cases hfunc
    exact ⟨τ, hbody.subst (hta.evaluates ha).1 s⟩
  | fix x t s => exact ⟨τ, (hasType_fix_iff.1 ht).subst ht s⟩
  | left op a b =>
    obtain ⟨σ, ha, -, -⟩ := hasType_binary_iff.1 ht
    exact ⟨σ, ha⟩
  | right _ =>
    obtain ⟨σ, -, hb, -⟩ := hasType_binary_iff.1 ht
    exact ⟨σ, hb⟩
  | not a => exact ⟨.bool, (hasType_not_iff.1 ht).1⟩
  | test a b e => exact ⟨.bool, (hasType_cond_iff.1 ht).1⟩
  | branch choice _ =>
    obtain ⟨-, hb, he⟩ := hasType_cond_iff.1 ht
    cases choice with
    | true => exact ⟨τ, hb⟩
    | false => exact ⟨τ, he⟩
  | subject a cases =>
    obtain ⟨-, σ, ha, -, -⟩ := hasType_select_iff.1 ht
    exact ⟨σ, ha⟩
  | body s ha hmatch =>
    obtain ⟨-, σ, hta, hcases, -⟩ := hasType_select_iff.1 ht
    exact ⟨τ, (hta.evaluates ha).1.firstMatch hmatch hcases s⟩

theorem Blocked.spine_ne_ctor {v : Term} (h : Blocked v) (name : String) :
    v.spine.1 ≠ .ctor name := by
  induction h with
  | app _ _ ih => exact ih
  | _ => exact nofun

/-- A subject that no case takes is the value of the subject of a match, flat and typed as the
    term is. -/
theorem exists_select_of_noMatchingCase {c : Context} {t v : Term} {τ : Ty} {fuel : Nat}
    {s s' : Supply} (htyped : HasType c t τ) (hflat : t.isFlat)
    (h : t.evaluate .empty fuel s = some (.error (.noMatchingCase v), s')) :
    ∃ a cases seen ρ, Evaluates .empty a v seen ∧ v.firstMatch cases = none ∧
      HasType c (.select a cases) ρ ∧ (Term.select a cases).isFlat := by
  obtain ⟨u, hreached, hfails⟩ := exists_failsAt h
  obtain ⟨ρ, htyped⟩ : ∃ ρ, HasType c u ρ :=
    Demands.reaches (fun _ _ hstep => hstep.hasType) hreached ⟨τ, htyped⟩
  have hflat : u.isFlat :=
    Demands.reaches (fun _ _ hstep => Term.textual_isFlat.demands (by simp) hstep) hreached hflat
  generalize he : EvalError.noMatchingCase v = e at hfails
  cases hfails with
  | unbound _ => cases he
  | fault _ _ hfault =>
    obtain ⟨fault, rfl⟩ := BinaryOp.exists_fault_of_onTerms hfault
    cases fault <;> cases he
  | @unmatched a a' cases seen heval hmatch =>
    cases he
    exact ⟨a, cases, seen, ρ, heval, hmatch, htyped, hflat⟩

/-- **Exhaustiveness.**  When no case takes the subject of a match in a typed term whose matches
    are flat, the subject waits for a comparison.  It is no literal, no abstraction, and no
    constructor with arguments. -/
theorem Term.unmatched_blocked {c : Context} (hc : c.Built) {t v : Term} {τ : Ty}
    {fuel fuel' : Nat} {s s' : Supply} (hinfer : t.infer? fuel c = some (.ok τ))
    (hflat : t.isFlat) (h : t.evaluate .empty fuel' s = some (.error (.noMatchingCase v), s')) :
    Blocked v ∧ (∀ l, v ≠ .lit l) ∧ (∀ x b, v ≠ .abs x b) ∧
      ∀ name args, v ≠ (Term.ctor name).apply args := by
  obtain ⟨θ, hθ⟩ := principal_of_infer? hinfer
  obtain ⟨a, cases, seen, ρ, heval, hmatch, htyped, hflat⟩ :=
    exists_select_of_noMatchingCase hθ.typed hflat h
  obtain ⟨hne, σ, ha, hcases, hcovers⟩ := hasType_select_iff.1 htyped
  have hblocked : Blocked v := by
    refine (HasType.blocked_or_hasShape hc heval.evaluated (ha.evaluates heval).1).resolve_right ?_
    intro hshape
    exact hshape.firstMatch_ne_none hc hne hcases (Registry.covers_subst_iff.1 hcovers)
      (isFlat_select_iff.1 hflat).2.1 hmatch
  obtain ⟨-, hdata, hlit, habs⟩ := hblocked.evaluated
  refine ⟨hblocked, ?_, habs, ?_⟩
  · rintro l rfl
    cases hlit
  · rintro name args rfl
    exact hblocked.spine_ne_ctor name (by rw [spine_apply]; rfl)

/-- Functions are compared to no result, so neither case takes the list that depends on it. -/
theorem unmatched_blocked_comparison :
    let a : TypeVar := ⟨0, none⟩
    let c := Context.empty.withData
      ⟨"list", [a], [⟨"Nil", []⟩, ⟨"Cons", [.var a, .adt "list" [.var a]]⟩]⟩
    let id : Term := .abs "x" (.var "x")
    let v : Term := .cond (.binary .eq id id) (.ctor "Nil")
      (.app (.app (.ctor "Cons") (.lit (.int 1))) (.ctor "Nil"))
    let cases : List (Pattern × Term) :=
      [(.ctor "Nil" [], .lit (.int 0)), (.ctor "Cons" [.var "h", .var "t"], .var "h")]
    let t : Term := .app (.abs "l" (.select (.var "l") cases)) v
    c.Built ∧ t.infer? 9 c = some (.ok .int) ∧ t.isFlat ∧
      t.evaluate .empty 9 ⟨0⟩ = some (.error (.noMatchingCase v), ⟨0⟩) ∧ Blocked v := by
  intro a c id v cases t
  have hc : c.Built := .withData _ .empty
  have hinfer : t.infer? 9 c = some (.ok .int) := by decide +kernel
  have hflat : t.isFlat := by decide
  have hsubst : (Term.select (.var "l") cases).subst "l" v ⟨0⟩ = (.select v cases, ⟨0⟩) := by
    let r : Replacements := Table.ofList [("l", v)]
    have hget : r.get? "l" = some v := rfl
    have hnil : (r.live [] (.lit (.int 0))).isEmpty = true := rfl
    have hcons : (r.live ["h", "t"] (.var "h")).isEmpty = true := rfl
    simp only [r] at hget hnil hcons
    simp only [cases, Term.subst, Term.substMany, Term.substCases, Pattern.vars, Pattern.varsAll,
      List.cons_append, List.nil_append, hget, hnil, hcons, Option.getD_some, if_true]
  have heval : t.evaluate .empty 9 ⟨0⟩ = some (.error (.noMatchingCase v), ⟨0⟩) := by
    change (Run.update (Term.subst _ "l" v) >>= Term.evaluate .empty 8) ⟨0⟩ = _
    rw [Run.bind_apply, Run.update_apply, hsubst]
    rfl
  exact ⟨hc, hinfer, hflat, heval, (Term.unmatched_blocked hc hinfer hflat heval).1⟩

end CoreCalculus
