/-
  CoreCalculus/Proofs/ExactCoverage.lean
  ======================================
  **The check of a match is exact for flat patterns.**

  The check compares names of constructors and looks at nothing below the top of a pattern.
  Matching looks at the whole value.  Over a declared type they agree as soon as the
  constructor patterns are flat, with as many variables as the constructor has arguments: then a
  pattern of a constructor takes all its applications, and no other pattern but a
  variable takes any of them (`exists_match?_iff`).  So a match passes the check exactly when it
  takes every application of every constructor, and what the check reports as missing are the
  constructors of which it takes none; there is nothing in between.
-/
import CoreCalculus.Proofs.Exhaustiveness

namespace CoreCalculus

/-- The constructor patterns are flat, and those of the data type have as many sub-patterns as the
    constructor has arguments. -/
def DataType.FlatPatterns (d : DataType) (patterns : List Pattern) : Prop :=
  ∀ name subs, .ctor name subs ∈ patterns → (∀ p ∈ subs, p.isCatchAll) ∧
    ∀ s ∈ d.constructors, s.name = name → subs.length = s.args.length

namespace Signature

/-- Whatever the constructor is applied to, as often as its signature says, some pattern takes
    it. -/
def Taken (patterns : List Pattern) (s : Signature) : Prop :=
  ∀ args : List Term, args.length = s.args.length →
    ∃ p ∈ patterns, (p.match? ((Term.ctor s.name).apply args)).isSome

/-- Whatever the constructor is applied to, as often as its signature says, no pattern takes it. -/
def Untaken (patterns : List Pattern) (s : Signature) : Prop :=
  ∀ args : List Term, args.length = s.args.length →
    ∀ p ∈ patterns, p.match? ((Term.ctor s.name).apply args) = none

end Signature

namespace Pattern

theorem isSome_match? (p : Pattern) (v : Term) : (p.match? v).isSome = (p.capture? v).isSome := by
  rw [match?_eq, Option.isSome_map]

/-- A pattern that takes an application of a constructor is a variable or of that constructor. -/
theorem eq_of_isSome_match? {p : Pattern} {name : String} {args : List Term}
    (h : (p.match? ((Term.ctor name).apply args)).isSome) :
    (∃ x, p = .var x) ∨ ∃ subs, p = .ctor name subs := by
  rw [isSome_match?] at h
  cases p with
  | var x => exact .inl ⟨x, rfl⟩
  | lit l =>
    rw [capture?, Term.literal?_apply_ctor, if_neg (Option.some_ne_none l).symm] at h
    cases h
  | ctor name' subs =>
    rw [capture?, (Term.IsConstant.ctor name).spine_apply] at h
    split at h
    · rename_i hspine
      cases hspine.1
      exact .inr ⟨subs, rfl⟩
    · cases h

/-- Without a variable among the patterns, the flat ones of a constructor take all its
    applications, and no others take any. -/
theorem exists_match?_iff {d : DataType} {patterns : List Pattern} (hflat : d.FlatPatterns patterns)
    (hvar : ∀ x, .var x ∉ patterns) {s : Signature} (hs : s ∈ d.constructors) {args : List Term}
    (hargs : args.length = s.args.length) :
    (∃ p ∈ patterns, (p.match? ((Term.ctor s.name).apply args)).isSome) ↔
      ∃ subs, .ctor s.name subs ∈ patterns := by
  constructor
  · rintro ⟨p, hp, htakes⟩
    rcases eq_of_isSome_match? htakes with ⟨x, rfl⟩ | ⟨subs, rfl⟩
    · exact absurd hp (hvar x)
    · exact ⟨subs, hp⟩
  · rintro ⟨subs, hp⟩
    obtain ⟨hsubs, hlength⟩ := hflat s.name subs hp
    refine ⟨_, hp, ?_⟩
    rw [isSome_match?]
    exact capture?_ctor_isSome s.name hsubs (hargs.trans (hlength s hs rfl).symm)

end Pattern

namespace Signature

variable {d : DataType} {patterns : List Pattern} {s : Signature}

theorem exists_arguments (s : Signature) : ∃ args : List Term, args.length = s.args.length :=
  ⟨List.replicate s.args.length (.ctor ""), List.length_replicate⟩

theorem taken_iff (hflat : d.FlatPatterns patterns) (hvar : ∀ x, .var x ∉ patterns)
    (hs : s ∈ d.constructors) : s.Taken patterns ↔ ∃ subs, .ctor s.name subs ∈ patterns := by
  constructor
  · intro h
    obtain ⟨args, hargs⟩ := s.exists_arguments
    exact (Pattern.exists_match?_iff hflat hvar hs hargs).1 (h args hargs)
  · exact fun h args hargs => (Pattern.exists_match?_iff hflat hvar hs hargs).2 h

/-- A constructor is taken or untaken, according to whether it has a pattern. -/
theorem untaken_iff (hflat : d.FlatPatterns patterns) (hvar : ∀ x, .var x ∉ patterns)
    (hs : s ∈ d.constructors) : s.Untaken patterns ↔ ¬ ∃ subs, .ctor s.name subs ∈ patterns := by
  rw [← taken_iff hflat hvar hs]
  constructor
  · intro huntaken htaken
    obtain ⟨args, hargs⟩ := s.exists_arguments
    obtain ⟨p, hp, htakes⟩ := htaken args hargs
    rw [huntaken args hargs p hp] at htakes
    cases htakes
  · intro htaken args hargs p hp
    rw [← Option.not_isSome_iff_eq_none]
    intro htakes
    refine htaken ((taken_iff hflat hvar hs).2 ?_)
    exact (Pattern.exists_match?_iff hflat hvar hs hargs).1 ⟨p, hp, htakes⟩

end Signature

open Classical in
/-- **The check of a match is exact.**  Let the outermost name of the subject's type be that of a
    data type, and let the constructor patterns be flat.  The check passes exactly when the cases
    take every application of every constructor, to as many arguments as its signature has.  When it
    fails, it lists, in the order of declaration, the constructors of which the cases take no
    application. -/
theorem Registry.coverage_exact (r : Registry) {t : Ty} {typeName : String} {d : DataType}
    (hhead : t.headName? = some typeName) (hdeclared : r.types.get? typeName = some d)
    {cases : List (Pattern × Term)} (hflat : d.FlatPatterns (cases.map Prod.fst)) :
    (r.checkCoverage t (cases.map Prod.fst) = .ok () ↔
      ∀ s ∈ d.constructors, s.Taken (cases.map Prod.fst)) ∧
    ∀ e, r.checkCoverage t (cases.map Prod.fst) = .error e →
      e = .nonExhaustive d.name
        ((d.constructors.filter (Signature.Untaken (cases.map Prod.fst))).map Signature.name) := by
  generalize cases.map Prod.fst = patterns at hflat ⊢
  have hd : t.headName?.bind r.types.get? = some d := by rw [hhead, Option.bind_some, hdeclared]
  constructor
  · rw [checkCoverage_eq_ok_iff, Covers, hd]
    by_cases hvar : ∃ x, .var x ∈ patterns
    · obtain ⟨x, hx⟩ := hvar
      exact iff_of_true (.inl ⟨x, hx⟩) fun s _ args _ => ⟨.var x, hx, rfl⟩
    · rw [or_iff_right hvar]
      rw [not_exists] at hvar
      simp only [Option.some.injEq, forall_eq', DataType.constructorNames, List.forall_mem_map]
      exact forall₂_congr fun s hs => (Signature.taken_iff hflat hvar hs).symm
  · intro e he
    obtain ⟨hvar, d', hd', rfl⟩ := eq_nonExhaustive_of_checkCoverage he
    obtain rfl := Option.some.inj (hd.symm.trans hd')
    rw [missing, DataType.constructorNames, List.filter_map]
    congr 2
    refine List.filter_congr fun s hs => ?_
    rw [Function.comp_apply, decide_eq_decide, Pattern.mem_topConstructors_iff,
      Signature.untaken_iff hflat hvar hs]

open Classical in
/-- The literal and the pattern of a foreign constructor take no list, and `Cons` has no pattern. -/
theorem coverage_exact_list :
    let a : TypeVar := ⟨0, none⟩
    let d : DataType := ⟨"list", [a], [⟨"Nil", []⟩, ⟨"Cons", [.var a, .adt "list" [.var a]]⟩]⟩
    let r := Registry.empty.register d
    let cases : List (Pattern × Term) := [(.lit (.int 3), .lit (.int 0)),
      (.ctor "Leaf" [.var "x"], .var "x"), (.ctor "Nil" [], .lit (.int 1))]
    let patterns := cases.map Prod.fst
    let t : Ty := .app (.const "list") .int
    t.headName? = some "list" ∧ r.types.get? "list" = some d ∧ d.FlatPatterns patterns ∧
      r.checkCoverage t patterns = .error (.nonExhaustive "list" ["Cons"]) ∧
      ["Cons"] = (d.constructors.filter (Signature.Untaken patterns)).map Signature.name ∧
      ¬ ∀ s ∈ d.constructors, s.Taken patterns := by
  intro a d r cases patterns t
  have hhead : t.headName? = some "list" := rfl
  have hdeclared : r.types.get? "list" = some d := rfl
  have hflat : d.FlatPatterns patterns := by
    intro name subs hmem
    simp only [patterns, cases, List.map_cons, List.map_nil, List.mem_cons, reduceCtorEq,
      Pattern.ctor.injEq, List.not_mem_nil, or_false, false_or] at hmem
    rcases hmem with ⟨rfl, rfl⟩ | ⟨rfl, rfl⟩
    · simp [d, Pattern.isCatchAll]
    · simp [d]
  have hcheck : r.checkCoverage t patterns = .error (.nonExhaustive "list" ["Cons"]) := by decide
  obtain ⟨hok, herror⟩ := r.coverage_exact hhead hdeclared hflat
  refine ⟨hhead, hdeclared, hflat, hcheck, (TypeError.nonExhaustive.inj (herror _ hcheck)).2,
    fun htaken => ?_⟩
  rw [hok.2 htaken] at hcheck
  cases hcheck

end CoreCalculus
