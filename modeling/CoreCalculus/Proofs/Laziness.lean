/-
  CoreCalculus/Proofs/Laziness.lean
  =================================
  **Reduction on demand finds what evaluation computes.**

  The reducer comes to an end where the evaluator does, provided that nothing the evaluator
  passes over stops it.  Three things could: a recursion that is not one of functions
  is never unfolded, a literal or constructor pattern needs something to look at, and
  equality normalizes what it compares.  When all that is observed in an evaluation is clear
  of them (`Observation.Clear`), nothing is idle, only functions may be fixed points
  that wait, and code that delays a value gets to its head.

  A value that is stuck need not be looked at, but a match on it reduces it to head normal
  form.  So stuck values have to come to an end as well: their operators force operands, which are
  values again (`Reading.rests_of_stuck`).
-/
import CoreCalculus.Proofs.FunctionRecursion
import CoreCalculus.Proofs.Simulation
import CoreCalculus.Proofs.ValueCode

namespace CoreCalculus

open Code

/-! ### Clear observations -/

/-- A literal, or a constructor with arguments. -/
def Term.IsConstructed (v : Term) : Prop :=
  (∃ l, v = .lit l) ∨ ∃ name args, v = (Term.ctor name).apply args

/-- The value waits for an equality: it is one, or a node whose operand, test or head waits for
    one. -/
inductive Term.AwaitsEquality : Term → Prop
  | equality (a b : Term) : AwaitsEquality (.binary .eq a b)
  | left {a : Term} (op : BinaryOp) (b : Term) : AwaitsEquality a → AwaitsEquality (.binary op a b)
  | right {b : Term} (op : BinaryOp) (a : Term) : AwaitsEquality b → AwaitsEquality (.binary op a b)
  | not {a : Term} : AwaitsEquality a → AwaitsEquality (.not a)
  | cond {a : Term} (b e : Term) : AwaitsEquality a → AwaitsEquality (.cond a b e)
  | app {f : Term} (a : Term) : AwaitsEquality f → AwaitsEquality (.app f a)

/-- Nothing here stops the reducer. -/
def Observation.Clear : Observation → Prop
  | .matched v => ¬ v.AwaitsEquality
  | .tested _ v => v.IsConstructed
  | .operated _ _ _ => True
  | .unfolded v => v.isAbs

/-- If it is an equality, it is one of data. -/
def Observation.ComparesData : Observation → Prop
  | .operated op a b => op = .eq → a.isData ∧ b.isData
  | _ => True

/-- Where only data is compared, no value waits for an equality. -/
theorem Evaluates.not_awaitsEquality {scope : Scope} {t v : Term} {seen : List Observation}
    (h : Evaluates scope t v seen) (hcompares : ∀ o ∈ seen, o.ComparesData) :
    ¬ v.AwaitsEquality ∧ ∀ w, .matched w ∈ seen → ¬ w.AwaitsEquality := by
  induction h with
  | var _ _ ih => exact ih hcompares
  | lit l | abs x t | ctor name =>
    refine ⟨fun h => ?_, by simp⟩
    cases h
  | beta _ _ _ _ ihf iha iht =>
    simp only [List.forall_mem_append] at hcompares
    obtain ⟨hv, hseen₃⟩ := iht hcompares.2.2
    simp only [List.mem_append, or_imp, forall_and]
    exact ⟨hv, (ihf hcompares.1).2, (iha hcompares.2.1).2, hseen₃⟩
  | app _ _ _ ihf iha =>
    simp only [List.forall_mem_append] at hcompares
    obtain ⟨hf, hseen₁⟩ := ihf hcompares.1
    simp only [List.append_nil, List.mem_append, or_imp, forall_and]
    refine ⟨fun h => ?_, hseen₁, (iha hcompares.2.1).2⟩
    cases h with
    | app _ h => exact hf h
  | fix _ _ ih =>
    rw [List.forall_mem_append] at hcompares
    obtain ⟨hv, hseen⟩ := ih hcompares.1
    simp only [List.mem_append, or_imp, forall_and]
    exact ⟨hv, hseen, by simp⟩
  | computed _ _ _ iha ihb =>
    simp only [List.forall_mem_append] at hcompares
    simp only [List.mem_append, or_imp, forall_and]
    refine ⟨fun h => ?_, (iha hcompares.1).2, (ihb hcompares.2.1).2, by simp⟩
    cases h
  | @binary op a a' b b' _ _ _ _ hnone iha ihb =>
    simp only [List.forall_mem_append] at hcompares
    obtain ⟨ha, hseen₁⟩ := iha hcompares.1
    obtain ⟨hb, hseen₂⟩ := ihb hcompares.2.1
    simp only [List.mem_append, or_imp, forall_and]
    refine ⟨fun h => ?_, hseen₁, hseen₂, by simp⟩
    cases h with
    | equality =>
      obtain ⟨hda, hdb⟩ := hcompares.2.2 _ List.mem_cons_self rfl
      cases hnone.symm.trans (BinaryOp.onTerms_eq_some_iff.2 ⟨hda, hdb, rfl⟩)
    | left _ _ h => exact ha h
    | right _ _ h => exact hb h
  | negated _ ih =>
    refine ⟨fun h => ?_, (ih hcompares).2⟩
    cases h
  | not _ _ ih =>
    obtain ⟨ha, hseen⟩ := ih hcompares
    refine ⟨fun h => ?_, hseen⟩
    cases h with
    | not h => exact ha h
  | branch _ _ _ iha ihb =>
    rw [List.forall_mem_append] at hcompares
    obtain ⟨hv, hseen₂⟩ := ihb hcompares.2
    simp only [List.mem_append, or_imp, forall_and]
    exact ⟨hv, (iha hcompares.1).2, hseen₂⟩
  | cond _ _ ih =>
    rw [List.append_nil] at hcompares ⊢
    obtain ⟨ha, hseen⟩ := ih hcompares
    refine ⟨fun h => ?_, hseen⟩
    cases h with
    | cond _ _ h => exact ha h
  | select _ _ _ _ iha iht =>
    simp only [List.forall_mem_append, List.forall_mem_cons] at hcompares
    obtain ⟨ha, hseen₁⟩ := iha hcompares.1
    obtain ⟨hv, hseen₂⟩ := iht hcompares.2.2.2
    simp only [List.mem_append, List.mem_cons, or_imp, forall_and]
    exact ⟨hv, hseen₁, by simpa using ha, by simp, hseen₂⟩

/-! ### What delayed values come to -/

namespace Reading

/-- Nothing is idle, and only functions may be fixed points that wait. -/
@[reducible]
def prompt (optimize : Bool) : Reading where
  optimize := optimize
  idle _ := False
  folded := IsFunction
  allowed := Observation.Clear

variable {optimize : Bool}

theorem idles_false : Idles fun _ => False := ⟨fun _ h => h, fun _ h => h⟩

/-- A constant with arguments. -/
theorem Lags.headsTo_constant {c : Code} {k : Term} {vs : List Term} (hk : k.IsConstant)
    (hc : (prompt optimize).Lags c (k.apply vs)) :
    ∃ cs, HeadsTo c ((k.code optimize).apply cs) ∧ List.Forall₂ (prompt optimize).Lags cs vs := by
  have hspine : ((k.apply vs).code optimize).spine =
      (k.code optimize, vs.map fun v => v.code optimize) := by
    rw [Term.code_apply, spine_apply_of_leaf (hk.spine_code optimize)]
  rcases hc.view idles_false with ⟨cs, hreduces, hcs⟩ | ⟨f, -, -, hfunction⟩ | hc
  · rw [hspine] at hreduces hcs
    refine ⟨cs, hreduces.headsTo_iff.2 (Stays.headsTo ?_), forall₂_lags_iff.2 hcs⟩
    rw [stays_self_iff (hk.spine_code optimize)]
    exact .waiting (by cases hk <;> trivial)
  · obtain ⟨combinator, -, hhead, -⟩ := hfunction
    rw [hspine] at hhead
    cases hk <;> cases hhead
  · cases hc

theorem Lags.headsTo_lit {c : Code} {l : Literal} (hc : (prompt optimize).Lags c (.lit l)) :
    HeadsTo c (.const (.lit l)) := by
  have hc : (prompt optimize).Lags c ((Term.lit l).apply []) := hc
  obtain ⟨cs, hw, hcs⟩ := hc.headsTo_constant (.lit l)
  cases hcs
  exact hw

theorem Lags.normalizesTo_constant {c : Code} {k : Term} {vs : List Term} (hk : k.IsConstant)
    (hvs : ∀ u ∈ vs, ∀ c, (prompt optimize).Lags c u → NormalizesTo c (u.code optimize))
    (hc : (prompt optimize).Lags c (k.apply vs)) :
    NormalizesTo c ((k.apply vs).code optimize) := by
  obtain ⟨cs, hw, hcs⟩ := hc.headsTo_constant hk
  have hnormalizes : List.Forall₂ NormalizesTo cs (vs.map fun v => v.code optimize) := by
    rw [List.forall₂_map_right_iff]
    clear hc hw
    induction hcs with
    | nil => exact .nil
    | cons hc _ ih =>
      rw [List.forall_mem_cons] at hvs
      exact .cons (hvs.1 _ hc) (ih hvs.2)
  rw [Term.code_apply]
  refine normalizesTo_iff.2 ⟨_, hw, vs.map fun v => v.code optimize, ?_⟩
  rw [spine_apply_of_leaf (hk.spine_code optimize)]
  exact ⟨hnormalizes, rfl⟩

/-- Code that delays data normalizes to it. -/
theorem normalizesTo_of_isData {v : Term} (hv : v.isData) :
    (∀ c, (prompt optimize).Lags c v → NormalizesTo c (v.code optimize)) ∧
      ∀ u ∈ v.spine.2, ∀ c, (prompt optimize).Lags c u → NormalizesTo c (u.code optimize) := by
  suffices hargs : ∀ u ∈ v.spine.2, ∀ c, (prompt optimize).Lags c u →
      NormalizesTo c (u.code optimize) by
    refine ⟨fun c hc => ?_, hargs⟩
    obtain ⟨k, vs, hk, rfl⟩ := Term.exists_apply_of_isData hv
    rw [hk.spine_apply] at hargs
    exact hc.normalizesTo_constant hk hargs
  induction v using Term.induct with
  | app f a ihf iha =>
    rw [Term.isData, Bool.and_eq_true, Bool.and_eq_true] at hv
    have hf := ihf hv.1.2
    obtain ⟨k, vs, hk, rfl⟩ := Term.exists_apply_of_isData hv.2
    rw [hk.spine_apply] at iha
    intro u hu
    rw [Term.spine, List.mem_append, List.mem_singleton] at hu
    rcases hu with hu | rfl
    · exact hf u hu
    · exact fun c hc => hc.normalizesTo_constant hk (iha hv.2)
  | _ => simp [Term.spine]

/-! ### Head normal forms of values -/

/-- The code gets to a head normal form that delays the value, a literal only if the value is
    that literal. -/
def Arrives (optimize : Bool) (c : Code) (v : Term) : Prop :=
  ∃ w, HeadsTo c w ∧ (prompt optimize).Lags w v ∧ w.literal? = v.literal?

/-- The code gets to an operator that is stuck, and stays so with more arguments. -/
def Rests (optimize : Bool) (c : Code) (v : Term) : Prop :=
  ∃ s w, Reduces c s ∧ ¬ s.spine.1.Waits s.spine.2.length ∧ Stays s w ∧
    (prompt optimize).Lags w v ∧ w.literal? = none

theorem arrives_of_function {c : Code} {x : String} {t : Term}
    (hc : (prompt optimize).Lags c (.abs x t)) : Arrives optimize c (.abs x t) := by
  obtain ⟨combinator, -, hhead, hlength⟩ := isFunction_abstract optimize x (t.code optimize)
  rcases hc.view idles_false with ⟨cs, hreduces, hcs⟩ | ⟨f, hreduces, hf, -⟩ | hc
  · rw [Term.code_abs, hhead] at hreduces
    have hlt : cs.length < combinator.arity := by
      rw [hcs.length_eq]
      exact Nat.lt_of_succ_le (Nat.le_of_eq hlength)
    have hstays := stays_comb hlt
    refine ⟨_, hreduces.headsTo_iff.2 hstays.headsTo, ?_, ?_⟩
    · have hself := apply_spine ((t.code optimize).abstract optimize x)
      rw [hhead] at hself
      rw [Lags, Term.code_abs, ← hself]
      exact Delays.apply (.refl _) hcs
    · exact literal?_apply_eq_none rfl rfl cs
  · exact ⟨_, hreduces.headsTo_iff.2 (headsTo_fixpoint_iff.2 rfl), hf, rfl⟩
  · cases hc

theorem Rests.arrives {c : Code} {v : Term} (h : Rests optimize c v) (hv : v.literal? = none) :
    Arrives optimize c v := by
  obtain ⟨s, w, hs, -, hstays, hw, hliteral⟩ := h
  exact ⟨w, hs.headsTo_iff.2 hstays.headsTo, hw, hliteral.trans hv.symm⟩

theorem survives_rests {e : Code} {v : Term} (he : ¬ e.IsFunction) :
    Delays.Survives (fun _ => False) IsFunction e fun c => Rests optimize c v where
  of_reduces hc := fun ⟨s, w, hs, h⟩ => ⟨s, w, hc.trans hs, h⟩
  unfold he' := absurd he' he
  idle := False.elim

theorem literal?_eq_none_of_stuck {v : Term} (h : v.Stuck) : v.literal? = none := by
  cases h <;> rfl

theorem arrives_of_value {c : Code} {v : Term} (hv : v.Evaluated)
    (hstuck : v.Stuck → ∀ c, (prompt optimize).Lags c v → Rests optimize c v)
    (hc : (prompt optimize).Lags c v) : Arrives optimize c v := by
  rcases hv.cases with ⟨x, t, rfl⟩ | ⟨k, vs, hk, rfl, -⟩ | hv
  · exact arrives_of_function hc
  · obtain ⟨cs, hw, hcs⟩ := hc.headsTo_constant hk
    refine ⟨_, hw, ?_, ?_⟩
    · rw [Lags, Term.code_apply]
      exact Delays.apply (.refl _) (forall₂_lags_iff.1 hcs)
    · exact hk.literal?_apply optimize hcs.length_eq
  · exact (hstuck hv c hc).arrives (literal?_eq_none_of_stuck hv)

/-- An operator whose forced operands are stuck. -/
theorem rests_of_operator (op : Primitive) {es : List Code} {v : Term}
    (harity : es.length = op.arity) (hv : v.code optimize = apply (.const (.prim op)) es)
    (hstuck : ∀ cs, List.Forall₂ (Delays (fun _ => False) IsFunction) cs es → ∃ ws,
      Sticks HeadsTo NormalizesTo (.const (.prim op)) cs ws ∧
        List.Forall₂ (Delays (fun _ => False) IsFunction) ws es)
    {c : Code} (hc : (prompt optimize).Lags c v) : Rests optimize c v := by
  have hne : es ≠ [] := by
    rintro rfl
    cases op <;> cases harity
  have hfunction : ¬ IsFunction (apply (.const (.prim op)) es) := by
    rintro ⟨combinator, -, hhead, -⟩
    rw [spine_apply_of_leaf rfl] at hhead
    cases hhead
  rw [Lags, hv] at hc
  refine Delays.elim_spine idles_false rfl hne (survives_rests hfunction) (fun cs hcs => ?_) hc
  obtain ⟨ws, hsticks, hws⟩ := hstuck cs hcs
  have hspine : (apply (.const (.prim op)) cs).spine = (.const (.prim op), cs) :=
    spine_apply_of_leaf rfl cs
  refine ⟨_, apply (.const (.prim op)) ws, .refl _, ?_, ?_, ?_, ?_⟩
  · rw [hspine, hcs.length_eq, harity]
    exact Nat.lt_irrefl _
  · rw [stays_iff, hspine]
    exact ⟨ws, hsticks, rfl⟩
  · rw [Lags, hv]
    exact Delays.apply (.refl _) hws
  · exact literal?_apply_eq_none rfl rfl ws

theorem Arrives.truth?_eq_none {c : Code} {v : Term} (h : Arrives optimize c v)
    (hv : ∀ b, v ≠ .lit (.bool b)) : ∃ w, HeadsTo c w ∧ (prompt optimize).Lags w v ∧
      w.truth? = none := by
  obtain ⟨w, hw, hlags, hliteral⟩ := h
  refine ⟨w, hw, hlags, ?_⟩
  rw [truth?, hliteral]
  split
  · rename_i b hb
    exact absurd (Term.eq_lit_of_literal? hb) (hv b)
  · rfl

/-- **Stuck values come to rest.** -/
theorem rests_of_stuck {v : Term} (hv : v.Evaluated) (hready : ¬ v.AwaitsEquality)
    (hstuck : v.Stuck) {c : Code} (hc : (prompt optimize).Lags c v) : Rests optimize c v := by
  induction hv generalizing c with
  | lit l => cases hstuck
  | abs x t => cases hstuck
  | ctor name => cases hstuck
  | @app f a _ _ _ ihf _ =>
    cases hstuck with
    | app _ hstuck =>
      have hfunction : ¬ IsFunction ((Term.app f a).code optimize) := fun h => by
        obtain ⟨x, b, h⟩ := Term.isFunction_code_iff.1 h
        cases h
      refine Delays.elim_app (survives_rests hfunction) (fun cf ca hcf hca => ?_) hc
      obtain ⟨s, w, hs, hwaits, hstays, hw, -⟩ := ihf (fun h => hready (.app a h)) hstuck hcf
      refine ⟨.app s ca, .app w ca, hs.apply [ca], fun h => hwaits (h.of_le ?_),
        hstays.apply hwaits [ca], .app (.refl _) hw hca, rfl⟩
      rw [spine, List.length_append]
      exact Nat.le_add_right _ _
  | @binary op a b ha hb hnone iha ihb =>
    have hop : op ≠ .eq := by
      rintro rfl
      exact hready (.equality a b)
    have hreadya : ¬ a.AwaitsEquality := fun h => hready (.left op b h)
    have hreadyb : ¬ b.AwaitsEquality := fun h => hready (.right op a h)
    refine rests_of_operator (.binary op) rfl (Term.code_binary optimize op a b)
      (fun cs hcs => ?_) hc
    obtain _ | ⟨hca, _ | ⟨hcb, _ | _⟩⟩ := hcs
    obtain ⟨wa, hwa, hlagsa, hliterala⟩ := arrives_of_value ha (fun h c => iha hreadya h) hca
    obtain ⟨wb, hwb, hlagsb, hliteralb⟩ := arrives_of_value hb (fun h c => ihb hreadyb h) hcb
    refine ⟨[wa, wb], .binary [] ?_ ?_ ?_, .cons hlagsa (.cons hlagsb .nil)⟩
    · rwa [if_neg hop]
    · rwa [if_neg hop]
    · rw [BinaryOp.onTerms_eq_none_iff hop] at hnone
      rwa [BinaryOp.onCode_eq_none_iff hop, hliterala, hliteralb]
  | @not a ha hneutral iha =>
    refine rests_of_operator .not rfl (Term.code_not optimize a) (fun cs hcs => ?_) hc
    obtain _ | ⟨hca, _ | _⟩ := hcs
    have hreadya : ¬ a.AwaitsEquality := fun h => hready (.not h)
    obtain ⟨w, hw, hlags, htruth⟩ :=
      (arrives_of_value ha (fun h c => iha hreadya h) hca).truth?_eq_none hneutral
    exact ⟨[w], .not [] hw htruth, .cons hlags .nil⟩
  | @cond a yes no ha hneutral iha =>
    refine rests_of_operator .cond rfl (Term.code_cond optimize a yes no) (fun cs hcs => ?_) hc
    obtain _ | ⟨hca, _ | ⟨hyes, _ | ⟨hno, _ | _⟩⟩⟩ := hcs
    have hreadya : ¬ a.AwaitsEquality := fun h => hready (.cond yes no h)
    obtain ⟨w, hw, hlags, htruth⟩ :=
      (arrives_of_value ha (fun h c => iha hreadya h) hca).truth?_eq_none hneutral
    exact ⟨_, .cond _ _ [] hw htruth, .cons hlags (.cons hyes (.cons hno .nil))⟩

theorem arrives {c : Code} {v : Term} (hv : v.Evaluated) (hready : ¬ v.AwaitsEquality)
    (hc : (prompt optimize).Lags c v) : Arrives optimize c v :=
  arrives_of_value hv (fun hstuck _ => rests_of_stuck hv hready hstuck) hc

/-! ### Matching -/

theorem prompt_allMatch_of {ps : List Pattern}
    (h : ∀ p ∈ ps, ∀ (v : Term) (c : Code), (∀ e ∈ p.tests v, e.2.IsConstructed) →
      (prompt optimize).Lags c v → ∃ r, Matches HeadsTo (Shape.ofPattern p) c r ∧
        (prompt optimize).Agrees r (p.capture? v))
    {vs : List Term} {cs : List Code} (htests : ∀ e ∈ Pattern.testsAll ps vs, e.2.IsConstructed)
    (hcs : List.Forall₂ (prompt optimize).Lags cs vs) (hlength : vs.length = ps.length) :
    ∃ r, AllMatch HeadsTo (Shape.ofPatterns ps) cs r ∧
      (prompt optimize).Agrees r (Pattern.captureAll? ps vs) := by
  induction ps generalizing vs cs with
  | nil =>
    obtain rfl := List.length_eq_zero_iff.1 hlength
    cases hcs
    exact ⟨_, by simp only [Shape.ofPatterns, AllMatch], .matched .nil⟩
  | cons p ps ih =>
    obtain _ | ⟨hc, hcs⟩ := hcs
    · cases hlength
    rw [List.forall_mem_cons] at h
    rw [Pattern.testsAll, List.forall_mem_append] at htests
    simp only [Shape.ofPatterns, AllMatch, Pattern.captureAll?]
    obtain ⟨first, hfirst, hagrees⟩ := h.1 _ _ htests.1 hc
    have hothers := htests.2
    generalize hcaptured : p.capture? _ = captured at hagrees hothers
    cases hagrees with
    | matched hbindings =>
      obtain ⟨others, hothers, hagrees⟩ := ih h.2 hothers hcs (Nat.succ.inj hlength)
      exact ⟨_, ⟨_, hfirst, others, hothers, rfl⟩, hagrees.prepend hbindings⟩
    | failed => exact ⟨_, ⟨_, hfirst, rfl⟩, .failed⟩

/-- What is tested is a constant with arguments, so matching comes to an end. -/
theorem prompt_matches {p : Pattern} {v : Term} {c : Code}
    (htests : ∀ e ∈ p.tests v, e.2.IsConstructed) (hc : (prompt optimize).Lags c v) :
    ∃ r, Matches HeadsTo (Shape.ofPattern p) c r ∧ (prompt optimize).Agrees r (p.capture? v) := by
  induction p using Pattern.induct generalizing v c with
  | var x =>
    exact ⟨_, by simp only [Shape.ofPattern, Matches], .matched (.cons hc .nil)⟩
  | lit l =>
    rw [Pattern.tests, List.forall_mem_singleton] at htests
    simp only [Shape.ofPattern, Matches, Pattern.capture?]
    rcases htests with ⟨l', rfl⟩ | ⟨name, args, rfl⟩
    · refine ⟨_, ⟨_, hc.headsTo_lit, rfl⟩, ?_⟩
      simp only [matchLiteral, spine, Term.literal?, Option.some.injEq]
      split
      · exact .matched .nil
      · exact .failed
    · obtain ⟨cs, hw, -⟩ := hc.headsTo_constant (.ctor name)
      refine ⟨.failed, ⟨_, hw, ?_⟩, ?_⟩
      · rw [matchLiteral, spine_apply_of_leaf ((Term.IsConstant.ctor name).spine_code optimize)]
        rfl
      · rw [Term.literal?_apply_ctor, if_neg (Option.some_ne_none l).symm]
        exact .failed
  | ctor name subs ih =>
    rw [Pattern.tests, List.forall_mem_cons] at htests
    simp only [Shape.ofPattern, Matches, Pattern.capture?]
    rcases htests.1 with ⟨l', rfl⟩ | ⟨found, args, rfl⟩
    · refine ⟨.failed, ⟨_, hc.headsTo_lit, rfl⟩, ?_⟩
      rw [if_neg (by simp [Term.spine])]
      exact .failed
    · obtain ⟨cs, hw, hcs⟩ := hc.headsTo_constant (.ctor found)
      have hk := Term.IsConstant.ctor found
      have hsubs := htests.2
      rw [hk.spine_apply] at hsubs ⊢
      simp only [Term.ctor.injEq] at hsubs ⊢
      suffices hr : ∃ r, (if found = name ∧ cs.length = (Shape.ofPatterns subs).length then
          AllMatch HeadsTo (Shape.ofPatterns subs) cs r else r = .failed) ∧
          (prompt optimize).Agrees r (if found = name ∧ args.length = subs.length then
            Pattern.captureAll? subs args else none) by
        refine hr.imp fun r hr => ⟨⟨_, hw, ?_⟩, hr.2⟩
        rw [spine_apply_of_leaf (hk.spine_code optimize)]
        exact hr.1
      rw [hcs.length_eq, Shape.ofPatterns_eq_map, List.length_map, ← Shape.ofPatterns_eq_map]
      split
      · rename_i hname
        rw [if_pos hname] at hsubs
        exact prompt_allMatch_of (fun p hp v c htests hc => ih p hp htests hc) hsubs hcs hname.2
      · exact ⟨_, rfl, .failed⟩

/-- The reducer selects the function of the case that the evaluator takes. -/
theorem prompt_selects {v t : Term} {c : Code} {cases : List (Pattern × Term)}
    {functions : List Code} {bindings : Table String Term}
    (htests : ∀ e ∈ v.testsOfCases cases, e.2.IsConstructed) (hc : (prompt optimize).Lags c v)
    (hfunctions : List.Forall₂ (Delays (fun _ => False) IsFunction) functions
      (cases.map (Term.caseCode optimize)))
    (hmatch : v.firstMatch cases = some (bindings, t)) (s : Supply) :
    ∃ selected, Selects HeadsTo c (cases.map fun e => Shape.ofPattern e.1) functions
      (some selected) ∧ (prompt optimize).Lags selected (t.substMany bindings s).1 := by
  induction cases generalizing functions with
  | nil => cases hmatch
  | cons e cases ih =>
    obtain ⟨p, body⟩ := e
    obtain _ | ⟨hfunction, hfunctions⟩ := hfunctions
    rw [Term.testsOfCases, List.forall_mem_append] at htests
    rw [Term.firstMatch, Pattern.match?_eq] at hmatch
    simp only [List.map_cons, Selects]
    obtain ⟨r, hr, hagrees⟩ := prompt_matches htests.1 hc
    have hothers := htests.2
    generalize hcaptured : p.capture? v = captured at hagrees hmatch hothers
    cases hagrees with
    | matched hbindings =>
      cases hmatch
      exact ⟨_, ⟨_, hr, rfl⟩, lags_caseCode idles_false hcaptured hfunction hbindings s⟩
    | failed =>
      obtain ⟨selected, hselected, hlags⟩ := ih hothers hfunctions hmatch
      exact ⟨selected, ⟨_, hr, hselected⟩, hlags⟩

/-! ### Data is found -/

theorem prompt_lawful (optimize : Bool) : (prompt optimize).Lawful where
  idles := idles_false
  function h hfunction := by
    obtain ⟨x, b, rfl⟩ := Term.isFunction_code_iff.1 hfunction
    cases h
    exact hfunction
  recursion h := Term.isFunction_code_iff.2 (Term.exists_of_isAbs h)
  computed {op a b l ca cb} _ _ hl hca hcb := by
    suffices hforced : ∃ wa wb, (if op = .eq then NormalizesTo ca wa else HeadsTo ca wa) ∧
        (if op = .eq then NormalizesTo cb wb else HeadsTo cb wb) ∧ op.onCode wa wb = .ok (some l) by
      obtain ⟨wa, wb, hwa, hwb, hl⟩ := hforced
      have hrule := Rule.binary (H := HeadsTo) (N := NormalizesTo) [] hwa hwb hl
      exact .leaf ((contracts_apply_iff rfl).2 hrule).reduces rfl
    by_cases hop : op = .eq
    · subst hop
      obtain ⟨ha, hb, rfl⟩ := BinaryOp.onTerms_eq_some_iff.1 hl
      have hia := Term.images_code optimize ha
      have hib := Term.images_code optimize hb
      refine ⟨_, _, (normalizesTo_of_isData ha).1 ca hca, (normalizesTo_of_isData hb).1 cb hcb, ?_⟩
      rw [BinaryOp.onCode_eq_some_iff, hia.isData_eq, hib.isData_eq]
      exact ⟨ha, hb, by simp only [hia.eq_iff hib]⟩
    · obtain ⟨m, n, hm, hn, hcompute⟩ := (BinaryOp.onTerms_compute_iff hop).1 hl
      rw [Term.eq_lit_of_literal? hm] at hca
      rw [Term.eq_lit_of_literal? hn] at hcb
      simp only [if_neg hop]
      exact ⟨_, _, hca.headsTo_lit, hcb.headsTo_lit,
        (BinaryOp.onCode_compute_iff hop).2 ⟨m, n, rfl, rfl, hcompute⟩⟩
  negated {b c} hc :=
    .leaf ((contracts_apply_iff rfl).2 (Rule.not [] hc.headsTo_lit)).reduces rfl
  branch {choice c yes no v} hc hv := by
    have hrule := Rule.cond (N := NormalizesTo) yes no [] hc.headsTo_lit
    exact .of_reduces idles_false ((contracts_apply_iff rfl).2 hrule).reduces hv
  select {a t cases bindings c functions} s ha hready htests hmatch hc hfunctions := by
    have hlength : functions.length = (cases.map fun e => Shape.ofPattern e.1).length := by
      rw [hfunctions.length_eq, List.length_map, List.length_map]
    obtain ⟨w, hw, hlags, -⟩ := arrives ha hready hc
    obtain ⟨selected, hselected, hresult⟩ := prompt_selects htests hlags hfunctions hmatch s
    have hrule := Rule.case (N := NormalizesTo) [] hlength hw hselected
    rw [List.append_nil] at hrule
    exact .of_reduces idles_false ((contracts_apply_iff rfl).2 hrule).reduces hresult

end Reading

/-- What evaluates to data, with nothing in the way, has code that normalizes to it. -/
theorem Evaluates.normalizesTo {t d : Term} {seen : List Observation}
    (h : Evaluates .empty t d seen) (hclear : ∀ o ∈ seen, o.Clear) (hd : d.isData)
    (optimize : Bool) : NormalizesTo (t.code optimize) (d.code optimize) :=
  (Reading.normalizesTo_of_isData hd).1 _
    ((Reading.prompt_lawful optimize).simulation h hclear (Delays.refl _))

/-- **Reduction finds data.**  A term that recurses through functions only, and evaluates to data
    without testing anything but constants with arguments and without comparing anything
    but data, has code that reduces to the image of the data. -/
theorem Term.data_found {t d : Term} {fuel : Nat} (hrec : t.fixesFunctions)
    (heval : t.eval? fuel .empty = some (.ok d)) (hdata : d.isData)
    (htests : ∀ p v, .tested p v ∈ t.observe .empty fuel ⟨0⟩ → v.IsConstructed)
    (hcompares : ∀ a b, .operated .eq a b ∈ t.observe .empty fuel ⟨0⟩ → a.isData ∧ b.isData)
    (optimize : Bool) : ∃ code c, t.compile optimize = .ok code ∧ Images d c ∧
      Settles (fun n => code.reduce? n) (.ok c) := by
  obtain ⟨⟨_, s⟩, hrun, rfl⟩ := Option.map_eq_some_iff.1 heval
  have hevaluates := Evaluates.of_evaluate hrun
  have hcompared : ∀ o ∈ t.observe .empty fuel ⟨0⟩, o.ComparesData := by
    intro o ho
    cases o with
    | operated op a b =>
      rintro rfl
      exact hcompares a b ho
    | matched _ | tested _ _ | unfolded _ => trivial
  have hclear : ∀ o ∈ t.observe .empty fuel ⟨0⟩, o.Clear := by
    intro o ho
    cases o with
    | matched v => exact (hevaluates.not_awaitsEquality hcompared).2 v ho
    | tested p v => exact htests p v ho
    | operated op a b => trivial
    | unfolded v => exact (hevaluates.fixesFunctions hrec).2 v ho
  exact ⟨_, _, compile_eq optimize t, images_code optimize hdata,
    (hevaluates.normalizesTo hclear hdata optimize).settles⟩

/-- Data is compared and a literal is tested; the recursion is in a case that is not taken. -/
theorem data_found_match :
    let one : Term := .app (.ctor "Some") (.lit (.int 1))
    let d : Term := .app (.ctor "Some") (.lit (.int 5))
    let t : Term := .select
      (.binary .eq one (.app (.ctor "Some") (.binary .add (.lit (.int 0)) (.lit (.int 1)))))
      [(.lit (.bool true), d), (.var "x", .fix "f" (.abs "y" (.app (.var "f") (.var "x"))))]
    t.fixesFunctions ∧ t.eval? 6 .empty = some (.ok d) ∧ d.isData ∧
      (∀ p v, .tested p v ∈ t.observe .empty 6 ⟨0⟩ → v.IsConstructed) ∧
      (∀ a b, .operated .eq a b ∈ t.observe .empty 6 ⟨0⟩ → a.isData ∧ b.isData) ∧
      ∃ code c, t.compile true = .ok code ∧ Images d c ∧
        Settles (fun n => code.reduce? n) (.ok c) := by
  intro one d t
  have hsubst : d.substMany .empty ⟨0⟩ = (d, ⟨0⟩) := by
    simp only [d, Term.substMany]
  have heval : t.eval? 6 .empty = some (.ok d) := by
    change Option.map Prod.fst ((Run.update (d.substMany .empty) >>= Term.evaluate .empty 5) ⟨0⟩) = _
    rw [Run.bind_apply, Run.update_apply, hsubst]
    rfl
  have hobserve : t.observe .empty 6 ⟨0⟩ = [.operated .add (.lit (.int 0)) (.lit (.int 1)),
      .operated .eq one one, .matched (.lit (.bool true)),
      .tested (.lit (.bool true)) (.lit (.bool true))] := by
    change _ :: _ :: _ :: _ :: (d.substMany .empty ⟨0⟩).1.observe .empty 5 _ = _
    rw [hsubst]
    rfl
  have htests : ∀ p v, .tested p v ∈ t.observe .empty 6 ⟨0⟩ → v.IsConstructed := by
    intro p v h
    rw [hobserve] at h
    simp only [List.mem_cons, reduceCtorEq, Observation.tested.injEq, List.not_mem_nil, or_false,
      false_or] at h
    exact .inl ⟨_, h.2⟩
  have hcompares : ∀ a b, .operated .eq a b ∈ t.observe .empty 6 ⟨0⟩ → a.isData ∧ b.isData := by
    intro a b h
    rw [hobserve] at h
    simp only [List.mem_cons, reduceCtorEq, Observation.operated.injEq, List.not_mem_nil, or_false,
      false_or, false_and, true_and] at h
    obtain ⟨rfl, rfl⟩ := h
    exact ⟨rfl, rfl⟩
  exact ⟨rfl, heval, rfl, htests, hcompares,
    Term.data_found rfl heval rfl htests hcompares true⟩

end CoreCalculus
