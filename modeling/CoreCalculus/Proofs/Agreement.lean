/-
  CoreCalculus/Proofs/Agreement.lean
  ==================================
  **The reducer never contradicts the evaluator.**

  Where the evaluator goes on, the reducer may be stuck, or may not come to an end: a recursion
  whose body is no function is never unfolded, a literal pattern tested against a function
  stops a match for good.  Such code is hopeless: whatever it is applied to, it never
  becomes a literal or a constructor with arguments.  So hopeless code may stand for any value as
  long as nothing is concluded from it.

  Code that delays a value either is hopeless or shows what the value shows.  A value that is
  stuck delays to hopeless code only, since the reducer has no result for an operator
  where the evaluator has none.  Hence data that is found is the image of the value
  (`Term.reduction_agrees`), for all terms, typed or not.
-/
import CoreCalculus.Proofs.Simulation
import CoreCalculus.Proofs.ValueCode

namespace CoreCalculus

open Code

namespace Code

/-! ### More arguments than a rule takes -/

/-- A rule that applies to a spine applies when only the arguments it takes are left. -/
theorem Rule.of_append {H N : Code → Code → Prop} {head : Code} {args more : List Code} {s : Step}
    (h : Rule H N head (args ++ more) s) (hwaits : ¬ head.Waits args.length) :
    ∃ s', Rule H N head args s' := by
  generalize hall : args ++ more = all at h
  cases h with
  | comb _ => exact ⟨_, .comb (Nat.not_lt.1 hwaits)⟩
  | binary rest ha hb hl =>
    rcases args with _ | ⟨a, _ | ⟨b, args⟩⟩
    · exact absurd (Nat.zero_lt_succ 1) hwaits
    · exact absurd (Nat.lt_succ_self 1) hwaits
    · cases hall
      exact ⟨_, .binary args ha hb hl⟩
  | not rest ha =>
    rcases args with _ | ⟨a, args⟩
    · exact absurd (Nat.zero_lt_succ 0) hwaits
    · cases hall
      exact ⟨_, .not args ha⟩
  | cond yes no rest htest =>
    rcases args with _ | ⟨test, _ | ⟨yes, _ | ⟨no, args⟩⟩⟩
    · exact absurd (Nat.zero_lt_succ 2) hwaits
    · exact absurd (Nat.succ_lt_succ (Nat.zero_lt_succ 1)) hwaits
    · exact absurd (Nat.lt_succ_self 2) hwaits
    · cases hall
      exact ⟨_, .cond yes no args htest⟩
  | @case shapes a a' functions selected rest hlength ha hselected =>
    rcases args with _ | ⟨b, args⟩
    · exact absurd (Nat.zero_le _) hwaits
    · obtain ⟨rfl, htail⟩ := List.cons.inj hall
      have hle : functions.length ≤ args.length := by
        rw [hlength]
        exact Nat.le_of_lt_succ (Nat.lt_of_not_le hwaits)
      have hprefix : functions <+: args ++ more := ⟨rest, htail.symm⟩
      obtain ⟨rest', rfl⟩ := List.prefix_of_prefix_length_le hprefix (List.prefix_append _ _) hle
      exact ⟨_, .case rest' hlength ha hselected⟩
  | waiting h =>
    rw [← hall, List.length_append] at h
    exact absurd (h.of_le (Nat.le_add_right _ _)) hwaits

/-! ### What is contracted -/

section

variable {a b c : Code}

theorem stepsTo_binary {op : BinaryOp}
    (h : StepsTo (.const (.prim (.binary op))) [a, b] (.contracted c)) :
    ∃ wa wb l, (if op = .eq then NormalizesTo a wa else HeadsTo a wa) ∧
      (if op = .eq then NormalizesTo b wb else HeadsTo b wb) ∧
      op.onCode wa wb = .ok (some l) ∧ c = .const (.lit l) := by
  generalize hs : Step.contracted c = s at h
  cases h with
  | @binary _ _ a' _ b' l? _ ha hb hl =>
    cases l? <;> cases hs
    exact ⟨a', b', _, ha, hb, hl, rfl⟩
  | waiting _ => cases hs

theorem stepsTo_not (h : StepsTo (.const (.prim .not)) [a] (.contracted c)) :
    ∃ wa b, HeadsTo a wa ∧ wa.truth? = some b ∧ c = .const (.lit (.bool !b)) := by
  generalize hs : Step.contracted c = s at h
  cases h with
  | @not _ a' _ ha =>
    rcases htruth : a'.truth? with _ | b <;> rw [htruth] at hs <;> cases hs
    exact ⟨a', b, ha, htruth, rfl⟩
  | waiting _ => cases hs

theorem stepsTo_cond {yes no : Code}
    (h : StepsTo (.const (.prim .cond)) [a, yes, no] (.contracted c)) :
    ∃ wa b, HeadsTo a wa ∧ wa.truth? = some b ∧ c = if b then yes else no := by
  generalize hs : Step.contracted c = s at h
  cases h with
  | @cond _ a' _ _ _ ha =>
    rcases htruth : a'.truth? with _ | b <;> rw [htruth] at hs <;> cases hs
    exact ⟨a', b, ha, htruth, rfl⟩
  | waiting _ => cases hs

theorem stepsTo_case {shapes : List Shape} {functions : List Code}
    (hlength : functions.length = shapes.length)
    (h : StepsTo (.const (.case shapes)) (a :: functions) (.contracted c)) :
    ∃ wa, HeadsTo a wa ∧ Selects HeadsTo wa shapes functions (some c) := by
  generalize hs : Step.contracted c = s at h
  generalize hall : a :: functions = all at h
  cases h with
  | @case _ _ a' functions' selected rest hlength' ha hselected =>
    obtain ⟨rfl, rfl⟩ := List.cons.inj hall
    rw [List.length_append, hlength'] at hlength
    obtain rfl := List.length_eq_zero_iff.1 (Nat.add_eq_left.1 hlength)
    cases selected <;> cases hs
    rw [List.append_nil]
    exact ⟨a', ha, hselected⟩
  | waiting _ => cases hs

end

/-! ### Hopeless code -/

/-- Whatever it is applied to, no literal or constructor comes to its head. -/
def Hopeless (c : Code) : Prop := ∀ args w, HeadsTo (c.apply args) w → ¬ w.Plain

theorem not_plain_case {shapes : List Shape} : ¬ Plain (.const (.case shapes)) := by
  rintro ⟨k, hk⟩
  cases hk

theorem idles_hopeless : Idles Hopeless where
  app a h args := h (a :: args)
  of_reduces hc h args w hw := h args w ((hc.apply args).headsTo_iff.1 hw)

theorem Hopeless.headsTo {c w : Code} (h : Hopeless c) (hw : HeadsTo c w) : Hopeless w :=
  fun args u hu => h args u ((hw.apply_iff args).2 hu)

/-- A fixed point is hopeless if its body applied to itself is. -/
theorem Hopeless.fixpoint {f : Code} (h : Hopeless (.app f (.app (.comb .y) f))) :
    Hopeless (.app (.comb .y) f) := by
  intro args w hw
  cases args with
  | nil =>
    cases headsTo_fixpoint_iff.1 hw
    exact not_plain_comb rfl
  | cons a args =>
    have hunfold : Reduces ((app (.comb .y) f).apply (a :: args))
        ((app f (app (.comb .y) f)).apply (a :: args)) :=
      reduces_comb .y (f :: a :: args) rfl
    exact h _ w (hunfold.headsTo_iff.1 hw)

/-- A spine that has the arguments it takes is contracted, or there is no hope for it. -/
theorem contracts_or_hopeless {head : Code} {args : List Code} (hleaf : head.spine = (head, []))
    (hplain : ¬ head.Plain) (hwaits : ¬ head.Waits args.length) :
    (∃ c, StepsTo head args (.contracted c)) ∨ Hopeless (head.apply args) := by
  refine or_iff_not_imp_left.2 fun hnone more w hw => ?_
  rw [← apply_append] at hw
  have hspine := spine_apply_of_leaf hleaf (args ++ more)
  rcases headsTo_iff.1 hw with hstays | ⟨c, hc, -⟩
  · obtain ⟨forced, -, rfl⟩ := stays_iff.1 hstays
    rw [hspine, Plain, spine_apply_of_leaf hleaf]
    rwa [Plain, hleaf] at hplain
  · rw [contracts_apply_iff hleaf] at hc
    obtain ⟨s, hs⟩ := Rule.of_append hc hwaits
    cases s with
    | contracted c' => exact absurd ⟨c', hs⟩ hnone
    | stuck w' => cases StepsTo.unique hc (hs.append hwaits more)

end Code

/-! ### What delayed values show -/

namespace Reading

/-- Whatever delays a term may be hopeless, and any recursion may be a fixed point that waits. -/
@[reducible]
def wary (optimize : Bool) : Reading where
  optimize := optimize
  idle := Hopeless
  folded _ := True
  allowed _ := True

variable {optimize : Bool}

theorem survives_hopeless {e : Code} : Delays.Survives Hopeless (fun _ => True) e Hopeless where
  of_reduces := idles_hopeless.of_reduces
  unfold _ h := h.fixpoint
  idle h := h

/-- Code that delays a value that lets no rule apply. -/
theorem wary_headsTo_of_waits {c w : Code} {v : Term}
    (hwaits : (v.code optimize).spine.1.Waits (v.code optimize).spine.2.length)
    (hc : (wary optimize).Lags c v) (hw : HeadsTo c w) :
    (wary optimize).Lags w v ∧ (w.Plain → w.spine.1 = (v.code optimize).spine.1 ∧
      List.Forall₂ (Delays Hopeless fun _ => True) w.spine.2 (v.code optimize).spine.2) := by
  rcases hc.view idles_hopeless with ⟨cs, hreduces, hcs⟩ | ⟨f, hreduces, hf, -⟩ | hc
  · have hspine := spine_apply_of_leaf (spine_spine (v.code optimize)) cs
    have hstays : Stays ((v.code optimize).spine.1.apply cs) ((v.code optimize).spine.1.apply cs) := by
      rw [stays_self_iff (spine_spine _)]
      exact .waiting (hcs.length_eq ▸ hwaits)
    obtain rfl := (hreduces.headsTo_iff.1 hw).unique hstays.headsTo
    refine ⟨?_, fun _ => ?_⟩
    · have happly := Delays.apply (Delays.refl (v.code optimize).spine.1) hcs
      rwa [apply_spine] at happly
    · rw [hspine]
      exact ⟨rfl, hcs⟩
  · obtain rfl := headsTo_fixpoint_iff.1 (hreduces.headsTo_iff.1 hw)
    exact ⟨hf, fun hplain => absurd hplain (not_plain_comb rfl)⟩
  · exact ⟨.idle (hc.headsTo hw), fun hplain => absurd hplain (hc [] w hw)⟩

/-- Nothing that the value does not show comes out of code that delays it. -/
structure Shown (optimize : Bool) (v : Term) : Prop where
  hopeless : v.Stuck → ∀ c, (wary optimize).Lags c v → Hopeless c
  data : ∀ c d, (wary optimize).Lags c v → NormalizesTo c d → d.isData → Images v d

section

variable {v : Term} {c w : Code}

theorem Lags.headsTo (hv : v.Evaluated) (hc : (wary optimize).Lags c v)
    (hstuck : v.Stuck → ∀ c, (wary optimize).Lags c v → Hopeless c) (hw : HeadsTo c w) :
    (wary optimize).Lags w v := by
  rcases hv.cases with habs | ⟨k, vs, hk, hkv, -⟩ | hv
  · exact (wary_headsTo_of_waits (Term.waits_code (.inl habs)) hc hw).1
  · exact (wary_headsTo_of_waits (Term.waits_code (.inr ⟨k, vs, hk, hkv⟩)) hc hw).1
  · exact .idle ((hstuck hv c hc).headsTo hw)

/-- A constant at the head, and its arguments, are those of the value. -/
theorem Lags.of_plain (hv : v.Evaluated) (hc : (wary optimize).Lags c v)
    (hstuck : v.Stuck → ∀ c, (wary optimize).Lags c v → Hopeless c) (hw : HeadsTo c w)
    (hplain : w.Plain) : ∃ (k : Term) (vs : List Term), k.IsConstant ∧ v = k.apply vs ∧
      (∀ u ∈ vs, u.Evaluated) ∧ Images k w.spine.1 ∧
      List.Forall₂ (wary optimize).Lags w.spine.2 vs := by
  rcases hv.cases with ⟨x, t, rfl⟩ | ⟨k, vs, hk, rfl, hvs⟩ | hv
  · obtain ⟨hhead, -⟩ :=
      (wary_headsTo_of_waits (Term.waits_code (.inl ⟨x, t, rfl⟩)) hc hw).2 hplain
    obtain ⟨combinator, -, hcomb, -⟩ := isFunction_abstract optimize x (t.code optimize)
    exact absurd hplain (not_plain_comb (hhead.trans hcomb))
  · obtain ⟨hhead, hargs⟩ :=
      (wary_headsTo_of_waits (Term.waits_code (.inr ⟨k, vs, hk, rfl⟩)) hc hw).2 hplain
    rw [Term.code_apply, spine_apply_of_leaf (hk.spine_code optimize)] at hhead hargs
    exact ⟨k, vs, hk, rfl, hvs, hhead ▸ hk.images optimize, forall₂_lags_iff.2 hargs⟩
  · exact absurd hplain (hstuck hv c hc [] w hw)

theorem Lags.eq_lit (hv : v.Evaluated) (hc : (wary optimize).Lags c v)
    (hstuck : v.Stuck → ∀ c, (wary optimize).Lags c v → Hopeless c) (hw : HeadsTo c w)
    {l : Literal} (hl : w.literal? = some l) : v = .lit l := by
  obtain ⟨k, vs, -, rfl, -, himage, hargs⟩ := hc.of_plain hv hstuck hw (plain_of_literal? hl)
  rw [literal?_eq_some_iff] at hl
  rw [hl] at himage hargs
  cases hargs
  cases himage
  rfl

/-- Literals that operators see are those of the values. -/
theorem Lags.literal? (hv : v.Evaluated) (hc : (wary optimize).Lags c v)
    (hstuck : v.Stuck → ∀ c, (wary optimize).Lags c v → Hopeless c) (hw : HeadsTo c w)
    {l : Literal} (hl : w.literal? = some l) : v.literal? = some l := by
  rw [hc.eq_lit hv hstuck hw hl]
  rfl

end

/-! ### Stuck values -/

section

variable {a b : Term} {ca cb wa wb : Code}

/-- A result of the reducer is one of the evaluator. -/
theorem Shown.onTerms {op : BinaryOp} {l : Literal} (ha : a.Evaluated) (hb : b.Evaluated)
    (hsa : Shown optimize a) (hsb : Shown optimize b) (hca : (wary optimize).Lags ca a)
    (hcb : (wary optimize).Lags cb b) (hwa : if op = .eq then NormalizesTo ca wa else HeadsTo ca wa)
    (hwb : if op = .eq then NormalizesTo cb wb else HeadsTo cb wb)
    (h : op.onCode wa wb = .ok (some l)) : op.onTerms a b = .ok (some l) := by
  by_cases hop : op = .eq
  · subst hop
    rw [if_pos rfl] at hwa hwb
    obtain ⟨hda, hdb, rfl⟩ := BinaryOp.onCode_eq_some_iff.1 h
    have hia := hsa.data ca wa hca hwa hda
    have hib := hsb.data cb wb hcb hwb hdb
    rw [BinaryOp.onTerms_eq_some_iff, ← hia.isData_eq, ← hib.isData_eq]
    exact ⟨hda, hdb, by simp only [hia.eq_iff hib]⟩
  · rw [if_neg hop] at hwa hwb
    obtain ⟨m, n, hm, hn, hcompute⟩ := (BinaryOp.onCode_compute_iff hop).1 h
    exact (BinaryOp.onTerms_compute_iff hop).2
      ⟨m, n, hca.literal? ha hsa.hopeless hwa hm, hcb.literal? hb hsb.hopeless hwb hn, hcompute⟩

theorem Shown.eq_truth (ha : a.Evaluated) (hsa : Shown optimize a)
    (hca : (wary optimize).Lags ca a) (hwa : HeadsTo ca wa) {b : Bool} (h : wa.truth? = some b) :
    a = .lit (.bool b) := by
  rw [truth?] at h
  split at h
  · rename_i b' hl
    cases h
    exact hca.eq_lit ha hsa.hopeless hwa hl
  · cases h

end

/-- What delays a stuck operator is hopeless when the operands are shown. -/
theorem hopeless_of_operator (op : Primitive) {es : List Code} (harity : es.length = op.arity)
    (hnone : ∀ cs, List.Forall₂ (Delays Hopeless fun _ => True) cs es →
      ∀ c, ¬ StepsTo (.const (.prim op)) cs (.contracted c)) {c : Code}
    (hc : Delays Hopeless (fun _ => True) c (apply (.const (.prim op)) es)) : Hopeless c := by
  have hne : es ≠ [] := by
    rintro rfl
    cases op <;> cases harity
  refine Delays.elim_spine idles_hopeless rfl hne survives_hopeless (fun cs hcs => ?_) hc
  have hwaits : ¬ Waits (.const (.prim op)) cs.length := by
    rw [hcs.length_eq, harity]
    exact Nat.lt_irrefl _
  rcases contracts_or_hopeless rfl not_plain_prim hwaits with ⟨c, hc⟩ | h
  · exact absurd hc (hnone cs hcs c)
  · exact h

theorem images_of_shown {cs ds : List Code} {vs : List Term}
    (hcs : List.Forall₂ (wary optimize).Lags cs vs) (hds : List.Forall₂ NormalizesTo cs ds)
    (hshown : ∀ u ∈ vs, Shown optimize u) (hdata : ∀ d ∈ ds, d.isData) :
    List.Forall₂ Images vs ds := by
  induction hcs generalizing ds with
  | nil =>
    cases hds
    exact .nil
  | cons hc _ ih =>
    obtain _ | ⟨hd, hds⟩ := hds
    rw [List.forall_mem_cons] at hshown hdata
    exact .cons (hshown.1.data _ _ hc hd hdata.1) (ih hds hshown.2 hdata.2)

/-- What a value shows is settled by whether it is stuck and by its arguments. -/
theorem shown_of {v : Term} (hv : v.Evaluated)
    (hstuck : v.Stuck → ∀ c, (wary optimize).Lags c v → Hopeless c)
    (hargs : ∀ u ∈ v.spine.2, Shown optimize u) :
    Shown optimize v ∧ ∀ u ∈ v.spine.2, Shown optimize u := by
  refine ⟨⟨hstuck, fun c d hc hd hdata => ?_⟩, hargs⟩
  obtain ⟨w, hw, ds, hds, rfl⟩ := normalizesTo_iff.1 hd
  obtain ⟨hplain, hdatas⟩ := plain_of_isData hdata
  rw [Plain, spine_apply_of_leaf (spine_spine w)] at hplain
  rw [spine_apply_of_leaf (spine_spine w)] at hdatas
  obtain ⟨k, vs, hk, rfl, -, himage, hcs⟩ := hc.of_plain hv hstuck hw hplain
  rw [hk.spine_apply] at hargs
  exact himage.apply (images_of_shown hcs hds hargs hdatas)

theorem shown {v : Term} (hv : v.Evaluated) :
    Shown optimize v ∧ ∀ u ∈ v.spine.2, Shown optimize u := by
  induction hv with
  | lit l => exact shown_of (.lit l) (fun h => by cases h) (by simp [Term.spine])
  | abs x t => exact shown_of (.abs x t) (fun h => by cases h) (by simp [Term.spine])
  | ctor name => exact shown_of (.ctor name) (fun h => by cases h) (by simp [Term.spine])
  | @app f a hf ha hneutral ihf iha =>
    refine shown_of (.app hf ha hneutral) (fun hstuck c hc => ?_) ?_
    · cases hstuck with
      | app _ hstuck =>
        exact Delays.elim_app survives_hopeless
          (fun cf ca hcf _ => idles_hopeless.app ca (ihf.1.hopeless hstuck cf hcf)) hc
    · simpa [Term.spine, or_imp, forall_and] using ⟨ihf.2, iha.1⟩
  | @binary op a b ha hb hnone iha ihb =>
    refine shown_of (.binary ha hb hnone) (fun _ c hc => ?_) (by simp [Term.spine])
    refine hopeless_of_operator (.binary op) rfl (fun cs hcs c' hc' => ?_) hc
    obtain _ | ⟨hca, _ | ⟨hcb, _ | _⟩⟩ := hcs
    obtain ⟨wa, wb, l, hwa, hwb, hl, -⟩ := stepsTo_binary hc'
    cases (hnone.symm.trans (Shown.onTerms ha hb iha.1 ihb.1 hca hcb hwa hwb hl))
  | @not a ha hneutral iha =>
    refine shown_of (.not ha hneutral) (fun _ c hc => ?_) (by simp [Term.spine])
    refine hopeless_of_operator .not rfl (fun cs hcs c' hc' => ?_) hc
    obtain _ | ⟨hca, _ | _⟩ := hcs
    obtain ⟨wa, b, hwa, hb, -⟩ := stepsTo_not hc'
    exact hneutral b (iha.1.eq_truth ha hca hwa hb)
  | @cond a yes no ha hneutral iha =>
    refine shown_of (.cond yes no ha hneutral) (fun _ c hc => ?_) (by simp [Term.spine])
    refine hopeless_of_operator .cond rfl (fun cs hcs c' hc' => ?_) hc
    obtain _ | ⟨hca, _ | ⟨_, _ | ⟨_, _ | _⟩⟩⟩ := hcs
    obtain ⟨wa, b, hwa, hb, -⟩ := stepsTo_cond hc'
    exact hneutral b (iha.1.eq_truth ha hca hwa hb)

/-! ### Matching -/

theorem wary_allMatch_of {ps : List Pattern}
    (h : ∀ p ∈ ps, ∀ (v : Term) (c : Code) (r : ShapeMatch), v.Evaluated →
      (wary optimize).Lags c v → Matches HeadsTo (Shape.ofPattern p) c r →
      r = .stuck ∨ (wary optimize).Agrees r (p.capture? v))
    {vs : List Term} {cs : List Code} {r : ShapeMatch} (hvs : ∀ u ∈ vs, u.Evaluated)
    (hcs : List.Forall₂ (wary optimize).Lags cs vs)
    (hr : AllMatch HeadsTo (Shape.ofPatterns ps) cs r) (hlength : vs.length = ps.length) :
    r = .stuck ∨ (wary optimize).Agrees r (Pattern.captureAll? ps vs) := by
  induction ps generalizing vs cs r with
  | nil =>
    obtain rfl := List.length_eq_zero_iff.1 hlength
    cases hcs
    simp only [Shape.ofPatterns, AllMatch] at hr
    subst hr
    exact .inr (.matched .nil)
  | cons p ps ih =>
    obtain _ | ⟨hc, hcs⟩ := hcs
    · cases hlength
    rw [List.forall_mem_cons] at h hvs
    rw [Shape.ofPatterns, AllMatch] at hr
    obtain ⟨first, hfirst, hr⟩ := hr
    rw [Pattern.captureAll?]
    rcases h.1 _ _ _ hvs.1 hc hfirst with rfl | hagrees
    · exact .inl hr
    generalize hcaptured : p.capture? _ = captured at hagrees
    cases hagrees with
    | matched hbindings =>
      obtain ⟨others, hothers, rfl⟩ := hr
      rcases ih h.2 hvs.2 hcs hothers (Nat.succ.inj hlength) with rfl | hagrees
      · exact .inl rfl
      · exact .inr (hagrees.prepend hbindings)
    | failed =>
      subst hr
      exact .inr .failed

/-- Unless it is stuck, matching code has the outcome that matching the value has. -/
theorem wary_matches {p : Pattern} {v : Term} {c : Code} {r : ShapeMatch} (hv : v.Evaluated)
    (hc : (wary optimize).Lags c v) (hr : Matches HeadsTo (Shape.ofPattern p) c r) :
    r = .stuck ∨ (wary optimize).Agrees r (p.capture? v) := by
  induction p using Pattern.induct generalizing v c r with
  | var x =>
    rw [Shape.ofPattern, Matches] at hr
    subst hr
    exact .inr (.matched (.cons hc .nil))
  | lit l =>
    rw [Shape.ofPattern, Matches] at hr
    obtain ⟨w, hw, rfl⟩ := hr
    have hplain := hc.of_plain hv (shown hv).1.hopeless hw
    rw [matchLiteral, Pattern.capture?]
    rcases hspine : w.spine with ⟨x | ⟨found | op | name | shapes⟩ | combinator | ⟨f, a⟩, args⟩
    case const.lit =>
      cases args with
      | nil =>
        obtain rfl := hc.eq_lit hv (shown hv).1.hopeless hw (literal?_eq_some_iff.2 hspine)
        simp only [Term.literal?, Option.some.injEq]
        split
        · exact .inr (.matched .nil)
        · exact .inr .failed
      | cons _ _ => exact .inl rfl
    case const.ctor =>
      obtain ⟨k, vs, -, rfl, -, himage, -⟩ := hplain (plain_of_spine_ctor hspine)
      rw [hspine] at himage
      cases himage
      rw [Term.literal?_apply_ctor, if_neg (Option.some_ne_none l).symm]
      exact .inr .failed
    all_goals exact .inl rfl
  | ctor name subs ih =>
    rw [Shape.ofPattern, Matches] at hr
    obtain ⟨w, hw, hr⟩ := hr
    have hplain := hc.of_plain hv (shown hv).1.hopeless hw
    rw [Pattern.capture?]
    rcases hspine : w.spine with ⟨x | ⟨l | op | found | shapes⟩ | combinator | ⟨f, a⟩, args⟩ <;>
      rw [hspine] at hr
    case const.lit =>
      obtain ⟨k, vs, hk, rfl, -, himage, -⟩ := hplain (plain_of_spine_lit hspine)
      rw [hspine] at himage
      cases himage
      cases hr
      rw [hk.spine_apply, if_neg (by simp)]
      exact .inr .failed
    case const.ctor =>
      obtain ⟨k, vs, hk, rfl, hvs, himage, hargs⟩ := hplain (plain_of_spine_ctor hspine)
      rw [hspine] at himage hargs
      cases himage
      rw [hk.spine_apply]
      dsimp only at hr hargs ⊢
      rw [hargs.length_eq, Shape.ofPatterns_eq_map, List.length_map] at hr
      simp only [Term.ctor.injEq]
      split at hr
      · rename_i hname
        rw [if_pos hname]
        rw [← Shape.ofPatterns_eq_map] at hr
        exact wary_allMatch_of (fun p hp v c r hv hc hr => ih p hp hv hc hr) hvs hargs hr hname.2
      · rename_i hname
        rw [if_neg hname]
        exact .inr (hr ▸ .failed)
    all_goals exact .inl hr

/-- The function that the reducer selects is that of the case the evaluator takes. -/
theorem wary_selects {v t : Term} {c selected : Code} {cases : List (Pattern × Term)}
    {functions : List Code} {bindings : Table String Term} (hv : v.Evaluated)
    (hc : (wary optimize).Lags c v)
    (hselected : Selects HeadsTo c (cases.map fun e => Shape.ofPattern e.1) functions
      (some selected))
    (hfunctions : List.Forall₂ (Delays Hopeless fun _ => True) functions
      (cases.map (Term.caseCode optimize)))
    (hmatch : v.firstMatch cases = some (bindings, t)) (s : Supply) :
    (wary optimize).Lags selected (t.substMany bindings s).1 := by
  induction cases generalizing functions with
  | nil => cases hmatch
  | cons e cases ih =>
    obtain ⟨p, body⟩ := e
    obtain _ | ⟨hfunction, hfunctions⟩ := hfunctions
    rw [List.map_cons, Selects] at hselected
    obtain ⟨r, hr, hselected⟩ := hselected
    rw [Term.firstMatch, Pattern.match?_eq] at hmatch
    rcases wary_matches hv hc hr with rfl | hagrees
    · cases hselected
    generalize hcaptured : p.capture? v = captured at hagrees hmatch
    cases hagrees with
    | matched hbindings =>
      cases hselected
      cases hmatch
      exact lags_caseCode idles_hopeless hcaptured hfunction hbindings s
    | failed => exact ih hselected hfunctions hmatch

/-! ### Agreement -/

theorem wary_lawful (optimize : Bool) : (wary optimize).Lawful where
  idles := idles_hopeless
  function _ _ := trivial
  recursion _ := trivial
  computed {op a b l ca cb} ha hb hl hca hcb := by
    have hwaits : ¬ Waits (.const (.prim (.binary op))) [ca, cb].length := Nat.lt_irrefl 2
    rcases contracts_or_hopeless rfl not_plain_prim hwaits with ⟨c, hc⟩ | h
    · obtain ⟨wa, wb, l', hwa, hwb, hl', rfl⟩ := stepsTo_binary hc
      cases hl.symm.trans (Shown.onTerms ha hb (shown ha).1 (shown hb).1 hca hcb hwa hwb hl')
      exact .leaf ((contracts_apply_iff rfl).2 hc).reduces rfl
    · exact .idle h
  negated {b ca} hca := by
    have hwaits : ¬ Waits (.const (.prim .not)) [ca].length := Nat.lt_irrefl 1
    rcases contracts_or_hopeless rfl not_plain_prim hwaits with ⟨c, hc⟩ | h
    · obtain ⟨wa, b', hwa, hb', rfl⟩ := stepsTo_not hc
      cases (shown (.lit _)).1.eq_truth (.lit _) hca hwa hb'
      exact .leaf ((contracts_apply_iff rfl).2 hc).reduces rfl
    · exact .idle h
  branch {b ca yes no v} hca hv := by
    have hwaits : ¬ Waits (.const (.prim .cond)) [ca, yes, no].length := Nat.lt_irrefl 3
    rcases contracts_or_hopeless rfl not_plain_prim hwaits with ⟨c, hc⟩ | h
    · obtain ⟨wa, b', hwa, hb', rfl⟩ := stepsTo_cond hc
      cases (shown (.lit _)).1.eq_truth (.lit _) hca hwa hb'
      exact .of_reduces idles_hopeless ((contracts_apply_iff rfl).2 hc).reduces hv
    · exact .idle h
  select {a t cases bindings ca functions} s ha _ _ hmatch hca hfunctions := by
    have hlength : functions.length = (cases.map fun e => Shape.ofPattern e.1).length := by
      rw [hfunctions.length_eq, List.length_map, List.length_map]
    have hwaits : ¬ Waits (.const (.case (cases.map fun e => Shape.ofPattern e.1)))
        (ca :: functions).length := by
      rw [List.length_cons, hlength]
      exact Nat.not_succ_le_self _
    rcases contracts_or_hopeless rfl not_plain_case hwaits with ⟨c, hc⟩ | h
    · obtain ⟨wa, hwa, hselected⟩ := stepsTo_case hlength hc
      have hlags := hca.headsTo ha (shown ha).1.hopeless hwa
      exact .of_reduces idles_hopeless ((contracts_apply_iff rfl).2 hc).reduces
        (wary_selects ha hlags hselected hfunctions hmatch s)
    · exact .idle h

end Reading

/-- **The reducer never contradicts the evaluator.**  If the term has a value and its code reduces
    to data, then the value is data, and what the code reduces to is its image. -/
theorem Term.reduction_agrees {t v : Term} {fuel fuel' : Nat} {optimize : Bool} {code c : Code}
    (heval : t.eval? fuel .empty = some (.ok v)) (hcompile : t.compile optimize = .ok code)
    (hreduce : code.reduce? fuel' = some (.ok c)) (hdata : c.isData) :
    v.isData ∧ Images v c := by
  obtain ⟨⟨_, s⟩, hrun, rfl⟩ := Option.map_eq_some_iff.1 heval
  have hevaluates := Evaluates.of_evaluate hrun
  rw [compile_eq] at hcompile
  cases hcompile
  have hlags := (Reading.wary_lawful optimize).simulation hevaluates (fun _ _ => trivial)
    (Delays.refl _)
  have himages := (Reading.shown hevaluates.evaluated).1.data _ c hlags
    (normalizesTo_iff_reduce?.2 ⟨fuel', hreduce⟩) hdata
  exact ⟨himages.isData_eq ▸ hdata, himages⟩

/-- The branch that is not taken is stuck. -/
theorem reduction_agrees_branch :
    let t : Term := .cond (.binary .le (.lit (.int 1)) (.lit (.int 2)))
      (.app (.app (.ctor "Cons") (.binary .add (.lit (.int 1)) (.lit (.int 1)))) (.ctor "Nil"))
      (.not (.lit (.int 5)))
    let v : Term := .app (.app (.ctor "Cons") (.lit (.int 2))) (.ctor "Nil")
    let code := Code.apply (.const (.prim .cond))
      [.apply (.const (.prim (.binary .le))) [.const (.lit (.int 1)), .const (.lit (.int 2))],
        .apply (.const (.ctor "Cons"))
          [.apply (.const (.prim (.binary .add))) [.const (.lit (.int 1)), .const (.lit (.int 1))],
            .const (.ctor "Nil")],
        .app (.const (.prim .not)) (.const (.lit (.int 5)))]
    let c := Code.apply (.const (.ctor "Cons")) [.const (.lit (.int 2)), .const (.ctor "Nil")]
    t.eval? 5 .empty = some (.ok v) ∧ t.compile true = .ok code ∧
      code.reduce? 5 = some (.ok c) ∧ c.isData ∧ v.isData ∧ Images v c := by
  intro t v code c
  have heval : t.eval? 5 .empty = some (.ok v) := by decide +kernel
  have hcompile : t.compile true = .ok code := by decide +kernel
  have hreduce : code.reduce? 5 = some (.ok c) := by decide +kernel
  exact ⟨heval, hcompile, hreduce, rfl, Term.reduction_agrees heval hcompile hreduce rfl⟩

end CoreCalculus
