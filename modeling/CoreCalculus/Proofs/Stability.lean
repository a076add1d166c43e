/-
  CoreCalculus/Proofs/Stability.lean
  ==================================
  **What reduction ends in stays as it is.**

  A rule looks at the head of a spine and at as many arguments as it takes, so it applies
  in the same way when more arguments follow (`Rule.append`).  Head reduction is the
  closure of its contractions, and code may be reduced at the head before or after it is
  given arguments (`HeadsTo.apply_iff`).

  A spine that stays is rebuilt from its forced operands.  Forced again, these are what
  they were: the kind of code that an operand is (a literal, a constructor with arguments, something
  else) is settled by head reduction and survives normalization, and that is all that a
  rule asks of it.  So head normal forms are their own head normal forms and normal forms
  their own normal forms, by induction over the nested reductions (`reduction_stable`).
-/
import Mathlib.Logic.Relation
import CoreCalculus.Proofs.HeadReduction
import CoreCalculus.Proofs.Operators

namespace CoreCalculus

open Code

/-- A step of a spine that more arguments follow. -/
def Step.append : Step → List Code → Step
  | .contracted c, rest => .contracted (c.apply rest)
  | .stuck w, rest => .stuck (w.apply rest)

theorem Step.append_ofLiteral? (rebuilt : Code) (rest more : List Code) (l? : Option Literal) :
    (Step.ofLiteral? rebuilt rest l?).append more = .ofLiteral? rebuilt (rest ++ more) l? := by
  cases l? <;> rw [ofLiteral?, ofLiteral?, append, apply_append]

theorem Step.append_ofCode? (rebuilt : Code) (rest more : List Code) (c? : Option Code) :
    (Step.ofCode? rebuilt rest c?).append more = .ofCode? rebuilt (rest ++ more) c? := by
  cases c? <;> rw [ofCode?, ofCode?, append, apply_append]

namespace Code

/-! ### Leaves -/

theorem spine_spine (c : Code) : c.spine.1.spine = (c.spine.1, []) := by
  induction c with
  | app f a ihf _ => exact ihf
  | _ => rfl

/-- A leaf and its arguments. -/
theorem spine_apply_of_leaf {head : Code} (hleaf : head.spine = (head, [])) (args : List Code) :
    (head.apply args).spine = (head, args) := by
  rw [spine_apply, hleaf]
  rfl

theorem apply_inj_of_leaf {head : Code} (hleaf : head.spine = (head, [])) {args args' : List Code}
    (h : head.apply args = head.apply args') : args = args' := by
  have hspine := congrArg spine h
  rw [spine_apply_of_leaf hleaf, spine_apply_of_leaf hleaf] at hspine
  exact congrArg Prod.snd hspine

theorem literal?_eq_some_iff {c : Code} {l : Literal} :
    c.literal? = some l ↔ c.spine = (.const (.lit l), []) := by
  cases c with
  | const k => cases k <;> simp [literal?, spine]
  | _ => simp [literal?, spine]

theorem literal?_apply_eq_none {head : Code} (hleaf : head.spine = (head, []))
    (hhead : head.literal? = none) (args : List Code) : (head.apply args).literal? = none := by
  refine Option.eq_none_iff_forall_ne_some.2 fun l hl => ?_
  rw [literal?_eq_some_iff, spine_apply_of_leaf hleaf] at hl
  obtain ⟨rfl, -⟩ := Prod.mk.inj hl
  cases hhead

/-- Whether code is a literal is seen on its spine. -/
theorem literal?_congr {c d : Code} (hhead : d.spine.1 = c.spine.1)
    (hlength : d.spine.2.length = c.spine.2.length) : d.literal? = c.literal? := by
  refine Option.ext fun l => ?_
  simp only [literal?_eq_some_iff, Prod.ext_iff, hhead, ← List.length_eq_zero_iff, hlength]

/-! ### More arguments -/

section

variable {H N H' N' : Code → Code → Prop}

theorem Rule.append {head : Code} {args : List Code} {s : Step} (h : Rule H N head args s)
    (hwaits : ¬ head.Waits args.length) (more : List Code) :
    Rule H N head (args ++ more) (s.append more) := by
  cases h with
  | @comb combinator _ hargs =>
    obtain ⟨c, hc⟩ := exists_contractComb hargs
    have hnow := hc []
    rw [List.append_nil] at hnow
    have hmore : (contractComb combinator args).append more =
        contractComb combinator (args ++ more) := by
      rw [hnow, hc more]
      rfl
    rw [hmore]
    refine .comb (hargs.trans ?_)
    rw [List.length_append]
    exact Nat.le_add_right _ _
  | binary rest ha hb hl =>
    rw [Step.append_ofLiteral?]
    exact .binary _ ha hb hl
  | not rest ha =>
    rw [Step.append_ofLiteral?]
    exact .not _ ha
  | cond yes no rest htest =>
    rw [Step.append_ofCode?]
    exact .cond yes no _ htest
  | case rest hlength ha hselected =>
    rw [Step.append_ofCode?, List.cons_append, List.append_assoc]
    exact .case _ hlength ha hselected
  | waiting h => exact absurd h hwaits

/-! ### More forced operands -/

theorem AllMatch.mono_of {subs : List Shape}
    (h : ∀ shape ∈ subs, ∀ c r, Matches H shape c r → Matches H' shape c r) {args : List Code}
    {r : ShapeMatch} (hr : AllMatch H subs args r) : AllMatch H' subs args r := by
  induction subs generalizing args r with
  | nil => simpa [AllMatch] using hr
  | cons shape subs ih =>
    cases args with
    | nil => simpa [AllMatch] using hr
    | cons arg args =>
      rw [List.forall_mem_cons] at h
      rw [AllMatch] at hr ⊢
      obtain ⟨first, hfirst, hr⟩ := hr
      refine ⟨first, h.1 arg first hfirst, ?_⟩
      cases first with
      | matched bindings =>
        obtain ⟨others, hothers, hr⟩ := hr
        exact ⟨others, ih h.2 hothers, hr⟩
      | failed => exact hr
      | stuck => exact hr

theorem Matches.mono (hH : ∀ c w, H c w → H' c w) {shape : Shape} {c : Code} {r : ShapeMatch}
    (h : Matches H shape c r) : Matches H' shape c r := by
  induction shape using Shape.induct generalizing c r with
  | bind => simpa [Matches] using h
  | lit l =>
    rw [Matches] at h ⊢
    obtain ⟨w, hw, hr⟩ := h
    exact ⟨w, hH c w hw, hr⟩
  | ctor name subs ih =>
    rw [Matches] at h ⊢
    obtain ⟨w, hw, hr⟩ := h
    refine ⟨w, hH c w hw, ?_⟩
    revert hr
    rcases w.spine with ⟨x | ⟨l | op | found | shapes⟩ | combinator | ⟨f, a⟩, args⟩ <;> intro hr
    case const.ctor =>
      dsimp only at hr ⊢
      split at hr
      · rename_i hname
        rw [if_pos hname]
        exact AllMatch.mono_of (fun shape hshape c r => ih shape hshape) hr
      · rename_i hname
        rw [if_neg hname]
        exact hr
    all_goals exact hr

theorem Selects.mono (hH : ∀ c w, H c w → H' c w) {subject : Code} {shapes : List Shape}
    {functions : List Code} {selected : Option Code}
    (h : Selects H subject shapes functions selected) :
    Selects H' subject shapes functions selected := by
  induction shapes generalizing functions with
  | nil => simp [Selects] at h
  | cons shape shapes ih =>
    cases functions with
    | nil => simp [Selects] at h
    | cons function functions =>
      rw [Selects] at h ⊢
      obtain ⟨r, hr, h⟩ := h
      refine ⟨r, hr.mono hH, ?_⟩
      cases r with
      | matched bindings => exact h
      | failed => exact ih h
      | stuck => exact h

theorem Rule.mono (hH : ∀ c w, H c w → H' c w) (hN : ∀ c d, N c d → N' c d) {head : Code}
    {args : List Code} {s : Step} (h : Rule H N head args s) : Rule H' N' head args s := by
  have hforce : ∀ {op : BinaryOp} {a a' : Code}, (if op = .eq then N a a' else H a a') →
      if op = .eq then N' a a' else H' a a' := by
    intro op a a' ha
    split at ha
    · rename_i hop
      rw [if_pos hop]
      exact hN a a' ha
    · rename_i hop
      rw [if_neg hop]
      exact hH a a' ha
  cases h with
  | comb hargs => exact .comb hargs
  | binary rest ha hb hl => exact .binary rest (hforce ha) (hforce hb) hl
  | not rest ha => exact .not rest (hH _ _ ha)
  | cond yes no rest htest => exact .cond yes no rest (hH _ _ htest)
  | case rest hlength ha hselected => exact .case rest hlength (hH _ _ ha) (hselected.mono hH)
  | waiting h => exact .waiting h

end

/-! ### Head reduction as a closure -/

theorem Contracts.apply {c c' : Code} (h : Contracts c c') (args : List Code) :
    Contracts (c.apply args) (c'.apply args) := by
  rw [Contracts, spine_apply]
  refine Rule.append h (fun hwaits => ?_) args
  cases StepsTo.unique h (.waiting hwaits)

def Reduces : Code → Code → Prop := Relation.ReflTransGen Contracts

theorem Reduces.refl (c : Code) : Reduces c c := Relation.ReflTransGen.refl

theorem Reduces.trans {c c' c'' : Code} (h : Reduces c c') (h' : Reduces c' c'') :
    Reduces c c'' := Relation.ReflTransGen.trans h h'

theorem Contracts.reduces {c c' : Code} (h : Contracts c c') : Reduces c c' := .single h

theorem Reduces.apply {c c' : Code} (h : Reduces c c') (args : List Code) :
    Reduces (c.apply args) (c'.apply args) := by
  induction h with
  | refl => exact .refl _
  | tail _ hstep ih => exact ih.trans (hstep.apply args).reduces

/-- What head reduction answers is not changed by a contraction. -/
theorem Contracts.yields_iff {c c' : Code} (h : Contracts c c') {r : Except ReduceError Code} :
    Yields (fun n => headNormal n c) r ↔ Yields (fun n => headNormal n c') r := by
  have hregular := regular_step regular_headNormal regular_normalize c.spine.1 c.spine.2
  have hstep : Yields (fun n => step (headNormal n) (normalize n) c.spine.1 c.spine.2)
      (.ok (.contracted c')) := (yields_step_iff regular_headNormal regular_normalize).2 h
  have hbody : Yields (fun n => headNormal n c) r ↔ Yields (fun n => headNormal (n + 1) c) r :=
    (yields_succ_iff fun _ => rfl).symm
  rw [hbody]
  refine (yields_bind_iff hregular (regular_proceed regular_headNormal)).trans ⟨?_, fun hr =>
    .inr ⟨_, hstep, (yields_contracted_iff regular_headNormal).2 hr⟩⟩
  rintro (⟨e, he, -⟩ | ⟨s, hs, hr⟩)
  · cases hregular.yields_unique hstep he
  · cases hregular.yields_unique hstep hs
    exact (yields_contracted_iff regular_headNormal).1 hr

/-- Reduction at the head leads to the same answer. -/
theorem Reduces.yields_iff {c c' : Code} (h : Reduces c c') {r : Except ReduceError Code} :
    Yields (fun n => headNormal n c) r ↔ Yields (fun n => headNormal n c') r := by
  induction h with
  | refl => rfl
  | tail _ hstep ih => exact ih.trans hstep.yields_iff

theorem Reduces.headsTo_iff {c c' w : Code} (h : Reduces c c') : HeadsTo c w ↔ HeadsTo c' w :=
  h.yields_iff

theorem Stays.headsTo {c w : Code} (h : Stays c w) : HeadsTo c w := headsTo_iff.2 (.inl h)

/-- Head reduction contracts until the spine stays. -/
theorem HeadsTo.exists_stays {c w : Code} (h : HeadsTo c w) : ∃ s, Reduces c s ∧ Stays s w := by
  refine (reduction_induct (P := fun c w => ∃ s, Reduces c s ∧ Stays s w) (Q := fun _ _ => True)
    ?_ (fun _ _ _ _ _ _ _ _ _ => trivial)).1 c w h
  rintro H N hH hN c w (hstays | ⟨c', hc', hw⟩)
  · exact ⟨c, .refl c, hstays.mono (fun c w h => (hH c w h).1) fun c d h => (hN c d h).1⟩
  · obtain ⟨s, hs, hstays⟩ := (hH c' w hw).2
    have hcontracts : Contracts c c' :=
      hc'.mono (fun c w h => (hH c w h).1) fun c d h => (hN c d h).1
    exact ⟨s, hcontracts.reduces.trans hs, hstays⟩

theorem contracts_apply_iff {head : Code} (hleaf : head.spine = (head, [])) {args : List Code}
    {c : Code} : Contracts (head.apply args) c ↔ StepsTo head args (.contracted c) := by
  rw [Contracts, spine_apply_of_leaf hleaf]

/-! ### Normal forms -/

/-- The spine stays as it is, and so do those of its arguments. -/
inductive Normal : Code → Prop
  | intro {d : Code} : Stays d d → (∀ a ∈ d.spine.2, Normal a) → Normal d

theorem Normal.headsTo {d : Code} (h : Normal d) : HeadsTo d d := by
  cases h with
  | intro hstays _ => exact hstays.headsTo

theorem Normal.args {d : Code} (h : Normal d) : ∀ a ∈ d.spine.2, Normal a := by
  cases h with
  | intro _ hargs => exact hargs

theorem Normal.normalizesTo {d : Code} (h : Normal d) : NormalizesTo d d := by
  induction h with
  | @intro d hstays _ ih =>
    exact normalizesTo_iff.2
      ⟨d, hstays.headsTo, d.spine.2, List.forall₂_same.2 ih, (apply_spine d).symm⟩

/-- Normalization keeps the head of a head normal form and normalizes its arguments. -/
theorem NormalizesTo.spine {c w d : Code} (h : NormalizesTo c d) (hw : HeadsTo c w) :
    d.spine.1 = w.spine.1 ∧ List.Forall₂ NormalizesTo w.spine.2 d.spine.2 := by
  obtain ⟨w', hw', ds, hds, rfl⟩ := normalizesTo_iff.1 h
  cases hw.unique hw'
  rw [spine_apply_of_leaf (spine_spine w)]
  exact ⟨rfl, hds⟩

theorem NormalizesTo.literal? {c w d : Code} (h : NormalizesTo c d) (hw : HeadsTo c w) :
    d.literal? = w.literal? := by
  obtain ⟨hhead, hargs⟩ := h.spine hw
  exact literal?_congr hhead hargs.length_eq.symm

/-! #### Matching normal forms -/

/-- The same outcome, with whatever bindings. -/
inductive SameOutcome : ShapeMatch → ShapeMatch → Prop
  | matched (bindings bindings' : List Code) : SameOutcome (.matched bindings) (.matched bindings')
  | failed : SameOutcome .failed .failed
  | stuck : SameOutcome .stuck .stuck

theorem AllMatch.normalized_of {subs : List Shape}
    (h : ∀ shape ∈ subs, ∀ c d r, Matches HeadsTo shape c r → NormalizesTo c d → Normal d →
      ∃ r', Matches HeadsTo shape d r' ∧ SameOutcome r r')
    {args ds : List Code} {r : ShapeMatch} (hr : AllMatch HeadsTo subs args r)
    (hargs : List.Forall₂ NormalizesTo args ds) (hds : ∀ d ∈ ds, Normal d) :
    ∃ r', AllMatch HeadsTo subs ds r' ∧ SameOutcome r r' := by
  induction subs generalizing args ds r with
  | nil =>
    simp only [AllMatch] at hr ⊢
    exact ⟨_, rfl, hr ▸ .matched _ _⟩
  | cons shape subs ih =>
    rw [List.forall_mem_cons] at h
    cases hargs with
    | nil =>
      simp only [AllMatch] at hr ⊢
      exact ⟨_, rfl, hr ▸ .matched _ _⟩
    | cons harg hargs =>
      rw [List.forall_mem_cons] at hds
      rw [AllMatch] at hr
      obtain ⟨first, hfirst, hr⟩ := hr
      obtain ⟨first', hfirst', hsame⟩ := h.1 _ _ _ hfirst harg hds.1
      simp only [AllMatch]
      cases hsame with
      | matched bindings bindings' =>
        obtain ⟨others, hothers, rfl⟩ := hr
        obtain ⟨others', hothers', hsame⟩ := ih h.2 hothers hargs hds.2
        refine ⟨_, ⟨.matched bindings', hfirst', others', hothers', rfl⟩, ?_⟩
        cases hsame with
        | matched => exact .matched _ _
        | failed => exact .failed
        | stuck => exact .stuck
      | failed => exact ⟨_, ⟨.failed, hfirst', rfl⟩, hr ▸ .failed⟩
      | stuck => exact ⟨_, ⟨.stuck, hfirst', rfl⟩, hr ▸ .stuck⟩

/-- A normal form matches as the code did. -/
theorem Matches.normalized {shape : Shape} {c d : Code} {r : ShapeMatch}
    (h : Matches HeadsTo shape c r) (hnormalizes : NormalizesTo c d) (hd : Normal d) :
    ∃ r', Matches HeadsTo shape d r' ∧ SameOutcome r r' := by
  induction shape using Shape.induct generalizing c d r with
  | bind =>
    simp only [Matches] at h ⊢
    exact ⟨_, rfl, h ▸ .matched _ _⟩
  | lit l =>
    rw [Matches] at h
    simp only [Matches]
    obtain ⟨w, hw, rfl⟩ := h
    refine ⟨_, ⟨d, hd.headsTo, rfl⟩, ?_⟩
    obtain ⟨hhead, hargs⟩ := hnormalizes.spine hw
    rw [matchLiteral, matchLiteral]
    rcases hdspine : d.spine with ⟨head, ds⟩
    rcases hwspine : w.spine with ⟨head', args⟩
    rw [hdspine, hwspine] at hhead hargs
    cases hhead
    cases hargs with
    | nil =>
      rcases head with x | ⟨found | op | name | shapes⟩ | combinator | ⟨f, a⟩
      case const.lit =>
        dsimp only
        split
        · exact .matched _ _
        · exact .failed
      case const.ctor => exact .failed
      all_goals exact .stuck
    | cons _ _ =>
      rcases head with x | ⟨found | op | name | shapes⟩ | combinator | ⟨f, a⟩
      case const.ctor => exact .failed
      all_goals exact .stuck
  | ctor name subs ih =>
    rw [Matches] at h
    simp only [Matches]
    obtain ⟨w, hw, hr⟩ := h
    obtain ⟨hhead, hargs⟩ := hnormalizes.spine hw
    have hds := hd.args
    suffices hd : ∃ r', _ ∧ SameOutcome r r' from
      hd.imp fun r' hr' => ⟨⟨d, Normal.headsTo ‹_›, hr'.1⟩, hr'.2⟩
    rcases hdspine : d.spine with ⟨head, ds⟩
    rcases hwspine : w.spine with ⟨head', args⟩
    rw [hdspine, hwspine] at hhead hargs
    rw [hdspine] at hds
    rw [hwspine] at hr
    cases hhead
    rcases head with x | ⟨found | op | found | shapes⟩ | combinator | ⟨f, a⟩
    case const.ctor =>
      dsimp only at hr hargs hds ⊢
      rw [hargs.length_eq] at hr
      split at hr
      · rename_i hname
        simp only [if_pos hname]
        exact AllMatch.normalized_of (fun shape hshape c d r => ih shape hshape) hr hargs hds
      · rename_i hname
        simp only [if_neg hname]
        exact ⟨_, rfl, hr ▸ .failed⟩
    case const.lit => exact ⟨_, rfl, hr ▸ .failed⟩
    all_goals exact ⟨_, rfl, hr ▸ .stuck⟩

theorem Selects.normalized {c d : Code} {shapes : List Shape} {functions functions' : List Code}
    (h : Selects HeadsTo c shapes functions none) (hnormalizes : NormalizesTo c d) (hd : Normal d)
    (hlength : functions'.length = functions.length) :
    Selects HeadsTo d shapes functions' none := by
  induction shapes generalizing functions functions' with
  | nil => simp [Selects] at h
  | cons shape shapes ih =>
    cases functions with
    | nil => simp [Selects] at h
    | cons function functions =>
      cases functions' with
      | nil => cases hlength
      | cons function' functions' =>
        rw [Selects] at h ⊢
        obtain ⟨r, hr, h⟩ := h
        obtain ⟨r', hr', hsame⟩ := hr.normalized hnormalizes hd
        refine ⟨r', hr', ?_⟩
        cases hsame with
        | matched => cases h
        | failed => exact ih h (Nat.succ.inj hlength)
        | stuck => rfl

/-! #### Stuck spines -/

theorem contractComb_ne_stuck {combinator : Combinator} {args : List Code} {w : Code}
    (h : combinator.arity ≤ args.length) : contractComb combinator args ≠ .stuck w := by
  obtain ⟨c, hc⟩ := exists_contractComb h
  have hnow := hc []
  rw [List.append_nil] at hnow
  rw [hnow]
  nofun

/-- A spine stays, and its arguments are forced to others. -/
inductive Sticks (H N : Code → Code → Prop) : Code → List Code → List Code → Prop
  | waiting {head : Code} {args : List Code} : head.Waits args.length → Sticks H N head args args
  | binary {op : BinaryOp} {a a' b b' : Code} (rest : List Code) :
      (if op = .eq then N a a' else H a a') → (if op = .eq then N b b' else H b b') →
      op.onCode a' b' = .ok none →
      Sticks H N (.const (.prim (.binary op))) (a :: b :: rest) (a' :: b' :: rest)
  | not {a a' : Code} (rest : List Code) : H a a' → a'.truth? = none →
      Sticks H N (.const (.prim .not)) (a :: rest) (a' :: rest)
  | cond {test test' : Code} (yes no : Code) (rest : List Code) : H test test' →
      test'.truth? = none →
      Sticks H N (.const (.prim .cond)) (test :: yes :: no :: rest) (test' :: yes :: no :: rest)
  | case {shapes : List Shape} {a a' : Code} {functions : List Code} (rest : List Code) :
      functions.length = shapes.length → H a a' → Selects H a' shapes functions none →
      Sticks H N (.const (.case shapes)) (a :: (functions ++ rest)) (a' :: (functions ++ rest))

theorem Sticks.length_eq {H N : Code → Code → Prop} {head : Code} {args forced : List Code}
    (h : Sticks H N head args forced) : forced.length = args.length := by
  cases h <;> rfl

theorem rule_stuck_iff {H N : Code → Code → Prop} {head : Code} {args : List Code} {w : Code} :
    Rule H N head args (.stuck w) ↔ ∃ forced, Sticks H N head args forced ∧
      w = head.apply forced := by
  constructor
  · intro h
    generalize hs : Step.stuck w = s at h
    cases h with
    | comb hargs => exact absurd hs.symm (contractComb_ne_stuck hargs)
    | @binary op a a' b b' l? rest ha hb hl =>
      cases l? <;> cases hs
      exact ⟨_, .binary rest ha hb hl, (apply_append _ _ _).symm⟩
    | @not a a' rest ha =>
      rcases htruth : a'.truth? with _ | b <;> rw [htruth] at hs <;> cases hs
      exact ⟨_, .not rest ha htruth, (apply_append _ _ _).symm⟩
    | @cond test test' yes no rest htest =>
      rcases htruth : test'.truth? with _ | b <;> rw [htruth] at hs <;> cases hs
      exact ⟨_, .cond yes no rest htest htruth, (apply_append _ _ _).symm⟩
    | @case shapes a a' functions selected rest hlength ha hselected =>
      cases selected <;> cases hs
      exact ⟨_, .case rest hlength ha hselected, (apply_append _ _ _).symm⟩
    | waiting hwaits =>
      cases hs
      exact ⟨args, .waiting hwaits, rfl⟩
  · rintro ⟨forced, h, rfl⟩
    cases h with
    | waiting hwaits => exact .waiting hwaits
    | @binary op a a' b b' rest ha hb hnone =>
      have hrule := Rule.binary (H := H) (N := N) rest ha hb hnone
      rwa [Step.ofLiteral?, ← apply_append] at hrule
    | @not a a' rest ha hnone =>
      have hrule := Rule.not (H := H) (N := N) rest ha
      rwa [hnone, Option.map_none, Step.ofLiteral?, ← apply_append] at hrule
    | @cond test test' yes no rest htest hnone =>
      have hrule := Rule.cond (H := H) (N := N) yes no rest htest
      rwa [hnone, Option.map_none, Step.ofCode?, ← apply_append] at hrule
    | case rest hlength ha hnone =>
      have hrule := Rule.case (H := H) (N := N) rest hlength ha hnone
      rwa [Step.ofCode?, ← apply_append] at hrule

theorem stays_iff {c w : Code} :
    Stays c w ↔ ∃ forced, Sticks HeadsTo NormalizesTo c.spine.1 c.spine.2 forced ∧
      w = c.spine.1.apply forced := rule_stuck_iff

/-- A spine that stays as it is. -/
theorem stays_self_iff {head : Code} (hleaf : head.spine = (head, [])) {args : List Code} :
    Stays (head.apply args) (head.apply args) ↔ Sticks HeadsTo NormalizesTo head args args := by
  rw [stays_iff, spine_apply_of_leaf hleaf]
  constructor
  · rintro ⟨forced, h, heq⟩
    cases apply_inj_of_leaf hleaf heq
    exact h
  · exact fun h => ⟨args, h, rfl⟩

/-- Forced operands that are what they are forced to. -/
theorem Sticks.settle {H N : Code → Code → Prop} (hH : ∀ c w, H c w → HeadsTo c w ∧ HeadsTo w w)
    (hN : ∀ c d, N c d → NormalizesTo d d) {head : Code} {args forced : List Code}
    (h : Sticks H N head args forced) : Sticks HeadsTo NormalizesTo head forced forced := by
  have hforce : ∀ {op : BinaryOp} {a a' : Code}, (if op = .eq then N a a' else H a a') →
      if op = .eq then NormalizesTo a' a' else HeadsTo a' a' := by
    intro op a a' ha
    split at ha
    · rename_i hop
      rw [if_pos hop]
      exact hN a a' ha
    · rename_i hop
      rw [if_neg hop]
      exact (hH a a' ha).2
  cases h with
  | waiting hwaits => exact .waiting hwaits
  | binary rest ha hb hnone => exact .binary rest (hforce ha) (hforce hb) hnone
  | not rest ha hnone => exact .not rest (hH _ _ ha).2 hnone
  | cond yes no rest htest hnone => exact .cond yes no rest (hH _ _ htest).2 hnone
  | case rest hlength ha hnone =>
    exact .case rest hlength (hH _ _ ha).2 (hnone.mono fun c w h => (hH c w h).1)

/-- A spine that stays as it is still does so with its arguments normalized. -/
theorem Sticks.normalized {head : Code} {args forced ds : List Code}
    (h : Sticks HeadsTo NormalizesTo head args forced) (hself : forced = args)
    (hargs : List.Forall₂ NormalizesTo args ds) (hds : ∀ d ∈ ds, Normal d) :
    Sticks HeadsTo NormalizesTo head ds ds := by
  have htruth : ∀ {a d : Code}, HeadsTo a a → NormalizesTo a d → a.truth? = none →
      d.truth? = none := fun ha hd hnone => by
    rwa [truth?, hd.literal? ha]
  cases h with
  | waiting hwaits => exact .waiting (hargs.length_eq ▸ hwaits)
  | @binary op a a' b b' rest ha hb hnone =>
    cases hself
    rcases hargs with _ | ⟨had, _ | ⟨hbd, hrest⟩⟩
    simp only [List.forall_mem_cons] at hds
    obtain ⟨hda, hdb, -⟩ := hds
    by_cases hop : op = .eq
    · -- equality has normalized its operands already
      rw [if_pos hop] at ha hb
      cases ha.unique had
      cases hb.unique hbd
      refine .binary _ ?_ ?_ hnone <;> rw [if_pos hop]
      · exact ha
      · exact hb
    · rw [if_neg hop] at ha hb
      refine .binary _ ?_ ?_ ?_
      · rw [if_neg hop]
        exact hda.headsTo
      · rw [if_neg hop]
        exact hdb.headsTo
      · rw [BinaryOp.onCode_eq_none_iff hop] at hnone ⊢
        rwa [had.literal? ha, hbd.literal? hb]
  | not rest ha hnone =>
    cases hself
    rcases hargs with _ | ⟨had, hrest⟩
    rw [List.forall_mem_cons] at hds
    exact .not _ hds.1.headsTo (htruth ha had hnone)
  | cond yes no rest htest hnone =>
    cases hself
    rcases hargs with _ | ⟨htd, _ | ⟨-, _ | ⟨-, -⟩⟩⟩
    rw [List.forall_mem_cons] at hds
    exact .cond _ _ _ hds.1.headsTo (htruth htest htd hnone)
  | @case shapes a a' functions rest hlength ha hnone =>
    obtain rfl := (List.cons.inj hself).1
    rcases hargs with _ | ⟨had, hargs⟩
    rw [List.forall_mem_cons] at hds
    rename_i d ds
    have hle : functions.length ≤ ds.length := by
      rw [← hargs.length_eq, List.length_append]
      exact Nat.le_add_right _ _
    have htake : (ds.take functions.length).length = functions.length := by
      rw [List.length_take, Nat.min_eq_left hle]
    rw [← List.take_append_drop functions.length ds]
    exact .case _ (htake.trans hlength) hds.1.headsTo (hnone.normalized had hds.1 htake)

/-- **What reduction ends in stays as it is.** -/
theorem reduction_stable :
    (∀ c w, HeadsTo c w → Stays w w) ∧ ∀ c d, NormalizesTo c d → Normal d := by
  refine reduction_induct (fun H N hH hN c w h => ?_) fun H N hH hN c w ds hw hds => ?_
  · rcases h with hstays | ⟨c', -, hw⟩
    · obtain ⟨forced, hsticks, rfl⟩ := rule_stuck_iff.1 hstays
      exact (stays_self_iff (spine_spine c)).2 <| hsticks.settle
        (fun c w h => ⟨(hH c w h).1, (hH c w h).2.headsTo⟩) fun c d h => (hN c d h).2.normalizesTo
    · exact (hH c' w hw).2
  · have hleaf := spine_spine w
    obtain ⟨hnormal, hargs⟩ := (List.forall₂_and_left ds w.spine.2).1
      (hds.flip.imp fun d a h => (hN a d h).symm)
    have hstays : Stays (w.spine.1.apply w.spine.2) (w.spine.1.apply w.spine.2) := by
      rw [apply_spine]
      exact (hH c w hw).2
    have hsticks := ((stays_self_iff hleaf).1 hstays).normalized rfl
      hargs.flip hnormal
    refine .intro ((stays_self_iff hleaf).2 hsticks) ?_
    rw [spine_apply_of_leaf hleaf]
    exact hnormal

theorem HeadsTo.stays {c w : Code} (h : HeadsTo c w) : Stays w w := reduction_stable.1 c w h

theorem NormalizesTo.normal {c d : Code} (h : NormalizesTo c d) : Normal d :=
  reduction_stable.2 c d h

/-! ### Head reduction before application -/

theorem Stays.apply {c w : Code} (h : Stays c w) (hwaits : ¬ c.spine.1.Waits c.spine.2.length)
    (args : List Code) : Stays (c.apply args) (w.apply args) := by
  rw [Stays, spine_apply]
  exact Rule.append h hwaits args

/-- Code may be reduced at the head before it is given arguments: the answer is the same, also when
    it is an error. -/
theorem HeadsTo.yields_apply_iff {c w : Code} (h : HeadsTo c w) (args : List Code)
    {r : Except ReduceError Code} : Yields (fun n => headNormal n (c.apply args)) r ↔
      Yields (fun n => headNormal n (w.apply args)) r := by
  obtain ⟨s, hs, hstays⟩ := h.exists_stays
  rw [(hs.apply args).yields_iff]
  by_cases hwaits : s.spine.1.Waits s.spine.2.length
  · -- nothing was forced
    cases StepsTo.unique hstays (.waiting hwaits)
    rw [apply_spine]
  · -- the same operands are forced before and after the arguments come, to the same
    have hself := h.stays
    obtain ⟨forced, hsticks, rfl⟩ := stays_iff.1 hstays
    have hw : HeadsTo _ _ := (hstays.apply hwaits args).headsTo
    have hw' : HeadsTo _ _ := (hself.apply (by
      rwa [spine_apply_of_leaf (spine_spine s), hsticks.length_eq]) args).headsTo
    have hunique : ∀ {c : Code}, HeadsTo c ((s.spine.1.apply forced).apply args) →
        (Yields (fun n => headNormal n c) r ↔ r = .ok ((s.spine.1.apply forced).apply args)) :=
      fun hc => ⟨fun hr => (regular_headNormal _).yields_unique hr hc, fun hr => hr ▸ hc⟩
    rw [hunique hw, hunique hw']

theorem HeadsTo.apply_iff {c w u : Code} (h : HeadsTo c w) (args : List Code) :
    HeadsTo (c.apply args) u ↔ HeadsTo (w.apply args) u := h.yields_apply_iff args

end Code

end CoreCalculus
