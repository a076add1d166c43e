/-
  CoreCalculus/Proofs/TwinReduction.lean
  ======================================
  **Twins go in step.**

  A rule looks at literals and constructors, and twins whose heads show have the same ones.
  So what a rule makes of one spine it makes of the other, up to twins
  (`HeadTwins.step`): a leaf has the same rule, functions are contracted to what realizes
  their bodies, and an equation that stays does so on both sides.

  Operands are forced on the way.  That both twins get to a head normal form is known of
  operands by induction over the nested reductions (`HeadFollows`).  Equality
  normalizes its operands, and there the two normal forms may be different code: what is
  known is that the other one exists, and that it is the same if one of them is data
  (`Followed`).  Otherwise the equation stays, and is a twin of the other for that reason.
-/
import CoreCalculus.Proofs.Twins

namespace CoreCalculus

namespace Code

variable {o o' : Bool}

/-! ### What twins show -/

theorem not_plain_function {x : String} {b : Code} {args : List Code} :
    ¬ ((b.abstract o x).spine.1.apply args).Plain := by
  obtain ⟨combinator, -, hhead, -⟩ := isFunction_abstract o x b
  rw [hhead, plain_apply_iff]
  exact not_plain_comb rfl

theorem Inert.not_plain {c : Code} (h : Inert c) (args : List Code) :
    ¬ (c.apply args).Plain := by
  cases h
  rw [plain_apply_iff, plain_apply_iff]
  exact not_plain_prim

namespace HeadTwins

variable {s s' : Code}

/-- The same leaf at the head, or neither a literal nor a constructor. -/
theorem spine_cases (h : HeadTwins o o' s s') :
    (∃ head as as', s.spine = (head, as) ∧ s'.spine = (head, as') ∧
      List.Forall₂ (Twins o o') as as') ∨ (¬ s.Plain ∧ ¬ s'.Plain) := by
  cases h with
  | leaf hleaf has =>
    exact .inl ⟨_, _, _, spine_apply_of_leaf hleaf _, spine_apply_of_leaf hleaf _, has⟩
  | function x => exact .inr ⟨not_plain_function, not_plain_function⟩
  | inert hc hc' => exact .inr ⟨hc.not_plain _, hc'.not_plain _⟩

theorem literal?_eq (h : HeadTwins o o' s s') : s.literal? = s'.literal? := by
  rcases h.spine_cases with ⟨head, as, as', hs, hs', has⟩ | ⟨hs, hs'⟩
  · refine literal?_congr ?_ ?_ <;> rw [hs, hs']
    exact has.length_eq
  · rw [Option.eq_none_iff_forall_ne_some.2 fun l hl => hs (plain_of_literal? hl),
      Option.eq_none_iff_forall_ne_some.2 fun l hl => hs' (plain_of_literal? hl)]

theorem truth?_eq (h : HeadTwins o o' s s') : s.truth? = s'.truth? := by
  rw [truth?, truth?, h.literal?_eq]

end HeadTwins

/-! ### What follows for a twin -/

/-- Data on either side is the same data. -/
def SameData (d d' : Code) : Prop := d.isData ∨ d'.isData → d = d'

/-- With heads that are neither literals nor constructors, neither side is data. -/
theorem sameData_of_not_plain {w w' : Code} (h : ¬ w.Plain) (h' : ¬ w'.Plain)
    (ds ds' : List Code) : SameData (w.spine.1.apply ds) (w'.spine.1.apply ds') := by
  have hnot : ∀ {w : Code}, ¬ w.Plain → ∀ ds, ¬ (w.spine.1.apply ds).isData := by
    intro w hw ds hdata
    have hplain := (plain_of_isData hdata).1
    rw [plain_apply_iff, Plain, spine_spine] at hplain
    exact hw hplain
  rintro (hdata | hdata)
  · exact absurd hdata (hnot h ds)
  · exact absurd hdata (hnot h' ds')

/-- Whatever twin the code comes to have, that one gets to a twin of the head normal form. -/
def HeadFollows (o o' : Bool) (c w : Code) : Prop :=
  ∀ s s', Reduces c s → HeadTwins o o' s s' → ∃ w', HeadsTo s' w' ∧ HeadTwins o o' w w'

theorem HeadFollows.twins {c c' w : Code} (h : HeadFollows o o' c w) (hc : Twins o o' c c') :
    ∃ w', HeadsTo c' w' ∧ HeadTwins o o' w w' := by
  obtain ⟨s, s', hs, hs', htwins⟩ := hc.view
  obtain ⟨w', hw', hw⟩ := h s s' hs htwins
  exact ⟨w', hs'.headsTo_iff.2 hw', hw⟩

/-- Every twin of the code normalizes, and so for the arguments of its head normal form. -/
inductive Followed (o o' : Bool) : Code → Code → Prop
  | intro {c w : Code} {ds : List Code} : HeadsTo c w →
      List.Forall₂ (Followed o o') w.spine.2 ds →
      (∀ c', Twins o o' c c' → ∃ d', NormalizesTo c' d' ∧ SameData (w.spine.1.apply ds) d') →
      Followed o o' c (w.spine.1.apply ds)

theorem Followed.twins {c c' d : Code} (h : Followed o o' c d) (hc : Twins o o' c c') :
    ∃ d', NormalizesTo c' d' ∧ SameData d d' := by
  cases h with
  | intro _ _ h => exact h c' hc

/-- The arguments that the code has after head reduction are followed. -/
theorem Followed.args {c d head : Code} {args : List Code} (h : Followed o o' c d)
    (hleaf : head.spine = (head, [])) (hc : HeadsTo c (head.apply args)) :
    ∃ ds, List.Forall₂ (Followed o o') args ds := by
  cases h with
  | intro hw hds =>
    cases hw.unique hc
    rw [spine_apply_of_leaf hleaf] at hds
    exact ⟨_, hds⟩

/-! ### Matching -/

/-- The same outcome, with twins for bindings. -/
inductive TwinMatch (o o' : Bool) : ShapeMatch → ShapeMatch → Prop
  | matched {bindings bindings' : List Code} : List.Forall₂ (Twins o o') bindings bindings' →
      TwinMatch o o' (.matched bindings) (.matched bindings')
  | failed : TwinMatch o o' .failed .failed
  | stuck : TwinMatch o o' .stuck .stuck

theorem TwinMatch.prepend {bindings bindings' : List Code} {r r' : ShapeMatch}
    (hbindings : List.Forall₂ (Twins o o') bindings bindings') (h : TwinMatch o o' r r') :
    TwinMatch o o' (r.prepend bindings) (r'.prepend bindings') := by
  cases h with
  | matched hmore => exact .matched (List.rel_append hbindings hmore)
  | failed => exact .failed
  | stuck => exact .stuck

theorem matchLiteral_of_not_plain {w : Code} {l : Literal} (h : ¬ w.Plain) :
    matchLiteral l w = .stuck := by
  rw [matchLiteral]
  rcases hspine : w.spine with ⟨x | ⟨found | op | name | shapes⟩ | combinator | ⟨f, a⟩, args⟩
  case const.lit => exact absurd (plain_of_spine_lit hspine) h
  case const.ctor => exact absurd (plain_of_spine_ctor hspine) h
  all_goals rfl

theorem HeadTwins.matchLiteral {w w' : Code} (h : HeadTwins o o' w w') (l : Literal) :
    TwinMatch o o' (matchLiteral l w) (matchLiteral l w') := by
  rcases h.spine_cases with ⟨head, as, as', hw, hw', has⟩ | ⟨hw, hw'⟩
  · rw [Code.matchLiteral, Code.matchLiteral, hw, hw']
    rcases head with x | ⟨found | op | name | shapes⟩ | combinator | ⟨f, a⟩
    case const.lit =>
      cases has with
      | nil =>
        dsimp only
        split
        · exact .matched .nil
        · exact .failed
      | cons => exact .stuck
    case const.ctor => exact .failed
    all_goals exact .stuck
  · rw [matchLiteral_of_not_plain hw, matchLiteral_of_not_plain hw']
    exact .stuck

section

variable {H N : Code → Code → Prop}

theorem AllMatch.follow_of {subs : List Shape}
    (h : ∀ shape ∈ subs, ∀ c c' r, Matches H shape c r → Twins o o' c c' →
      ∃ r', Matches HeadsTo shape c' r' ∧ TwinMatch o o' r r')
    {as as' : List Code} {r : ShapeMatch} (hr : AllMatch H subs as r)
    (has : List.Forall₂ (Twins o o') as as') :
    ∃ r', AllMatch HeadsTo subs as' r' ∧ TwinMatch o o' r r' := by
  induction subs generalizing as as' r with
  | nil =>
    simp only [AllMatch] at hr ⊢
    subst hr
    exact ⟨_, rfl, .matched .nil⟩
  | cons shape subs ih =>
    cases has with
    | nil =>
      simp only [AllMatch] at hr ⊢
      subst hr
      exact ⟨_, rfl, .matched .nil⟩
    | cons ha has =>
      rw [List.forall_mem_cons] at h
      rw [AllMatch] at hr
      simp only [AllMatch]
      obtain ⟨first, hfirst, hr⟩ := hr
      obtain ⟨first', hfirst', htwins⟩ := h.1 _ _ _ hfirst ha
      cases htwins with
      | @matched bindings bindings' hbindings =>
        obtain ⟨others, hothers, rfl⟩ := hr
        obtain ⟨others', hothers', hmore⟩ := ih h.2 hothers has
        exact ⟨_, ⟨.matched bindings', hfirst', others', hothers', rfl⟩, hmore.prepend hbindings⟩
      | failed =>
        subst hr
        exact ⟨_, ⟨.failed, hfirst', rfl⟩, .failed⟩
      | stuck =>
        subst hr
        exact ⟨_, ⟨.stuck, hfirst', rfl⟩, .stuck⟩

variable (hH : ∀ c w, H c w → HeadFollows o o' c w)
include hH

/-- Twins match a shape in the same way. -/
theorem Matches.follow {shape : Shape} {c c' : Code} {r : ShapeMatch} (h : Matches H shape c r)
    (hc : Twins o o' c c') : ∃ r', Matches HeadsTo shape c' r' ∧ TwinMatch o o' r r' := by
  induction shape using Shape.induct generalizing c c' r with
  | bind =>
    simp only [Matches] at h ⊢
    subst h
    exact ⟨_, rfl, .matched (.cons hc .nil)⟩
  | lit l =>
    simp only [Matches] at h ⊢
    obtain ⟨w, hw, rfl⟩ := h
    obtain ⟨w', hw', htwins⟩ := (hH c w hw).twins hc
    exact ⟨_, ⟨w', hw', rfl⟩, htwins.matchLiteral l⟩
  | ctor name subs ih =>
    simp only [Matches] at h ⊢
    obtain ⟨w, hw, hr⟩ := h
    obtain ⟨w', hw', htwins⟩ := (hH c w hw).twins hc
    suffices hmatch : ∃ r', _ ∧ TwinMatch o o' r r' from
      hmatch.imp fun r' hr' => ⟨⟨w', hw', hr'.1⟩, hr'.2⟩
    rcases htwins.spine_cases with ⟨head, as, as', hspine, hspine', has⟩ | ⟨hplain, hplain'⟩
    · rw [hspine] at hr
      rw [hspine']
      rcases head with x | ⟨found | op | found | shapes⟩ | combinator | ⟨f, a⟩
      case const.ctor =>
        dsimp only at hr ⊢
        rw [← has.length_eq]
        split at hr
        · rename_i hname
          simp only [if_pos hname]
          exact AllMatch.follow_of (fun shape hshape c c' r => ih shape hshape) hr has
        · rename_i hname
          simp only [if_neg hname]
          subst hr
          exact ⟨_, rfl, .failed⟩
      case const.lit =>
        cases hr
        exact ⟨_, rfl, .failed⟩
      all_goals
        cases hr
        exact ⟨_, rfl, .stuck⟩
    · refine ⟨.stuck, ?_, ?_⟩
      · rcases hspine' : w'.spine with
          ⟨x | ⟨found | op | found | shapes⟩ | combinator | ⟨f, a⟩, args⟩
        case const.lit => exact absurd (plain_of_spine_lit hspine') hplain'
        case const.ctor => exact absurd (plain_of_spine_ctor hspine') hplain'
        all_goals rfl
      · rcases hspine : w.spine with
          ⟨x | ⟨found | op | found | shapes⟩ | combinator | ⟨f, a⟩, args⟩ <;> rw [hspine] at hr
        case const.lit => exact absurd (plain_of_spine_lit hspine) hplain
        case const.ctor => exact absurd (plain_of_spine_ctor hspine) hplain
        all_goals
          cases hr
          exact .stuck

/-- The same function is selected for twins. -/
theorem Selects.follow {a a' : Code} {shapes : List Shape} {functions functions' : List Code}
    {selected : Option Code} (h : Selects H a shapes functions selected) (ha : Twins o o' a a')
    (hfunctions : List.Forall₂ (Twins o o') functions functions') :
    ∃ selected', Selects HeadsTo a' shapes functions' selected' ∧
      Option.Rel (Twins o o') selected selected' := by
  induction shapes generalizing functions functions' with
  | nil => simp [Selects] at h
  | cons shape shapes ih =>
    cases hfunctions with
    | nil => simp [Selects] at h
    | cons hfunction hfunctions =>
      simp only [Selects] at h ⊢
      obtain ⟨r, hr, h⟩ := h
      obtain ⟨r', hr', htwins⟩ := hr.follow hH ha
      cases htwins with
      | matched hbindings =>
        subst h
        exact ⟨_, ⟨_, hr', rfl⟩, .some (hfunction.apply hbindings)⟩
      | failed =>
        obtain ⟨selected', hselected', hrel⟩ := ih h hfunctions
        exact ⟨selected', ⟨_, hr', hselected'⟩, hrel⟩
      | stuck =>
        subst h
        exact ⟨none, ⟨_, hr', rfl⟩, .none⟩

/-! ### One step -/

end

/-- The same step, up to twins. -/
inductive TwinStep (o o' : Bool) : Step → Step → Prop
  | contracted {c c' : Code} : Twins o o' c c' → TwinStep o o' (.contracted c) (.contracted c')
  | stuck {w w' : Code} : HeadTwins o o' w w' → TwinStep o o' (.stuck w) (.stuck w')

namespace TwinStep

variable {as as' rest rest' : List Code} {rebuilt rebuilt' : Code}

theorem comb (combinator : Combinator) (has : List.Forall₂ (Twins o o') as as') :
    TwinStep o o' (contractComb combinator as) (contractComb combinator as') := by
  cases combinator with
  | i =>
    rcases has with _ | ⟨hx, hrest⟩
    · exact .stuck (.leaf rfl .nil)
    · exact .contracted (hx.apply hrest)
  | k =>
    rcases has with _ | ⟨hx, _ | ⟨_, hrest⟩⟩
    · exact .stuck (.leaf rfl .nil)
    · exact .stuck (.leaf rfl (.cons hx .nil))
    · exact .contracted (hx.apply hrest)
  | y =>
    rcases has with _ | ⟨hf, _ | ⟨hx, hrest⟩⟩
    · exact .stuck (.leaf rfl .nil)
    · exact .stuck (.leaf rfl (.cons hf .nil))
    · exact .contracted (((hf.app ((Twins.leaf rfl).app hf)).app hx).apply hrest)
  | s =>
    rcases has with _ | ⟨hx, _ | ⟨hy, _ | ⟨hz, hrest⟩⟩⟩
    · exact .stuck (.leaf rfl .nil)
    · exact .stuck (.leaf rfl (.cons hx .nil))
    · exact .stuck (.leaf rfl (.cons hx (.cons hy .nil)))
    · exact .contracted (((hx.app hz).app (hy.app hz)).apply hrest)
  | b =>
    rcases has with _ | ⟨hx, _ | ⟨hy, _ | ⟨hz, hrest⟩⟩⟩
    · exact .stuck (.leaf rfl .nil)
    · exact .stuck (.leaf rfl (.cons hx .nil))
    · exact .stuck (.leaf rfl (.cons hx (.cons hy .nil)))
    · exact .contracted ((hx.app (hy.app hz)).apply hrest)
  | c =>
    rcases has with _ | ⟨hx, _ | ⟨hy, _ | ⟨hz, hrest⟩⟩⟩
    · exact .stuck (.leaf rfl .nil)
    · exact .stuck (.leaf rfl (.cons hx .nil))
    · exact .stuck (.leaf rfl (.cons hx (.cons hy .nil)))
    · exact .contracted (((hx.app hz).app hy).apply hrest)

theorem ofLiteral? (l? : Option Literal)
    (hrebuilt : HeadTwins o o' (rebuilt.apply rest) (rebuilt'.apply rest'))
    (hrest : List.Forall₂ (Twins o o') rest rest') :
    TwinStep o o' (.ofLiteral? rebuilt rest l?) (.ofLiteral? rebuilt' rest' l?) := by
  cases l? with
  | none => exact .stuck hrebuilt
  | some l => exact .contracted ((Twins.leaf rfl).apply hrest)

theorem ofCode? {c? c'? : Option Code} (hc : Option.Rel (Twins o o') c? c'?)
    (hrebuilt : HeadTwins o o' (rebuilt.apply rest) (rebuilt'.apply rest'))
    (hrest : List.Forall₂ (Twins o o') rest rest') :
    TwinStep o o' (.ofCode? rebuilt rest c?) (.ofCode? rebuilt' rest' c'?) := by
  cases hc with
  | none => exact .stuck hrebuilt
  | some hc => exact .contracted (hc.apply hrest)

end TwinStep

/-- Operators other than equality see no difference. -/
theorem HeadTwins.onCode {op : BinaryOp} (hop : op ≠ .eq) {a a' b b' : Code} {l? : Option Literal}
    (ha : HeadTwins o o' a a') (hb : HeadTwins o o' b b') (h : op.onCode a b = .ok l?) :
    op.onCode a' b' = .ok l? := by
  cases l? with
  | none =>
    rw [BinaryOp.onCode_eq_none_iff hop] at h ⊢
    rwa [← ha.literal?_eq, ← hb.literal?_eq]
  | some l =>
    rw [BinaryOp.onCode_compute_iff hop] at h ⊢
    rwa [← ha.literal?_eq, ← hb.literal?_eq]

/-- What is equal is decided for both, or for neither. -/
theorem TwinStep.equality {a a' b b' : Code} {rest rest' : List Code} {l? : Option Literal}
    (ha : Normal a) (ha' : Normal a') (hb : Normal b) (hb' : Normal b') (hsame : SameData a a')
    (hsame' : SameData b b') (hrest : List.Forall₂ (Twins o o') rest rest')
    (h : BinaryOp.eq.onCode a b = .ok l?) : BinaryOp.eq.onCode a' b' = .ok l? ∧
      TwinStep o o' (.ofLiteral? (apply (.const (.prim (.binary .eq))) [a, b]) rest l?)
        (.ofLiteral? (apply (.const (.prim (.binary .eq))) [a', b']) rest' l?) := by
  by_cases hdata : a.isData ∧ b.isData
  · obtain rfl := hsame (.inl hdata.1)
    obtain rfl := hsame' (.inl hdata.2)
    refine ⟨h, ?_⟩
    cases h.symm.trans (BinaryOp.onCode_eq_some_iff.2 ⟨hdata.1, hdata.2, rfl⟩)
    exact .contracted ((Twins.leaf rfl).apply hrest)
  · have hdata' : ¬ (a'.isData ∧ b'.isData) := by
      rintro ⟨hda, hdb⟩
      obtain rfl := hsame (.inr hda)
      obtain rfl := hsame' (.inr hdb)
      exact hdata ⟨hda, hdb⟩
    cases h.symm.trans (BinaryOp.onCode_eq_none hdata)
    exact ⟨BinaryOp.onCode_eq_none hdata', .stuck (.inert (.intro ha hb hdata)
      (.intro ha' hb' hdata') hrest)⟩

section

variable {H N : Code → Code → Prop} (hH : ∀ c w, H c w → HeadFollows o o' c w)
  (hN : ∀ c d, N c d → NormalizesTo c d ∧ Followed o o' c d)
include hH hN

/-- A rule applies to twins in the same way. -/
theorem Rule.follow {head : Code} {as as' : List Code} {r : Step} (h : Rule H N head as r)
    (hleaf : head.spine = (head, [])) (has : List.Forall₂ (Twins o o') as as') :
    ∃ r', StepsTo head as' r' ∧ TwinStep o o' r r' := by
  cases h with
  | comb hargs => exact ⟨_, .comb (has.length_eq ▸ hargs), .comb _ has⟩
  | @binary op a wa b wb l? rest ha hb hl =>
    obtain _ | ⟨hta, _ | ⟨htb, hrest⟩⟩ := has
    by_cases hop : op = .eq
    · subst hop
      rw [if_pos rfl] at ha hb
      obtain ⟨hda, hfa⟩ := hN a wa ha
      obtain ⟨hdb, hfb⟩ := hN b wb hb
      obtain ⟨wa', hwa', hsame⟩ := hfa.twins hta
      obtain ⟨wb', hwb', hsame'⟩ := hfb.twins htb
      obtain ⟨hl', hstep⟩ := TwinStep.equality hda.normal hwa'.normal hdb.normal hwb'.normal
        hsame hsame' hrest hl
      exact ⟨_, .binary _ hwa' hwb' hl', hstep⟩
    · rw [if_neg hop] at ha hb
      obtain ⟨wa', hwa', hheads⟩ := (hH a wa ha).twins hta
      obtain ⟨wb', hwb', hheads'⟩ := (hH b wb hb).twins htb
      refine ⟨_, .binary _ ?_ ?_ (hheads.onCode hop hheads' hl), .ofLiteral? l? ?_ hrest⟩
      · rwa [if_neg hop]
      · rwa [if_neg hop]
      · exact .leaf hleaf (.cons hheads.twins (.cons hheads'.twins hrest))
  | @not a wa rest ha =>
    obtain _ | ⟨hta, hrest⟩ := has
    obtain ⟨wa', hwa', hheads⟩ := (hH a wa ha).twins hta
    refine ⟨_, .not _ hwa', ?_⟩
    rw [hheads.truth?_eq]
    exact .ofLiteral? _ (.leaf hleaf (.cons hheads.twins hrest)) hrest
  | @cond test wtest yes no rest htest =>
    obtain _ | ⟨hta, _ | ⟨hyes, _ | ⟨hno, hrest⟩⟩⟩ := has
    obtain ⟨wtest', hwtest', hheads⟩ := (hH test wtest htest).twins hta
    refine ⟨_, .cond _ _ _ hwtest', ?_⟩
    refine .ofCode? ?_ (.leaf hleaf (.cons hheads.twins (.cons hyes (.cons hno hrest)))) hrest
    rw [hheads.truth?_eq]
    rcases wtest'.truth? with _ | _ | _
    · exact .none
    · exact .some hno
    · exact .some hyes
  | @case shapes a wa functions selected rest hlength ha hselected =>
    cases has with
    | @cons _ a' _ others' hta hothers =>
      obtain ⟨wa', hwa', hheads⟩ := (hH a wa ha).twins hta
      -- the functions, and what they are applied to afterwards
      have hfunctions := (List.forall₂_take_append _ functions rest hothers.flip).flip
      have hrest := (List.forall₂_drop_append _ functions rest hothers.flip).flip
      have hlength' : (others'.take functions.length).length = shapes.length := by
        rw [← hfunctions.length_eq, hlength]
      obtain ⟨selected', hselected', hrel⟩ := hselected.follow hH hheads.twins hfunctions
      rw [← List.take_append_drop functions.length others']
      refine ⟨_, .case _ hlength' hwa' hselected', .ofCode? hrel ?_ hrest⟩
      rw [← apply_append, ← apply_append]
      exact .leaf hleaf (.cons hheads.twins (List.rel_append hfunctions hrest))
  | waiting hwaits => exact ⟨_, .waiting (has.length_eq ▸ hwaits), .stuck (.leaf hleaf has)⟩

end

/-! #### Functions, and equations that stay -/

/-- A function stays as long as it lacks its argument. -/
theorem Realizes.stays {ρ : String → Code} {x : String} {b : Code} {gs : List Code}
    (hgs : List.Forall₂ (Realizes ρ) gs (b.abstract o x).spine.2) :
    Stays ((b.abstract o x).spine.1.apply gs) ((b.abstract o x).spine.1.apply gs) := by
  rw [stays_self_iff (spine_spine _)]
  exact .waiting (hgs.length_eq ▸ (isFunction_abstract o x b).waits)

/-- The arguments that follow are applied to what realizes the body. -/
theorem Realizes.contract_rest {ρ : String → Code} {x : String} {b : Code} {gs : List Code}
    (hgs : List.Forall₂ (Realizes ρ) gs (b.abstract o x).spine.2) (a : Code) (rest : List Code) :
    ∃ c, Contracts ((b.abstract o x).spine.1.apply (gs ++ a :: rest)) (c.apply rest) ∧
      Realizes (Function.update ρ x a) c b := by
  obtain ⟨c, hc, hrealizes⟩ := Realizes.contract hgs a
  refine ⟨c, ?_, hrealizes⟩
  have hrest := hc.apply rest
  rwa [← apply_append, List.append_assoc] at hrest

theorem Inert.stays {c : Code} (h : Inert c) (rest : List Code) :
    Stays (c.apply rest) (c.apply rest) := by
  cases h with
  | intro ha hb hdata =>
    rw [← apply_append, stays_self_iff rfl]
    exact .binary rest ha.normalizesTo hb.normalizesTo (BinaryOp.onCode_eq_none hdata)

theorem Twins.update {ρ ρ' : String → Code} {a a' : Code} (hρ : ∀ y, Twins o o' (ρ y) (ρ' y))
    (ha : Twins o o' a a') (x y : String) :
    Twins o o' (Function.update ρ x a y) (Function.update ρ' x a' y) := by
  by_cases hyx : y = x
  · subst hyx
    rwa [Function.update_self, Function.update_self]
  · rw [Function.update_of_ne hyx, Function.update_of_ne hyx]
    exact hρ y

section

variable {H N : Code → Code → Prop} (hH : ∀ c w, H c w → HeadsTo c w ∧ HeadFollows o o' c w)
  (hN : ∀ c d, N c d → NormalizesTo c d ∧ Followed o o' c d)
include hH hN

/-- **Twins go in step.** -/
theorem HeadTwins.step {s s' : Code} {r : Step} (h : HeadTwins o o' s s')
    (hr : Rule H N s.spine.1 s.spine.2 r) :
    ∃ r', StepsTo s'.spine.1 s'.spine.2 r' ∧ TwinStep o o' r r' := by
  have hstep : StepsTo s.spine.1 s.spine.2 r :=
    hr.mono (fun c w h => (hH c w h).1) fun c d h => (hN c d h).1
  have hheads := h
  cases h with
  | leaf hleaf has =>
    rw [spine_apply_of_leaf hleaf] at hr ⊢
    exact hr.follow (fun c w h => (hH c w h).2) hN hleaf has
  | @function ρ ρ' b b' gs gs' _ _ x hb hρ hgs hgs' has =>
    cases has with
    | nil =>
      rw [List.append_nil, List.append_nil] at hheads
      rw [List.append_nil] at hstep ⊢
      cases hstep.unique (Realizes.stays hgs)
      exact ⟨_, Realizes.stays hgs', .stuck hheads⟩
    | @cons a a' rest rest' ha hrest =>
      obtain ⟨c, hc, hrealizes⟩ := Realizes.contract_rest hgs a rest
      obtain ⟨c', hc', hrealizes'⟩ := Realizes.contract_rest hgs' a' rest'
      cases hstep.unique hc
      exact ⟨_, hc', .contracted
        (Twins.apply (.closure hb (Twins.update hρ ha x) hrealizes hrealizes') hrest)⟩
  | inert hc hc' has =>
    cases hstep.unique (hc.stays _)
    exact ⟨_, hc'.stays _, .stuck hheads⟩

/-- What a head normal form is, every twin of the code gets to. -/
theorem headFollows_of {c w : Code} (h : Rule H N c.spine.1 c.spine.2 (.stuck w) ∨
    ∃ c', Rule H N c.spine.1 c.spine.2 (.contracted c') ∧ H c' w) : HeadFollows o o' c w := by
  have hmono : ∀ {r}, Rule H N c.spine.1 c.spine.2 r → StepsTo c.spine.1 c.spine.2 r :=
    fun hr => hr.mono (fun c w h => (hH c w h).1) fun c d h => (hN c d h).1
  intro s s' hs htwins
  rcases Relation.ReflTransGen.cases_head hs with rfl | ⟨c₁, hc₁, hs⟩
  · rcases h with hstays | ⟨c', hc', hw⟩
    · obtain ⟨r', hr', hstep⟩ := htwins.step hH hN hstays
      cases hstep with
      | stuck hw => exact ⟨_, Stays.headsTo hr', hw⟩
    · obtain ⟨r', hr', hstep⟩ := htwins.step hH hN hc'
      cases hstep with
      | contracted hnext =>
        obtain ⟨w', hw', hheads⟩ := (hH c' w hw).2.twins hnext
        exact ⟨w', headsTo_iff.2 (.inr ⟨_, hr', hw'⟩), hheads⟩
  · -- the code is still on its way to where the heads show
    rcases h with hstays | ⟨c', hc', hw⟩
    · cases StepsTo.unique hc₁ (hmono hstays)
    · cases StepsTo.unique hc₁ (hmono hc')
      exact (hH _ w hw).2 s s' hs htwins

end

end Code

end CoreCalculus
