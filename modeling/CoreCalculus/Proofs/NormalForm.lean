/-
  CoreCalculus/Proofs/NormalForm.lean
  ===================================
  **Normal forms are final.**

  A normal form is its own normal form (`Stability.lean`).  Here is what that costs:
  nothing.  The spine of a normal form stays, so its head is not contracted; what the
  reducer forces to see this are arguments of the spine and arguments of those, which are
  normal forms themselves.  So the whole run leaves the counter alone, by induction on the
  normal form (`Normal.still`).  Head normal forms are only their own head normal forms:
  deeper parts of the subject of a case analysis are forced again each time.

  A rule puts together parts of the spine and of forced operands, so reduction mentions no
  name that was not there (`reduction_avoids`).
-/
import CoreCalculus.Proofs.FunctionParts

namespace CoreCalculus

open Code

/-! ### Names -/

/-- What became of a spine, contracted or not. -/
def Step.result : Step → Code
  | .contracted next => next
  | .stuck rebuilt => rebuilt

namespace Code

section

variable {H N : Code → Code → Prop} {xs : List String}

theorem avoids_spine_iff {c : Code} :
    Avoids xs c ↔ Avoids xs c.spine.1 ∧ ∀ a ∈ c.spine.2, Avoids xs a := by
  rw [← avoids_apply_iff, apply_spine]

theorem avoids_const (constant : Constant) : Avoids xs (.const constant) := by simp [Avoids, free]

theorem avoids_comb (combinator : Combinator) : Avoids xs (.comb combinator) := by
  simp [Avoids, free]

theorem contractComb_avoids {combinator : Combinator} {args : List Code}
    (hargs : ∀ a ∈ args, Avoids xs a) : Avoids xs (contractComb combinator args).result := by
  fun_cases contractComb combinator args with
  | case7 => exact avoids_apply_iff.2 ⟨avoids_comb combinator, hargs⟩
  | _ =>
    simp only [List.forall_mem_cons] at hargs
    simp only [Step.result, avoids_apply_iff, avoids_app_iff]
    grind [avoids_comb]

theorem ofLiteral?_avoids {rebuilt : Code} {rest : List Code} (hrebuilt : Avoids xs rebuilt)
    (hrest : ∀ a ∈ rest, Avoids xs a) (l? : Option Literal) :
    Avoids xs (Step.ofLiteral? rebuilt rest l?).result := by
  cases l? with
  | some l => exact avoids_apply_iff.2 ⟨avoids_const _, hrest⟩
  | none => exact avoids_apply_iff.2 ⟨hrebuilt, hrest⟩

theorem ofCode?_avoids {rebuilt : Code} {rest : List Code} {c? : Option Code}
    (hrebuilt : Avoids xs rebuilt) (hrest : ∀ a ∈ rest, Avoids xs a)
    (hc : ∀ c, c? = some c → Avoids xs c) :
    Avoids xs (Step.ofCode? rebuilt rest c?).result := by
  cases c? with
  | some c => exact avoids_apply_iff.2 ⟨hc c rfl, hrest⟩
  | none => exact avoids_apply_iff.2 ⟨hrebuilt, hrest⟩

/-- An operator with its operands. -/
theorem avoids_prim {op : Primitive} {operands : List Code} (h : ∀ a ∈ operands, Avoids xs a) :
    Avoids xs (apply (.const (.prim op)) operands) :=
  avoids_apply_iff.2 ⟨avoids_const _, h⟩

variable (hH : ∀ c w, H c w → Avoids xs c → Avoids xs w)
  (hN : ∀ c d, N c d → Avoids xs c → Avoids xs d)

theorem AllMatch.avoids_of {subs : List Shape}
    (h : ∀ shape ∈ subs, ∀ c bindings, Matches H shape c (.matched bindings) → Avoids xs c →
      ∀ b ∈ bindings, Avoids xs b) {args bindings : List Code}
    (hmatch : AllMatch H subs args (.matched bindings)) (hargs : ∀ a ∈ args, Avoids xs a) :
    ∀ b ∈ bindings, Avoids xs b := by
  induction subs generalizing args bindings with
  | nil =>
    simp only [AllMatch, ShapeMatch.matched.injEq] at hmatch
    simp [hmatch]
  | cons shape subs ih =>
    cases args with
    | nil =>
      simp only [AllMatch, ShapeMatch.matched.injEq] at hmatch
      simp [hmatch]
    | cons a args =>
      rw [List.forall_mem_cons] at h hargs
      rw [AllMatch] at hmatch
      obtain ⟨first, hfirst, hmatch⟩ := hmatch
      cases first with
      | matched first =>
        obtain ⟨others, hothers, heq⟩ := hmatch
        cases others <;> cases heq
        rw [List.forall_mem_append]
        exact ⟨h.1 a first hfirst hargs.1, ih h.2 hothers hargs.2⟩
      | failed => cases hmatch
      | stuck => cases hmatch

include hH

theorem Matches.avoids {shape : Shape} {c : Code} {bindings : List Code}
    (h : Matches H shape c (.matched bindings)) (hc : Avoids xs c) :
    ∀ b ∈ bindings, Avoids xs b := by
  induction shape using Shape.induct generalizing c bindings with
  | bind =>
    rw [Matches, ShapeMatch.matched.injEq] at h
    simpa [h] using hc
  | lit l =>
    rw [Matches] at h
    obtain ⟨w, -, h⟩ := h
    rw [matchLiteral] at h
    split at h
    · split at h <;> cases h
      simp
    · cases h
    · cases h
  | ctor name subs ih =>
    rw [Matches] at h
    obtain ⟨w, hw, h⟩ := h
    have hargs := (avoids_spine_iff.1 (hH c w hw hc)).2
    rcases hspine : w.spine with ⟨x | ⟨l | op | found | shapes⟩ | combinator | ⟨f, a⟩, args⟩ <;>
      rw [hspine] at h hargs
    case const.ctor =>
      dsimp only at h hargs
      split at h
      · exact AllMatch.avoids_of (fun shape hshape c bindings => ih shape hshape) h hargs
      · cases h
    all_goals cases h

theorem Selects.avoids {subject : Code} {shapes : List Shape} {functions : List Code}
    {selected : Code} (h : Selects H subject shapes functions (some selected))
    (hsubject : Avoids xs subject) (hfunctions : ∀ f ∈ functions, Avoids xs f) :
    Avoids xs selected := by
  induction shapes generalizing functions with
  | nil => simp [Selects] at h
  | cons shape shapes ih =>
    cases functions with
    | nil => simp [Selects] at h
    | cons function functions =>
      rw [List.forall_mem_cons] at hfunctions
      rw [Selects] at h
      obtain ⟨r, hr, h⟩ := h
      cases r with
      | matched bindings =>
        cases h
        exact avoids_apply_iff.2 ⟨hfunctions.1, hr.avoids hH hsubject⟩
      | failed => exact ih h hfunctions.2
      | stuck => cases h

include hN

theorem Rule.avoids {head : Code} {args : List Code} {s : Step} (h : Rule H N head args s)
    (hhead : Avoids xs head) (hargs : ∀ a ∈ args, Avoids xs a) : Avoids xs s.result := by
  have hforce : ∀ {op : BinaryOp} {a a' : Code}, (if op = .eq then N a a' else H a a') →
      Avoids xs a → Avoids xs a' := by
    intro op a a' ha
    split at ha
    · exact hN a a' ha
    · exact hH a a' ha
  cases h with
  | comb _ => exact contractComb_avoids hargs
  | @binary op a a' b b' l? rest ha hb _ =>
    simp only [List.forall_mem_cons] at hargs
    obtain ⟨hargsa, hargsb, hrest⟩ := hargs
    exact ofLiteral?_avoids (avoids_prim (by simp [hforce ha hargsa, hforce hb hargsb])) hrest l?
  | @not a a' rest ha =>
    rw [List.forall_mem_cons] at hargs
    exact ofLiteral?_avoids (avoids_prim (by simp [hH _ _ ha hargs.1])) hargs.2 _
  | @cond test test' yes no rest htest =>
    simp only [List.forall_mem_cons] at hargs
    obtain ⟨hargst, hyes, hno, hrest⟩ := hargs
    refine ofCode?_avoids (avoids_prim (by simp [hH _ _ htest hargst, hyes, hno])) hrest
      fun c hc => ?_
    obtain ⟨b, -, rfl⟩ := Option.map_eq_some_iff.1 hc
    cases b
    · exact hno
    · exact hyes
  | @case shapes a a' functions selected rest _ ha hselected =>
    rw [List.forall_mem_cons, List.forall_mem_append] at hargs
    obtain ⟨hargsa, hfunctions, hrest⟩ := hargs
    have ha' := hH _ _ ha hargsa
    refine ofCode?_avoids ?_ hrest fun c hc => ?_
    · exact avoids_apply_iff.2 ⟨avoids_const _, List.forall_mem_cons.2 ⟨ha', hfunctions⟩⟩
    · subst hc
      exact hselected.avoids hH ha' hfunctions
  | waiting _ => exact avoids_apply_iff.2 ⟨hhead, hargs⟩

end

/-- **Reduction mentions no new name.** -/
theorem reduction_avoids (xs : List String) : (∀ c w, HeadsTo c w → Avoids xs c → Avoids xs w) ∧
    ∀ c d, NormalizesTo c d → Avoids xs c → Avoids xs d := by
  refine reduction_induct (fun H N hH hN c w h hc => ?_) fun H N hH hN c w ds hw hds hc => ?_
  · have hrule : ∀ {s : Step}, Rule H N c.spine.1 c.spine.2 s → Avoids xs s.result := fun hs =>
      hs.avoids (fun c w h => (hH c w h).2) (fun c d h => (hN c d h).2) (avoids_spine_iff.1 hc).1
        (avoids_spine_iff.1 hc).2
    rcases h with hstays | ⟨c', hc', hw⟩
    · exact hrule hstays
    · exact (hH c' w hw).2 (hrule hc')
  · obtain ⟨hhead, hargs⟩ := avoids_spine_iff.1 ((hH c w hw).2 hc)
    refine avoids_apply_iff.2 ⟨hhead, ?_⟩
    clear hw
    generalize w.spine.2 = as at hds hargs
    induction hds with
    | nil => exact List.forall_mem_nil _
    | @cons a d as ds had _ ih =>
      rw [List.forall_mem_cons] at hargs ⊢
      exact ⟨(hN a d had).2 hargs.1, ih hargs.2⟩

end Code

/-! ### Runs that contract nothing -/

/-- From some amount of fuel on, the answer is `a`, and nothing is counted. -/
def Quiet {α : Type} (m : Nat → Reduction α) (a : α) : Prop :=
  ∀ k, Settles (fun n => m n k) (.ok a, k)

namespace Quiet

variable {α β : Type} {m : Nat → Reduction α} {f : Nat → α → Reduction β} {a : α} {b : β}

theorem pure (a : α) : Quiet (fun _ => (Pure.pure a : Reduction α)) a :=
  fun _ => .of_forall fun _ => rfl

theorem bind (hm : Quiet m a) (hf : Quiet (fun n => f n a) b) : Quiet (fun n => m n >>= f n) b :=
  fun k => Run.settles_bind (hm k) (hf k)

/-- One unit of fuel more or less does not matter. -/
theorem of_succ (h : Quiet (fun n => m (n + 1)) a) : Quiet m a := fun k => (h k).of_succ

theorem yields (h : Quiet m a) : Yields m (.ok a) := (h 0).exists_eq.imp fun _ hn => ⟨0, hn⟩

end Quiet

namespace Code

/-- Head reduction of the code contracts nothing, nor does head reduction of its arguments, of
    their arguments, and so on. -/
inductive Still : Code → Prop
  | intro {c : Code} : Quiet (fun n => headNormal n c) c → (∀ a ∈ c.spine.2, Still a) → Still c

namespace Still

theorem quiet {c : Code} (h : Still c) : Quiet (fun n => headNormal n c) c := by
  cases h with
  | intro hquiet _ => exact hquiet

theorem args {c : Code} (h : Still c) : ∀ a ∈ c.spine.2, Still a := by
  cases h with
  | intro _ hargs => exact hargs

theorem eq_of_headsTo {c w : Code} (h : Still c) (hw : HeadsTo c w) : w = c :=
  hw.unique h.quiet.yields

theorem quiet_normalize {c : Code} (h : Still c) : Quiet (fun n => normalize n c) c := by
  induction h with
  | @intro c hquiet _ ih =>
    have hargs : ∀ (head : Code) (args : List Code),
        (∀ a ∈ args, Quiet (fun n => normalize n a) a) →
        Quiet (fun n => normalizeArgs (normalize n) head args) (head.apply args) := by
      intro head args h
      induction args generalizing head with
      | nil => exact .pure head
      | cons a args ihargs =>
        rw [List.forall_mem_cons] at h
        exact .bind h.1 (ihargs (head.app a) h.2)
    have hbody := hquiet.bind (f := fun n w => normalizeArgs (normalize n) w.spine.1 w.spine.2)
      (hargs c.spine.1 c.spine.2 ih)
    rw [apply_spine] at hbody
    exact .of_succ hbody

/-! #### Matching -/

theorem quiet_matchShapes_of {subs : List Shape}
    (h : ∀ shape ∈ subs, ∀ c r, Matches HeadsTo shape c r → Still c →
      Quiet (fun n => matchShape (headNormal n) shape c) r) {args : List Code} {r : ShapeMatch}
    (hmatch : AllMatch HeadsTo subs args r) (hargs : ∀ a ∈ args, Still a) :
    Quiet (fun n => matchShapes (headNormal n) subs args) r := by
  induction subs generalizing args r with
  | nil =>
    simp only [AllMatch] at hmatch
    exact hmatch ▸ .pure _
  | cons shape subs ih =>
    cases args with
    | nil =>
      simp only [AllMatch] at hmatch
      exact hmatch ▸ .pure _
    | cons a args =>
      rw [List.forall_mem_cons] at h hargs
      rw [AllMatch] at hmatch
      obtain ⟨first, hfirst, hmatch⟩ := hmatch
      refine .bind (h.1 a first hfirst hargs.1) ?_
      cases first with
      | matched bindings =>
        obtain ⟨others, hothers, rfl⟩ := hmatch
        refine .bind (ih h.2 hothers hargs.2) ?_
        cases others <;> exact .pure _
      | failed =>
        subst hmatch
        exact .pure _
      | stuck =>
        subst hmatch
        exact .pure _

theorem quiet_matchShape {shape : Shape} {c : Code} {r : ShapeMatch}
    (h : Matches HeadsTo shape c r) (hc : Still c) :
    Quiet (fun n => matchShape (headNormal n) shape c) r := by
  induction shape using Shape.induct generalizing c r with
  | bind =>
    rw [Matches] at h
    exact h ▸ .pure _
  | lit l =>
    rw [Matches] at h
    obtain ⟨w, hw, rfl⟩ := h
    cases hc.eq_of_headsTo hw
    refine .bind hc.quiet ?_
    rw [matchLiteral]
    rcases c.spine with
      ⟨x | ⟨l | op | name | shapes⟩ | combinator | ⟨f, a⟩, _ | ⟨arg, args⟩⟩ <;> exact .pure _
  | ctor name subs ih =>
    rw [Matches] at h
    obtain ⟨w, hw, h⟩ := h
    cases hc.eq_of_headsTo hw
    refine .bind hc.quiet ?_
    have hargs := hc.args
    rcases hspine : c.spine with ⟨x | ⟨l | op | found | shapes⟩ | combinator | ⟨f, a⟩, args⟩ <;>
      rw [hspine] at h hargs
    case const.ctor =>
      dsimp only at h hargs ⊢
      split at h
      · rename_i hname
        simp only [if_pos hname]
        exact quiet_matchShapes_of (fun shape hshape c r => ih shape hshape) h hargs
      · rename_i hname
        simp only [if_neg hname]
        exact h ▸ .pure _
    all_goals exact h ▸ .pure _

theorem quiet_selectCase {subject : Code} {shapes : List Shape} {functions : List Code}
    {selected : Option Code} (h : Selects HeadsTo subject shapes functions selected)
    (hsubject : Still subject) :
    Quiet (fun n => selectCase (headNormal n) subject shapes functions) selected := by
  induction shapes generalizing functions with
  | nil => simp [Selects] at h
  | cons shape shapes ih =>
    cases functions with
    | nil => simp [Selects] at h
    | cons function functions =>
      rw [Selects] at h
      obtain ⟨r, hr, h⟩ := h
      refine .bind (quiet_matchShape hr hsubject) ?_
      cases r with
      | matched bindings => exact h ▸ .pure _
      | failed => exact ih h
      | stuck => exact h ▸ .pure _

end Still

/-! #### Spines that stay -/

/-- Nothing is contracted to see that a spine stays as it is, if its arguments are still. -/
theorem Sticks.quiet {head : Code} {args forced : List Code}
    (h : Sticks HeadsTo NormalizesTo head args forced) (hself : forced = args)
    (hargs : ∀ a ∈ args, Still a) :
    Quiet (fun n => step (headNormal n) (normalize n) head args) (.stuck (head.apply args)) := by
  cases h with
  | waiting hwaits =>
    simp only [step_of_waits hwaits]
    exact .pure _
  | @binary op a a' b b' rest ha hb hnone =>
    cases hself
    simp only [List.forall_mem_cons] at hargs
    have hforce : ∀ {c : Code}, Still c →
        Quiet (fun n => (if op = .eq then normalize n else headNormal n) c) c := by
      intro c hc
      split
      · exact hc.quiet_normalize
      · exact hc.quiet
    simp only [step_binary]
    refine .bind (hforce hargs.1) (.bind (hforce hargs.2.1) ?_)
    simp only [hnone]
    exact .pure _
  | @not a a' rest ha hnone =>
    cases hself
    rw [List.forall_mem_cons] at hargs
    simp only [step_not]
    refine .bind hargs.1.quiet ?_
    simp only [hnone]
    exact .pure _
  | @cond test test' yes no rest htest hnone =>
    cases hself
    rw [List.forall_mem_cons] at hargs
    simp only [step_cond]
    refine .bind hargs.1.quiet ?_
    simp only [hnone]
    exact .pure _
  | @case shapes a a' functions rest hlength ha hnone =>
    obtain rfl := (List.cons.inj hself).1
    rw [List.forall_mem_cons] at hargs
    simp only [step_case _ _ _ _ hlength]
    refine .bind hargs.1.quiet (.bind (hargs.1.quiet_selectCase hnone) ?_)
    rw [← List.cons_append, apply_append]
    exact .pure _

/-- A normal form is still. -/
theorem Normal.still {d : Code} (h : Normal d) : Still d := by
  induction h with
  | @intro d hstays _ ih =>
    refine .intro ?_ ih
    rw [← apply_spine d, stays_self_iff (spine_spine d)] at hstays
    have hstep := hstays.quiet rfl ih
    rw [apply_spine] at hstep
    have hbody := hstep.bind (f := fun n s => s.proceed (headNormal n)) (b := d) (.pure d)
    exact .of_succ hbody

/-- **Normal forms are final.**  Normalizing a normal form again gives it back and contracts
    nothing; it mentions no name that the code did not, and it has the head of the head normal form
    and as many arguments.  A head normal form is its own head normal form. -/
theorem normalization_stable (c : Code) :
    (∀ fuel k n k', normalize fuel c k = some (.ok n, k') →
      (∀ k, Settles (fun fuel => normalize fuel n k) (.ok n, k)) ∧
      (∀ x ∈ n.free, x ∈ c.free) ∧
      ∃ w k'', Settles (fun fuel => headNormal fuel c k) (.ok w, k'') ∧
        w.spine.1 = n.spine.1 ∧ w.spine.2.length = n.spine.2.length) ∧
    ∀ fuel k w k', headNormal fuel c k = some (.ok w, k') →
      ∀ k, ∃ k'', Settles (fun fuel => headNormal fuel w k) (.ok w, k'') := by
  refine ⟨fun fuel k n k' h => ?_, fun fuel k w k' h => ?_⟩
  · have hn : NormalizesTo c n := (regular_normalize c).yields_of_run h
    refine ⟨hn.normal.still.quiet_normalize, fun x hx => ?_, ?_⟩
    · by_contra hxc
      have havoids : Avoids [x] c := fun y hy hyx => hxc (List.mem_singleton.1 hyx ▸ hy)
      exact (reduction_avoids [x]).2 c n hn havoids x hx (List.mem_singleton_self x)
    · obtain ⟨w, hw, -⟩ := normalizesTo_iff.1 hn
      obtain ⟨hhead, hargs⟩ := hn.spine hw
      obtain ⟨k'', hsettles⟩ := (regular_headNormal c).settles hw k
      exact ⟨w, k'', hsettles, hhead.symm, hargs.length_eq⟩
  · have hw : HeadsTo c w := (regular_headNormal c).yields_of_run h
    exact (regular_headNormal w).settles hw.stays.headsTo

/-- A case analysis that is stuck on a part of its subject: head reduction leaves that part as it
    is, and contracts it again to see that it is stuck. -/
theorem normalization_stable_case :
    let analysis : Code := .const (.case [.ctor "Cons" [.lit (.int 1), .bind]])
    let pair : Code → Code := fun first => .apply (.const (.ctor "Cons")) [first, .var "z"]
    let c := Code.apply analysis [pair (.app (.comb .i) (.var "y")), .comb .k]
    let n := Code.apply analysis [pair (.var "y"), .comb .k]
    normalize 5 c 0 = some (.ok n, 2) ∧ headNormal 5 c 0 = some (.ok c, 1) ∧
      (∀ k, Settles (fun fuel => normalize fuel n k) (.ok n, k)) ∧ (∀ x ∈ n.free, x ∈ c.free) ∧
      ∃ k'', Settles (fun fuel => headNormal fuel c 1) (.ok c, k'') := by
  intro analysis pair c n
  have hnormalize : normalize 5 c 0 = some (.ok n, 2) := by decide +kernel
  have hhead : headNormal 5 c 0 = some (.ok c, 1) := by decide +kernel
  obtain ⟨hagain, hfree, -⟩ := (normalization_stable c).1 _ _ _ _ hnormalize
  exact ⟨hnormalize, hhead, hagain, hfree, (normalization_stable c).2 _ _ _ _ hhead 1⟩

end Code

end CoreCalculus
