/-
  CoreCalculus/Proofs/AlphaEvaluation.lean
  ========================================
  **Evaluation depends neither on bound names nor on the supply of fresh ones.**

  Two evaluations of alpha-equivalent terms run in step: whatever ids they mint and
  wherever they rename, with the same fuel either both run out, or both answer, and
  the answers are alike (`Evaluation.InStep`).  What they branch on is the layer of
  an evaluated term, its spine and whether it is data, and alpha-equivalent terms
  agree in that; what a pattern captures is alpha-equivalent by position, so the
  names of its variables, also repeated ones, do not matter.

  The supplies are arbitrary, so the relation passes through sequences of steps
  without saying anything about them.
-/
import CoreCalculus.Proofs.AlphaEquivalence
import CoreCalculus.Proofs.Fuel

namespace CoreCalculus

/-! ### Answers that are alike -/

/-- The same failure, about alpha-equivalent terms. -/
def EvalError.AlphaEq : EvalError → EvalError → Prop
  | .unboundVariable x, .unboundVariable y => x = y
  | .divisionByZero t, .divisionByZero u => t.AlphaEq u
  | .overflow t, .overflow u => t.AlphaEq u
  | .noMatchingCase t, .noMatchingCase u => t.AlphaEq u
  | _, _ => False

theorem EvalError.AlphaEq.refl (e : EvalError) : e.AlphaEq e := by
  cases e with
  | unboundVariable x => rfl
  | divisionByZero t => exact Term.AlphaEq.refl t
  | overflow t => exact Term.AlphaEq.refl t
  | noMatchingCase t => exact Term.AlphaEq.refl t

/-- Two successes with related values, or two failures that are alike. -/
inductive Alike {α : Type} (R : α → α → Prop) : Except EvalError α → Except EvalError α → Prop
  | ok {a b : α} : R a b → Alike R (.ok a) (.ok b)
  | error {e e' : EvalError} : e.AlphaEq e' → Alike R (.error e) (.error e')

theorem Alike.mono {α : Type} {R R' : α → α → Prop} (hR : ∀ a b, R a b → R' a b)
    {r r' : Except EvalError α} (h : Alike R r r') : Alike R' r r' := by
  cases h with
  | ok hab => exact .ok (hR _ _ hab)
  | error he => exact .error he

/-- From any two supplies both run out of fuel, or both answer alike. -/
def Evaluation.InStep {α : Type} (R : α → α → Prop) (m m' : Evaluation α) : Prop :=
  ∀ s s', Option.Rel (fun r r' => Alike R r.1 r'.1) (m s) (m' s')

namespace Evaluation.InStep

variable {α β : Type} {R : α → α → Prop} {Q : β → β → Prop}

theorem pure {a b : α} (h : R a b) : InStep R (Pure.pure a) (Pure.pure b) :=
  fun _ _ => .some (.ok h)

theorem fail {e e' : EvalError} (h : e.AlphaEq e') : InStep R (Run.fail e) (Run.fail e') :=
  fun _ _ => .some (.error h)

theorem outOfFuel : InStep R Run.outOfFuel Run.outOfFuel := fun _ _ => .none

theorem update {f g : Supply → α × Supply} (h : ∀ s s', R (f s).1 (g s').1) :
    InStep R (Run.update f) (Run.update g) := fun s s' => .some (.ok (h s s'))

/-- The same on both sides. -/
theorem ofExcept (r : Except EvalError α) : InStep (· = ·) (Run.ofExcept r) (Run.ofExcept r) := by
  cases r with
  | ok a => exact .pure rfl
  | error e => exact .fail (.refl e)

theorem bind {m m' : Evaluation α} {f f' : α → Evaluation β} (hm : InStep R m m')
    (hf : ∀ a b, R a b → InStep Q (f a) (f' b)) : InStep Q (m >>= f) (m' >>= f') := by
  intro s s'
  have hms := hm s s'
  rw [Run.bind_apply, Run.bind_apply]
  generalize m s = o, m' s' = o' at hms ⊢
  cases hms with
  | none => exact .none
  | @some r r' hrr =>
    obtain ⟨r, s₁⟩ := r
    obtain ⟨r', s₁'⟩ := r'
    cases hrr with
    | ok hab => exact hf _ _ hab s₁ s₁'
    | error he => exact .some (.error he)

end Evaluation.InStep

/-! ### Matching -/

/-- Related terms look the same to a pattern, and so do their arguments, one by one. -/
structure LooksAlike (R : Term → Term → Prop) : Prop where
  literal?_eq {v w : Term} : R v w → v.literal? = w.literal?
  head_iff {v w : Term} : R v w → ∀ name, v.spine.1 = .ctor name ↔ w.spine.1 = .ctor name
  args {v w : Term} : R v w → List.Forall₂ R v.spine.2 w.spine.2

namespace Pattern

variable {R : Term → Term → Prop}

/-- What the arguments are matched with, from left to right. -/
theorem captureAll?_rel {ps qs : List Pattern}
    (hpq : ps.map Shape.ofPattern = qs.map Shape.ofPattern) {vs ws : List Term}
    (hvw : List.Forall₂ R vs ws)
    (ih : ∀ p ∈ ps, ∀ q, Shape.ofPattern p = Shape.ofPattern q → ∀ v w, R v w →
      Option.Rel (List.Forall₂ R) (p.capture? v) (q.capture? w)) :
    Option.Rel (List.Forall₂ R) (captureAll? ps vs) (captureAll? qs ws) := by
  induction ps generalizing qs vs ws with
  | nil =>
    obtain rfl := List.map_eq_nil_iff.1 hpq.symm
    exact .some .nil
  | cons p ps ihs =>
    obtain ⟨q, qs, rfl, hq, hqs⟩ := List.map_eq_cons_iff.1 hpq.symm
    rw [List.forall_mem_cons] at ih
    cases hvw with
    | nil => exact .some .nil
    | @cons v w vs ws hvw hvws =>
      have hfirst := ih.1 q hq.symm v w hvw
      have hrest := ihs hqs.symm hvws ih.2
      rw [captureAll?, captureAll?]
      generalize p.capture? v = o, q.capture? w = o' at hfirst ⊢
      generalize captureAll? ps vs = os, captureAll? qs ws = os' at hrest ⊢
      cases hfirst with
      | none => exact .none
      | some hfirst =>
        cases hrest with
        | none => exact .none
        | some hrest => exact .some (List.rel_append hfirst hrest)

/-- Patterns of one shape capture related terms from related values. -/
theorem capture?_rel (hR : LooksAlike R) {p q : Pattern}
    (hpq : Shape.ofPattern p = Shape.ofPattern q) {v w : Term} (hvw : R v w) :
    Option.Rel (List.Forall₂ R) (p.capture? v) (q.capture? w) := by
  induction p using Pattern.induct generalizing q v w with
  | var x =>
    cases q with
    | var y => exact .some (.cons hvw .nil)
    | _ => cases hpq
  | lit l =>
    cases q with
    | lit l' =>
      cases hpq
      rw [capture?, capture?, hR.literal?_eq hvw]
      split
      · exact .some .nil
      · exact .none
    | _ => cases hpq
  | ctor name ps ih =>
    cases q with
    | ctor name' qs =>
      rw [Shape.ofPattern, Shape.ofPattern, Shape.ctor.injEq, Shape.ofPatterns_eq_map,
        Shape.ofPatterns_eq_map] at hpq
      obtain ⟨rfl, hpqs⟩ := hpq
      have hargs := hR.args hvw
      have hcond : (v.spine.1 = .ctor name ∧ v.spine.2.length = ps.length) ↔
          (w.spine.1 = .ctor name ∧ w.spine.2.length = qs.length) := by
        have hlength := congrArg List.length hpqs
        rw [List.length_map, List.length_map] at hlength
        rw [hlength, hargs.length_eq, hR.head_iff hvw]
      rw [capture?, capture?]
      by_cases hv : v.spine.1 = .ctor name ∧ v.spine.2.length = ps.length
      · rw [if_pos hv, if_pos (hcond.1 hv)]
        exact captureAll?_rel hpqs hargs fun p hp q hpq v w hvw => ih p hp hpq hvw
      · rw [if_neg hv, if_neg (mt hcond.2 hv)]
        exact .none
    | _ => cases hpq

end Pattern

namespace Term

/-- The same case takes both values: what holds of cases that stand in the same place, with what
    they capture, holds of the choice. -/
theorem firstMatch_rel {R : Term → Term → Prop} {C : Pattern × Term → Pattern × Term → Prop}
    {Q : Table String Term × Term → Table String Term × Term → Prop} (hR : LooksAlike R)
    (hshape : ∀ c c', C c c' → Shape.ofPattern c.1 = Shape.ofPattern c'.1)
    (hQ : ∀ c c' vs ws, C c c' → c.1.vars.length = vs.length → c'.1.vars.length = ws.length →
      List.Forall₂ R vs ws →
      Q (.ofList (c.1.vars.zip vs), c.2) (.ofList (c'.1.vars.zip ws), c'.2))
    {v w : Term} (hvw : R v w) {cs cs' : List (Pattern × Term)} (hcs : List.Forall₂ C cs cs') :
    Option.Rel Q (v.firstMatch cs) (w.firstMatch cs') := by
  induction hcs with
  | nil => exact .none
  | @cons c c' cs cs' hc _ ih =>
    obtain ⟨p, t⟩ := c
    obtain ⟨q, u⟩ := c'
    have hcapture := Pattern.capture?_rel hR (hshape _ _ hc) hvw
    rw [firstMatch, firstMatch, Pattern.match?_eq, Pattern.match?_eq]
    rcases hv : p.capture? v with _ | vs <;> rcases hw : q.capture? w with _ | ws <;>
      rw [hv, hw] at hcapture
    · exact ih
    · cases hcapture
    · cases hcapture
    · cases hcapture with
      | some hvws =>
        exact .some (hQ _ _ vs ws hc (Pattern.length_of_capture? hv).symm
          (Pattern.length_of_capture? hw).symm hvws)

theorem looksAlike_alphaEq : LooksAlike AlphaEq where
  literal?_eq h := h.literal?_eq
  head_iff h name := by
    have hhead := h.spine.1
    constructor
    · intro hv
      rw [← hv]
      exact (eq_of_nameless_eq hhead (hv ▸ rfl)).symm
    · intro hw
      rw [← hw]
      exact (eq_of_nameless_eq hhead.symm (hw ▸ rfl)).symm
  args h := h.spine.2

/-- The same case takes both values, and its bodies are alpha-equivalent with what was captured
    put in. -/
theorem firstMatch_alphaEq {v w : Term} (hvw : v.AlphaEq w) {cs cs' : List (Pattern × Term)}
    (hcs : List.Forall₂ (SameCase [] []) cs cs') :
    Option.Rel (fun e e' => ∀ s s', (substMany e.1 e.2 s).1.AlphaEq (substMany e'.1 e'.2 s').1)
      (v.firstMatch cs) (w.firstMatch cs') := by
  refine firstMatch_rel looksAlike_alphaEq (fun _ _ hc => hc.1) ?_ hvw hcs
  intro c c' vs ws hc hvs hws hvws s s'
  refine substMany_alphaEq hc.2 ?_ s s'
  exact Replacements.aligned_insertAll c.1.vars c'.1.vars aligned_empty hvs hws hvws

end Term

/-! ### Operators -/

theorem BinaryOp.onTerms_of_not_isData (op : BinaryOp) {a b : Term}
    (h : ¬ (a.isData ∧ b.isData)) : op.onTerms a b = .ok none := by
  rw [onTerms]
  split
  · rw [if_neg (by simpa using h)]
  · split
    · rename_i la lb ha hb
      have hdata : ∀ (t : Term) (l : Literal), t.literal? = some l → t.isData := by
        intro t l ht
        cases t with
        | lit _ => rfl
        | _ => cases ht
      exact absurd ⟨hdata a la ha, hdata b lb hb⟩ h
    · rfl

/-- Operators look at data only. -/
theorem BinaryOp.onTerms_congr (op : BinaryOp) {a a' b b' : Term}
    (ha : a.isData ∨ a'.isData → a = a') (hb : b.isData ∨ b'.isData → b = b') :
    op.onTerms a b = op.onTerms a' b' := by
  by_cases hdata : a.isData ∧ b.isData
  · rw [ha (.inl hdata.1), hb (.inl hdata.2)]
  · have hdata' : ¬ (a'.isData ∧ b'.isData) := by
      rintro ⟨ha', hb'⟩
      exact hdata ⟨ha (.inr ha') ▸ ha', hb (.inr hb') ▸ hb'⟩
    rw [op.onTerms_of_not_isData hdata, op.onTerms_of_not_isData hdata']

theorem Term.AlphaEq.eq_of_isData {a a' : Term} (h : a.AlphaEq a') (hdata : a.isData ∨ a'.isData) :
    a = a' :=
  eq_of_nameless_eq h (hdata.elim id h.isData_iff.2)

theorem BinaryOp.onTerms_alphaEq (op : BinaryOp) {a a' b b' : Term} (ha : a.AlphaEq a')
    (hb : b.AlphaEq b') : op.onTerms a b = op.onTerms a' b' :=
  op.onTerms_congr ha.eq_of_isData hb.eq_of_isData

/-! ### Evaluation -/

namespace Term

/-- Scopes that bind the same names to alpha-equivalent terms. -/
def ScopesAlphaEq (scope scope' : Scope) : Prop :=
  ∀ x, Option.Rel AlphaEq (scope.get? x) (scope'.get? x)

theorem ScopesAlphaEq.symm {scope scope' : Scope} (h : ScopesAlphaEq scope scope') :
    ScopesAlphaEq scope' scope := by
  intro x
  have hx := h x
  generalize scope.get? x = o, scope'.get? x = o' at hx ⊢
  cases hx with
  | none => exact .none
  | some htu => exact .some htu.symm

/-- **Two evaluations of alpha-equivalent terms run in step.** -/
theorem evaluate_inStep {scope scope' : Scope}
    (hscope : ScopesAlphaEq scope scope') (n : Nat) {t t' : Term} (h : t.AlphaEq t') :
    Evaluation.InStep AlphaEq (t.evaluate scope n) (t'.evaluate scope' n) := by
  induction n generalizing t t' with
  | zero => exact .outOfFuel
  | succ n ih =>
    cases h.layer with
    | @var x y hxy =>
      obtain rfl : x = y := by simpa [Scope.resolve, Scope.place] using hxy
      have hx := hscope x
      simp only [evaluate]
      rcases hv : scope.get? x with _ | v <;> rcases hw : scope'.get? x with _ | w <;>
        rw [hv, hw] at hx
      · exact .fail rfl
      · cases hx
      · cases hx
      · cases hx with
        | some hvw => exact ih hvw
    | lit l => exact .pure h
    | ctor name => exact .pure h
    | abs ht => exact .pure h
    | app hf ha =>
      simp only [evaluate]
      refine (ih hf).bind fun f f' hff => (ih ha).bind fun a a' haa => ?_
      cases hff.layer with
      | abs hbody =>
        refine (Evaluation.InStep.update fun s s' => ?_).bind fun _ _ => ih
        exact subst_alphaEq hbody haa s s'
      | _ => exact .pure (nameless_eq_iff.2 (.app hff haa))
    | fix hbody =>
      simp only [evaluate]
      refine (Evaluation.InStep.update fun s s' => ?_).bind fun _ _ => ih
      exact subst_alphaEq hbody h s s'
    | binary op ha hb =>
      simp only [evaluate]
      refine (ih ha).bind fun a a' haa => (ih hb).bind fun b b' hbb => ?_
      rw [op.onTerms_alphaEq haa hbb]
      refine (Evaluation.InStep.ofExcept _).bind fun l l' hll => ?_
      subst hll
      cases l with
      | none => exact .pure (nameless_eq_iff.2 (.binary op haa hbb))
      | some l => exact .pure (.refl _)
    | not ha =>
      simp only [evaluate]
      refine (ih ha).bind fun a a' haa => ?_
      cases haa.layer with
      | lit l =>
        cases l with
        | int i => exact .pure (nameless_eq_iff.2 (.not haa))
        | bool b => exact .pure (.refl _)
      | _ => exact .pure (nameless_eq_iff.2 (.not haa))
    | cond ha hb hc =>
      simp only [evaluate]
      refine (ih ha).bind fun a a' haa => ?_
      cases haa.layer with
      | lit l =>
        rcases l with _ | _ | _
        · exact .pure (nameless_eq_iff.2 (.cond haa hb hc))
        · exact ih hc
        · exact ih hb
      | _ => exact .pure (nameless_eq_iff.2 (.cond haa hb hc))
    | select hs hcs =>
      simp only [evaluate]
      refine (ih hs).bind fun v w hvw => ?_
      have hmatch := firstMatch_alphaEq hvw hcs
      generalize v.firstMatch _ = o, w.firstMatch _ = o' at hmatch ⊢
      cases hmatch with
      | none => exact .fail hvw
      | @some e e' hbody => exact (Evaluation.InStep.update hbody).bind fun _ _ => ih

/-! ### Fuel -/

/-- More fuel does not change an answer. -/
theorem evaluate_le (scope : Scope) (n : Nat) (t : Term) :
    (t.evaluate scope n).Le (t.evaluate scope (n + 1)) := by
  induction n generalizing t with
  | zero => exact Run.outOfFuel_le _
  | succ n ih =>
    cases t with
    | var x =>
      simp only [evaluate]
      split
      · exact ih _
      · exact Run.Le.refl _
    | lit l => exact Run.Le.refl _
    | ctor name => exact Run.Le.refl _
    | abs x t => exact Run.Le.refl _
    | app f a =>
      simp only [evaluate]
      refine (ih f).bind fun f => (ih a).bind fun a => ?_
      split
      · exact (Run.Le.refl _).bind fun t => ih t
      · exact Run.Le.refl _
    | fix x t =>
      simp only [evaluate]
      exact (Run.Le.refl _).bind fun t => ih t
    | binary op a b =>
      simp only [evaluate]
      exact (ih a).bind fun a => (ih b).bind fun b => Run.Le.refl _
    | not a =>
      simp only [evaluate]
      exact (ih a).bind fun a => Run.Le.refl _
    | cond a b c =>
      simp only [evaluate]
      refine (ih a).bind fun a => ?_
      split
      · exact ih b
      · exact ih c
      · exact Run.Le.refl _
    | select s cs =>
      simp only [evaluate]
      refine (ih s).bind fun v => ?_
      split
      · exact (Run.Le.refl _).bind fun t => ih t
      · exact Run.Le.refl _

/-- An evaluation settles on whatever it answers. -/
theorem settles_evaluate {scope : Scope} {n : Nat} {t : Term} {s : Supply}
    {r : Except EvalError Term × Supply} (h : t.evaluate scope n s = some r) :
    Settles (fun n => t.evaluate scope n s) r :=
  .of_mono (fun n r => evaluate_le scope n t s r) h

/-- Where one evaluation answers, the other does with the same fuel. -/
theorem exists_evaluate_alike {t t' : Term} {scope scope' : Scope} (ht : t.AlphaEq t')
    (hscope : ScopesAlphaEq scope scope') {fuel : Nat} {s : Supply} (s' : Supply)
    {r : Except EvalError Term × Supply} (h : t.evaluate scope fuel s = some r) :
    ∃ r', t'.evaluate scope' fuel s' = some r' ∧ Alike AlphaEq r.1 r'.1 := by
  have hstep := evaluate_inStep hscope fuel ht s s'
  rw [h] at hstep
  generalize t'.evaluate scope' fuel s' = o at hstep
  cases hstep with
  | @some _ r' halike => exact ⟨r', rfl, halike⟩

/-- The same data on both sides. -/
theorem exists_evaluate_data {t t' : Term} {scope scope' : Scope} (ht : t.AlphaEq t')
    (hscope : ScopesAlphaEq scope scope') {fuel : Nat} {s rest : Supply} (s' : Supply) {d : Term}
    (hd : d.isData) (h : t.evaluate scope fuel s = some (.ok d, rest)) :
    ∃ rest', t'.evaluate scope' fuel s' = some (.ok d, rest') := by
  obtain ⟨⟨r', rest'⟩, h', halike⟩ := exists_evaluate_alike ht hscope s' h
  cases halike with
  | ok hdd =>
    rw [← eq_of_nameless_eq hdd hd] at h'
    exact ⟨rest', h'⟩

/-- **Evaluation depends neither on bound names nor on the supply of fresh ones.**  From
    alpha-equivalent terms, in scopes that bind the same names to alpha-equivalent terms, and
    with any two supplies: one evaluation returns when the other does, and what they return is
    alike, the same data or alpha-equivalent values, or the same failure about alpha-equivalent
    terms.  So a supply that earlier evaluations have drawn from yields the data that a new one
    does. -/
theorem evaluation_alphaEq {t t' : Term} {scope scope' : Scope} (ht : t.AlphaEq t')
    (hscope : ScopesAlphaEq scope scope') (s s' : Supply) :
    ((∃ fuel r, t.evaluate scope fuel s = some r) ↔
        ∃ fuel r, t'.evaluate scope' fuel s' = some r) ∧
    (∀ fuel fuel' r r', t.evaluate scope fuel s = some r → t'.evaluate scope' fuel' s' = some r' →
      Alike (fun v v' => v.AlphaEq v' ∧ (v.isData ∨ v'.isData → v = v')) r.1 r'.1) ∧
    ∀ d : Term, d.isData →
      ((∃ fuel rest, t.evaluate scope fuel s = some (.ok d, rest)) ↔
        ∃ fuel rest, t'.evaluate scope' fuel s' = some (.ok d, rest)) := by
  refine ⟨⟨?_, ?_⟩, ?_, fun d hd => ⟨?_, ?_⟩⟩
  · rintro ⟨fuel, r, h⟩
    obtain ⟨r', h', -⟩ := exists_evaluate_alike ht hscope s' h
    exact ⟨fuel, r', h'⟩
  · rintro ⟨fuel, r, h⟩
    obtain ⟨r', h', -⟩ := exists_evaluate_alike ht.symm hscope.symm s h
    exact ⟨fuel, r', h'⟩
  · intro fuel fuel' r r' h h'
    obtain ⟨r₁, h₁, halike⟩ := exists_evaluate_alike ht hscope s' h
    obtain rfl := (settles_evaluate h₁).unique (settles_evaluate h')
    refine halike.mono fun v v' hvv => ⟨hvv, fun hdata => eq_of_nameless_eq hvv ?_⟩
    exact hdata.elim id hvv.isData_iff.2
  · rintro ⟨fuel, rest, h⟩
    obtain ⟨rest', h'⟩ := exists_evaluate_data ht hscope s' hd h
    exact ⟨fuel, rest', h'⟩
  · rintro ⟨fuel, rest, h⟩
    obtain ⟨rest', h'⟩ := exists_evaluate_data ht.symm hscope.symm s hd h
    exact ⟨fuel, rest', h'⟩

end Term

/-- A term with the free name `g` is put below a binder `g`, which is renamed as the supply has
    it.  With another name for the binder and another supply nothing is renamed, and the values
    are alpha-equivalent. -/
theorem evaluation_alphaEq_capture :
    let t : Term := .app (.abs "x" (.abs "g" (.var "x"))) (.var "f")
    let t' : Term := .app (.abs "a" (.abs "b" (.var "a"))) (.var "f")
    let scope : Scope := Table.ofList [("f", .abs "u" (.var "g"))]
    let scope' : Scope := Table.ofList [("f", .abs "v" (.var "g"))]
    let v : Term := .abs "g'7" (.abs "u" (.var "g"))
    t.AlphaEq t' ∧ Term.ScopesAlphaEq scope scope' ∧
      t.evaluate scope 3 ⟨7⟩ = some (.ok v, ⟨8⟩) ∧
      ∃ fuel r, t'.evaluate scope' fuel ⟨0⟩ = some r ∧
        Alike (fun v v' => v.AlphaEq v' ∧ (v.isData ∨ v'.isData → v = v')) (.ok v) r.1 := by
  intro t t' scope scope' v
  have ht : t.AlphaEq t' := rfl
  have hscope : Term.ScopesAlphaEq scope scope' := by
    intro x
    by_cases hx : x = "f"
    · subst hx
      exact .some rfl
    · have hnone : ∀ u : Term, (Table.ofList [("f", u)]).get? x = none := by
        intro u
        rw [Table.ofList, Table.insertAll, List.foldl, List.foldl, Table.get?_insert, if_neg hx,
          Table.get?_empty]
      rw [hnone, hnone]
      exact .none
  have h : t.evaluate scope 3 ⟨7⟩ = some (.ok v, ⟨8⟩) := by
    let u : Term := .abs "u" (.var "g")
    let live := Replacements.live (Table.ofList [("x", u)]) ["g"] (.var "x")
    have hempty : live.isEmpty = false := rfl
    have hrenamed : Term.renameBinder live "g" (.var "x") ⟨7⟩ = ("g'7", .var "x", ⟨8⟩) := by
      decide +kernel
    have hx : live.get? "x" = some u := rfl
    have hbody : (Term.abs "g" (.var "x")).subst "x" u ⟨7⟩ = (v, ⟨8⟩) := by
      simp only [live] at hempty hrenamed hx
      simp only [Term.subst, Term.substMany, Term.substUnder, hempty, hrenamed, hx]
      rfl
    change ((Term.abs "g" (.var "x")).subst "x" u ⟨7⟩).1.evaluate scope 2
      ((Term.abs "g" (.var "x")).subst "x" u ⟨7⟩).2 = _
    rw [hbody]
    rfl
  obtain ⟨hreturns, halike, -⟩ := Term.evaluation_alphaEq ht hscope ⟨7⟩ ⟨0⟩
  obtain ⟨fuel, r, h'⟩ := hreturns.1 ⟨3, _, h⟩
  exact ⟨ht, hscope, h, fuel, r, h', halike 3 fuel _ _ h h'⟩

end CoreCalculus
