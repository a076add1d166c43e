/-
  CoreCalculus/Proofs/AlphaEquivalence.lean
  =========================================
  **Terms that differ only in the names of their binders** have the same nameless
  form.

  Two such terms are read side by side, each inside its own binders.  They have the
  same layer outside (`Term.nameless_eq_iff`), and a name of the one corresponds to a
  name of the other when their scopes make the same of both.  What is put in for
  corresponding names has to be related (`Scope.Aligned`); a binder on each side adds
  a pair of names, whatever these are and whatever they hide.

  So substituting related terms for corresponding names gives alpha-equivalent terms,
  with whatever fresh names the two substitutions make up.
-/
import Mathlib.Data.List.Forall2
import CoreCalculus.Proofs.Closed

namespace CoreCalculus

/-! ### Corresponding names -/

namespace Scope

variable {α : Type} {R : α → α → Prop} {xs ys : List String} {f g : String → α}

/-- Names of which the scopes make the same are mapped to what `R` relates. -/
def Aligned (R : α → α → Prop) (xs ys : List String) (f g : String → α) : Prop :=
  ∀ x y, resolve xs x = resolve ys y → R (f x) (g y)

theorem resolve_cons_eq_iff {x y v w : String} :
    resolve (x :: xs) v = resolve (y :: ys) w ↔
      (v = x ∧ w = y) ∨ (v ≠ x ∧ w ≠ y ∧ resolve xs v = resolve ys w) := by
  simp only [resolve, place]
  by_cases hv : v = x
  · by_cases hw : w = y
    · simp [hv, hw]
    · cases hp : place ys w <;> simp [hv, hw]
  · by_cases hw : w = y
    · cases hp : place xs v <;> simp [hv, hw]
    · cases hp : place xs v <;> cases hq : place ys w <;> simp [hv, hw]

theorem Aligned.nil (h : ∀ x, R (f x) (g x)) : Aligned R [] [] f g := by
  intro x y hxy
  obtain rfl : x = y := by simpa [resolve, place] using hxy
  exact h x

/-- One more binder on each side. -/
theorem Aligned.cons (h : Aligned R xs ys f g) (x y : String) {a b : α} (hab : R a b) :
    Aligned R (x :: xs) (y :: ys) (Function.update f x a) (Function.update g y b) := by
  intro v w hvw
  rcases resolve_cons_eq_iff.1 hvw with ⟨rfl, rfl⟩ | ⟨hv, hw, hvw⟩
  · rw [Function.update_self, Function.update_self]
    exact hab
  · rw [Function.update_of_ne hv, Function.update_of_ne hw]
    exact h v w hvw

theorem lt_of_place {scope : List String} {x : String} {i : Nat} (h : place scope x = some i) :
    i < scope.length := by
  induction scope generalizing i with
  | nil => cases h
  | cons y scope ih =>
    rw [place] at h
    split at h
    · cases h
      exact Nat.succ_pos _
    · obtain ⟨j, hj, rfl⟩ := Option.map_eq_some_iff.1 h
      exact Nat.succ_lt_succ (ih hj)

/-- Below as many binders on both sides, corresponding names are the same index, or correspond
    outside. -/
theorem resolve_append_eq {zs zs' : List String} (hlength : zs.length = zs'.length) {x y : String}
    (h : resolve (zs ++ xs) x = resolve (zs' ++ ys) y) :
    (∃ i, resolve zs x = .bound i ∧ resolve zs' y = .bound i) ∨
      (resolve zs x = .free x ∧ resolve zs' y = .free y ∧ resolve xs x = resolve ys y) := by
  simp only [resolve, place_append] at h ⊢
  rcases hz : place zs x with _ | i
  · rcases hz' : place zs' y with _ | j
    · rw [hz, hz', Option.none_or, Option.none_or] at h
      refine .inr ⟨rfl, rfl, ?_⟩
      rcases hx : place xs x with _ | i <;> rcases hy : place ys y with _ | j <;>
        simp_all
    · have hj := lt_of_place hz'
      rcases hx : place xs x with _ | i <;> simp [hz, hz', hx] at h
      omega
  · have hi := lt_of_place hz
    rcases hz' : place zs' y with _ | j
    · rcases hy : place ys y with _ | j <;> simp [hz, hz', hy] at h
      omega
    · simp only [hz, hz', Option.some_or, Nameless.bound.injEq] at h
      exact .inl ⟨i, rfl, h ▸ rfl⟩

end Scope

/-! ### Layers -/

namespace Term

/-- The cases have patterns of one shape, and the same bodies below them. -/
def SameCase (xs ys : List String) (c c' : Pattern × Term) : Prop :=
  Shape.ofPattern c.1 = Shape.ofPattern c'.1 ∧
    c.2.nameless (c.1.vars.reverse ++ xs) = c'.2.nameless (c'.1.vars.reverse ++ ys)

/-- The terms have the same outermost layer, and inside it the same nameless forms. -/
inductive SameLayer (xs ys : List String) : Term → Term → Prop
  | var {x y : String} : Scope.resolve xs x = Scope.resolve ys y → SameLayer xs ys (.var x) (.var y)
  | lit (l : Literal) : SameLayer xs ys (.lit l) (.lit l)
  | ctor (name : String) : SameLayer xs ys (.ctor name) (.ctor name)
  | app {f f' a a' : Term} : f.nameless xs = f'.nameless ys → a.nameless xs = a'.nameless ys →
      SameLayer xs ys (.app f a) (.app f' a')
  | abs {x y : String} {t t' : Term} : t.nameless (x :: xs) = t'.nameless (y :: ys) →
      SameLayer xs ys (.abs x t) (.abs y t')
  | fix {x y : String} {t t' : Term} : t.nameless (x :: xs) = t'.nameless (y :: ys) →
      SameLayer xs ys (.fix x t) (.fix y t')
  | binary (op : BinaryOp) {a a' b b' : Term} : a.nameless xs = a'.nameless ys →
      b.nameless xs = b'.nameless ys → SameLayer xs ys (.binary op a b) (.binary op a' b')
  | not {a a' : Term} : a.nameless xs = a'.nameless ys → SameLayer xs ys (.not a) (.not a')
  | cond {a a' b b' c c' : Term} : a.nameless xs = a'.nameless ys →
      b.nameless xs = b'.nameless ys → c.nameless xs = c'.nameless ys →
      SameLayer xs ys (.cond a b c) (.cond a' b' c')
  | select {s s' : Term} {cs cs' : List (Pattern × Term)} : s.nameless xs = s'.nameless ys →
      List.Forall₂ (SameCase xs ys) cs cs' → SameLayer xs ys (.select s cs) (.select s' cs')

variable {xs ys : List String} {t t' : Term}

theorem namelessCases_eq_iff {cs cs' : List (Pattern × Term)} :
    namelessCases xs cs = namelessCases ys cs' ↔ List.Forall₂ (SameCase xs ys) cs cs' := by
  induction cs generalizing cs' with
  | nil => cases cs' <;> simp [namelessCases]
  | cons c cs ih =>
    cases cs' with
    | nil => simp [namelessCases]
    | cons c' cs' => simp [namelessCases, SameCase, ih]

theorem eq_var_of_nameless_eq {y : String} (h : t.nameless xs = Scope.resolve ys y) :
    ∃ x, t = .var x := by
  rw [Scope.resolve] at h
  cases t with
  | var x => exact ⟨x, rfl⟩
  | _ => split at h <;> cases h

theorem SameLayer.of_nameless_eq (h : t.nameless xs = t'.nameless ys) : SameLayer xs ys t t' := by
  by_cases hvar : ∃ y, t' = .var y
  · obtain ⟨y, rfl⟩ := hvar
    obtain ⟨x, rfl⟩ := eq_var_of_nameless_eq h
    exact .var h
  · cases t with
    | var x => exact absurd (eq_var_of_nameless_eq h.symm) hvar
    | lit l =>
      cases t' with
      | lit l' =>
        cases h
        exact .lit l
      | var y => exact absurd ⟨y, rfl⟩ hvar
      | _ => cases h
    | ctor name =>
      cases t' with
      | ctor name' =>
        cases h
        exact .ctor name
      | var y => exact absurd ⟨y, rfl⟩ hvar
      | _ => cases h
    | app f a =>
      cases t' with
      | app f' a' =>
        rw [nameless, nameless, Nameless.app.injEq] at h
        exact .app h.1 h.2
      | var y => exact absurd ⟨y, rfl⟩ hvar
      | _ => cases h
    | abs x t =>
      cases t' with
      | abs y t' =>
        rw [nameless, nameless, Nameless.abs.injEq] at h
        exact .abs h
      | var y => exact absurd ⟨y, rfl⟩ hvar
      | _ => cases h
    | fix x t =>
      cases t' with
      | fix y t' =>
        rw [nameless, nameless, Nameless.fix.injEq] at h
        exact .fix h
      | var y => exact absurd ⟨y, rfl⟩ hvar
      | _ => cases h
    | binary op a b =>
      cases t' with
      | binary op' a' b' =>
        rw [nameless, nameless, Nameless.binary.injEq] at h
        obtain ⟨rfl, ha, hb⟩ := h
        exact .binary op ha hb
      | var y => exact absurd ⟨y, rfl⟩ hvar
      | _ => cases h
    | not a =>
      cases t' with
      | not a' =>
        rw [nameless, nameless, Nameless.not.injEq] at h
        exact .not h
      | var y => exact absurd ⟨y, rfl⟩ hvar
      | _ => cases h
    | cond a b c =>
      cases t' with
      | cond a' b' c' =>
        rw [nameless, nameless, Nameless.cond.injEq] at h
        exact .cond h.1 h.2.1 h.2.2
      | var y => exact absurd ⟨y, rfl⟩ hvar
      | _ => cases h
    | select s cs =>
      cases t' with
      | select s' cs' =>
        rw [nameless, nameless, Nameless.select.injEq] at h
        exact .select h.1 (namelessCases_eq_iff.1 h.2)
      | var y => exact absurd ⟨y, rfl⟩ hvar
      | _ => cases h

theorem nameless_eq_iff : t.nameless xs = t'.nameless ys ↔ SameLayer xs ys t t' := by
  refine ⟨SameLayer.of_nameless_eq, ?_⟩
  rintro (h | _ | _ | ⟨hf, ha⟩ | h | h | ⟨op, ha, hb⟩ | h | ⟨ha, hb, hc⟩ | ⟨hs, hcs⟩)
  case select => rw [nameless, nameless, hs, namelessCases_eq_iff.2 hcs]
  all_goals simp_all [nameless]

/-! ### Alpha-equivalence -/

/-- The terms differ only in the names of their binders. -/
def AlphaEq (t t' : Term) : Prop := t.nameless [] = t'.nameless []

theorem AlphaEq.refl (t : Term) : t.AlphaEq t := rfl

theorem AlphaEq.symm (h : t.AlphaEq t') : t'.AlphaEq t := Eq.symm h

/-- Renaming a binder to a new name. -/
theorem alphaEq_abs_rename {x z : String} (hz : z ∉ t.names) (hzx : z ≠ x) :
    (abs x t).AlphaEq (abs z (t.rename x z)) := by
  have hbody := @nameless_rename_binder x z [x] [] t hz (by simpa using hzx)
    fun _ => List.mem_singleton_self x
  simp only [List.map_cons, if_true, List.map_nil, List.append_nil] at hbody
  rw [AlphaEq, nameless, nameless, hbody]

theorem AlphaEq.layer (h : t.AlphaEq t') : SameLayer [] [] t t' := .of_nameless_eq h

/-- Data has no binders. -/
theorem eq_of_nameless_eq (h : t.nameless xs = t'.nameless ys) (ht : t.isData) : t = t' := by
  induction t using induct generalizing t' with
  | lit l =>
    cases SameLayer.of_nameless_eq h
    rfl
  | ctor name =>
    cases SameLayer.of_nameless_eq h
    rfl
  | app f a ihf iha =>
    obtain _ | _ | _ | ⟨hf, ha⟩ := SameLayer.of_nameless_eq h
    rw [isData, Bool.and_eq_true, Bool.and_eq_true] at ht
    rw [ihf hf ht.1.2, iha ha ht.2]
  | _ => cases ht

theorem AlphaEq.isData_iff (h : t.AlphaEq t') : t.isData ↔ t'.isData :=
  ⟨fun ht => eq_of_nameless_eq h ht ▸ ht, fun ht => eq_of_nameless_eq h.symm ht ▸ ht⟩

theorem AlphaEq.literal?_eq (h : t.AlphaEq t') : t.literal? = t'.literal? := by
  cases h.layer <;> rfl

/-- The spines have heads and arguments that are alpha-equivalent, one by one. -/
theorem AlphaEq.spine (h : t.AlphaEq t') :
    t.spine.1.AlphaEq t'.spine.1 ∧ List.Forall₂ AlphaEq t.spine.2 t'.spine.2 := by
  induction t using induct generalizing t' with
  | app f a ihf iha =>
    obtain _ | _ | _ | ⟨hf, ha⟩ := h.layer
    obtain ⟨hhead, hargs⟩ := ihf hf
    exact ⟨hhead, List.rel_append hargs (.cons ha .nil)⟩
  | _ =>
    cases h.layer
    all_goals exact ⟨h, .nil⟩

end Term

/-! ### Substitution -/

namespace Replacements

theorem nameless_standIn (r : Replacements) (x : String) :
    (r.standIn x).nameless [] = (r.nameless x).getD (.free x) := by
  rw [standIn, nameless]
  cases r.get? x <;> rfl

theorem standIn_insert (r : Replacements) (x : String) (v : Term) :
    standIn (r.insert x v) = Function.update r.standIn x v := by
  funext y
  rw [standIn, Table.get?_insert, Function.update_apply]
  split <;> rfl

/-- Related values in the order of as many names on each side. -/
theorem aligned_insertAll {r r' : Replacements} {xs ys : List String} (ps qs : List String)
    {vs ws : List Term} (h : Scope.Aligned Term.AlphaEq xs ys r.standIn r'.standIn)
    (hps : ps.length = vs.length) (hqs : qs.length = ws.length) (hvs : List.Forall₂ Term.AlphaEq vs ws) :
    Scope.Aligned Term.AlphaEq (ps.reverse ++ xs) (qs.reverse ++ ys)
      (standIn (r.insertAll (ps.zip vs))) (standIn (r'.insertAll (qs.zip ws))) := by
  induction hvs generalizing r r' xs ys ps qs with
  | nil =>
    rw [List.length_eq_zero_iff.1 hps, List.length_eq_zero_iff.1 hqs]
    exact h
  | @cons v w vs ws hvw _ ih =>
    obtain ⟨x, ps, rfl⟩ := List.exists_cons_of_length_eq_add_one hps
    obtain ⟨y, qs, rfl⟩ := List.exists_cons_of_length_eq_add_one hqs
    have hcons := h.cons x y hvw
    rw [← standIn_insert, ← standIn_insert] at hcons
    rw [List.reverse_cons, List.append_assoc, List.reverse_cons, List.append_assoc]
    exact ih ps qs hcons (Nat.succ.inj hps) (Nat.succ.inj hqs)

end Replacements

namespace Term

variable {xs ys : List String} {t t' : Term} {r r' : Replacements}

/-- Below binders that stay, corresponding outer names are replaced by what is related. -/
theorem nameless_subst_eq (zs zs' : List String) (hlength : zs.length = zs'.length)
    (h : t.nameless (zs ++ xs) = t'.nameless (zs' ++ ys))
    (hr : Scope.Aligned AlphaEq xs ys r.standIn r'.standIn) :
    (t.nameless zs).subst r.nameless = (t'.nameless zs').subst r'.nameless := by
  induction t using induct generalizing t' zs zs' with
  | var x =>
    cases SameLayer.of_nameless_eq h with
    | @var _ y hxy =>
      rw [nameless, nameless]
      rcases Scope.resolve_append_eq hlength hxy with ⟨i, hx, hy⟩ | ⟨hx, hy, hout⟩
      · rw [hx, hy]
        rfl
      · have hvalues := hr x y hout
        rw [AlphaEq, Replacements.nameless_standIn, Replacements.nameless_standIn] at hvalues
        rw [hx, hy]
        exact hvalues
  | lit l =>
    cases SameLayer.of_nameless_eq h
    rfl
  | ctor name =>
    cases SameLayer.of_nameless_eq h
    rfl
  | app f a ihf iha =>
    cases SameLayer.of_nameless_eq h with
    | app hf ha =>
      rw [nameless, nameless, Nameless.subst, Nameless.subst, ihf zs zs' hlength hf,
        iha zs zs' hlength ha]
  | abs x t ih =>
    cases SameLayer.of_nameless_eq h with
    | @abs _ y _ t' ht =>
      have hbody := ih (x :: zs) (y :: zs') (by simp [hlength]) ht
      rw [nameless, nameless, Nameless.subst, Nameless.subst, hbody]
  | fix x t ih =>
    cases SameLayer.of_nameless_eq h with
    | @fix _ y _ t' ht =>
      have hbody := ih (x :: zs) (y :: zs') (by simp [hlength]) ht
      rw [nameless, nameless, Nameless.subst, Nameless.subst, hbody]
  | binary op a b iha ihb =>
    cases SameLayer.of_nameless_eq h with
    | binary _ ha hb =>
      rw [nameless, nameless, Nameless.subst, Nameless.subst, iha zs zs' hlength ha,
        ihb zs zs' hlength hb]
  | not a ih =>
    cases SameLayer.of_nameless_eq h with
    | not ha => rw [nameless, nameless, Nameless.subst, Nameless.subst, ih zs zs' hlength ha]
  | cond a b c iha ihb ihc =>
    cases SameLayer.of_nameless_eq h with
    | cond ha hb hc =>
      rw [nameless, nameless, Nameless.subst, Nameless.subst, iha zs zs' hlength ha,
        ihb zs zs' hlength hb, ihc zs zs' hlength hc]
  | select s cs ihs ihc =>
    cases SameLayer.of_nameless_eq h with
    | @select _ s' _ cs' hs hcs =>
      have hcases : Nameless.substCases r.nameless (namelessCases zs cs) =
          Nameless.substCases r'.nameless (namelessCases zs' cs') := by
        clear hs ihs h
        induction hcs with
        | nil => rfl
        | @cons c c' cs cs' hc _ ih =>
          rw [List.forall_mem_cons] at ihc
          have hlength' : (c.1.vars.reverse ++ zs).length = (c'.1.vars.reverse ++ zs').length := by
            simp [hlength, Pattern.length_vars_eq hc.1]
          have hbody := ihc.1 _ _ hlength' (by simpa [List.append_assoc] using hc.2)
          rw [namelessCases, namelessCases, Nameless.substCases, Nameless.substCases, hc.1, hbody,
            ih ihc.2]
      rw [nameless, nameless, Nameless.subst, Nameless.subst, ihs zs zs' hlength hs,
        hcases]

/-- **Substitution respects alpha-equivalence**, whatever names it makes up. -/
theorem substMany_alphaEq (h : t.nameless xs = t'.nameless ys)
    (hr : Scope.Aligned AlphaEq xs ys r.standIn r'.standIn) (supply supply' : Supply) :
    (substMany r t supply).1.AlphaEq (substMany r' t' supply').1 := by
  rw [AlphaEq, nameless_substMany, nameless_substMany]
  exact nameless_subst_eq [] [] rfl h hr

theorem aligned_empty : Scope.Aligned AlphaEq [] [] (Replacements.standIn .empty)
    (Replacements.standIn .empty) :=
  .nil fun x => .refl (.var x)

/-- The body of a binder, with alpha-equivalent values put in. -/
theorem subst_alphaEq {x y : String} {v w : Term} (h : t.nameless [x] = t'.nameless [y])
    (hvw : v.AlphaEq w) (supply supply' : Supply) :
    (t.subst x v supply).1.AlphaEq (t'.subst y w supply').1 := by
  refine substMany_alphaEq h ?_ supply supply'
  exact Replacements.aligned_insertAll [x] [y] aligned_empty rfl rfl (.cons hvw .nil)

end Term

end CoreCalculus
