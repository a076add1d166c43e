/-
  CoreCalculus/Proofs/FunctionRecursion.lean
  ==========================================
  **Recursion through functions.**

  When the body of every recursion of a term is an abstraction (`Term.fixesFunctions`), every
  recursion that is reached evaluates to an abstraction.  The condition is on the text of
  the term only; substitution keeps it, since it puts a term in the place of a name and
  a name is no body of a recursion, so evaluation does.
-/
import CoreCalculus.Proofs.TextProperty

namespace CoreCalculus

namespace Term

def isAbs : Term → Bool
  | .abs _ _ => true
  | _ => false

mutual

/-- The body of every recursion is an abstraction. -/
def fixesFunctions : Term → Bool
  | .var _ => true
  | .lit _ => true
  | .ctor _ => true
  | .app f a => f.fixesFunctions && a.fixesFunctions
  | .abs _ t => t.fixesFunctions
  | .fix _ t => t.isAbs && t.fixesFunctions
  | .binary _ a b => a.fixesFunctions && b.fixesFunctions
  | .not a => a.fixesFunctions
  | .cond a b e => a.fixesFunctions && b.fixesFunctions && e.fixesFunctions
  | .select a cases => a.fixesFunctions && fixesFunctionsCases cases

def fixesFunctionsCases : List (Pattern × Term) → Bool
  | [] => true
  | (_, t) :: cases => t.fixesFunctions && fixesFunctionsCases cases

end

theorem fixesFunctions_select_iff {a : Term} {cases : List (Pattern × Term)} :
    (Term.select a cases).fixesFunctions ↔
      a.fixesFunctions ∧ ∀ c ∈ cases, c.2.fixesFunctions := by
  have hcases : fixesFunctionsCases cases ↔ ∀ c ∈ cases, c.2.fixesFunctions := by
    induction cases with
    | nil => simp [fixesFunctionsCases]
    | cons c cases ih => rw [fixesFunctionsCases, Bool.and_eq_true, ih, List.forall_mem_cons]
  rw [fixesFunctions, Bool.and_eq_true, hcases]

theorem exists_of_isAbs {t : Term} (h : t.isAbs) : ∃ x b, t = .abs x b := by
  cases t <;> cases h
  exact ⟨_, _, rfl⟩

/-! ### Substitution -/

theorem isAbs_rename (x z : String) (t : Term) : (t.rename x z).isAbs = t.isAbs := by
  cases t <;> rfl

theorem fixesFunctions_rename (x z : String) {t : Term} (h : t.fixesFunctions) :
    (t.rename x z).fixesFunctions := by
  induction t using induct with
  | select a cases iha ihc =>
    rw [fixesFunctions_select_iff] at h
    rw [rename, fixesFunctions_select_iff, renameCases_eq_map, List.forall_mem_map]
    refine ⟨iha h.1, fun c hc => ?_⟩
    dsimp only
    split
    · exact h.2 c hc
    · exact ihc c hc (h.2 c hc)
  | abs y t ih =>
    rw [rename, fixesFunctions]
    split
    · exact h
    · exact ih h
  | fix y t ih =>
    rw [fixesFunctions, Bool.and_eq_true] at h
    rw [rename, fixesFunctions, Bool.and_eq_true]
    split
    · exact h
    · exact ⟨isAbs_rename x z t ▸ h.1, ih h.2⟩
  | _ => simp_all [rename, fixesFunctions]

/-- What puts in terms of this kind keeps terms of this kind, and keeps abstractions. -/
def KeepsFunctions (r : Replacements) (t t' : Term) : Prop :=
  (∀ x v, r.get? x = some v → v.fixesFunctions) → t.fixesFunctions →
    t'.fixesFunctions ∧ (t.isAbs → t'.isAbs)

theorem Prepared.keepsFunctions {live : Replacements} {c c' : Pattern × Term}
    (h : Prepared live c c') (hc : c.2.fixesFunctions) :
    c'.2.fixesFunctions ∧ c'.2.isAbs = c.2.isAbs := by
  obtain ⟨hrenamed, -, -⟩ := h
  induction hrenamed with
  | refl => exact ⟨hc, rfl⟩
  | tail _ hstep ih =>
    cases hstep with
    | @rename x z p b _ _ _ =>
      exact ⟨fixesFunctions_rename x z ih.1, (isAbs_rename x z b).trans ih.2⟩

theorem SubstCase.keepsFunctions {r : Replacements} {c c' : Pattern × Term}
    (h : SubstCase KeepsFunctions r c c')
    (hr : ∀ x v, r.get? x = some v → v.fixesFunctions) (hc : c.2.fixesFunctions) :
    c'.2.fixesFunctions ∧ (c.2.isAbs → c'.2.isAbs) := by
  rcases h with ⟨-, rfl⟩ | ⟨b, hprepared, hb⟩
  · exact ⟨hc, id⟩
  · obtain ⟨hfixes, habs⟩ := hprepared.keepsFunctions hc
    have hlive : ∀ x v, (r.live c.1.vars c.2).get? x = some v → v.fixesFunctions := by
      intro x v hx
      rw [Replacements.get?_live] at hx
      split at hx
      · exact hr x v hx
      · cases hx
    exact habs ▸ hb hlive hfixes

theorem keepsFunctions_closed : SubstClosed KeepsFunctions where
  var r x hr _ := by
    refine ⟨?_, nofun⟩
    rcases hx : r.get? x with _ | v
    · rfl
    · exact hr x v hx
  lit _ _ _ h := ⟨h, id⟩
  ctor _ _ _ h := ⟨h, id⟩
  app hf ha hr h := by
    rw [fixesFunctions, Bool.and_eq_true] at h ⊢
    exact ⟨⟨(hf hr h.1).1, (ha hr h.2).1⟩, nofun⟩
  abs h hr ht := ⟨(h.keepsFunctions hr ht).1, fun _ => rfl⟩
  fix h hr ht := by
    rw [fixesFunctions, Bool.and_eq_true] at ht ⊢
    obtain ⟨hfixes, habs⟩ := h.keepsFunctions hr ht.2
    exact ⟨⟨habs ht.1, hfixes⟩, nofun⟩
  binary op ha hb hr h := by
    rw [fixesFunctions, Bool.and_eq_true] at h ⊢
    exact ⟨⟨(ha hr h.1).1, (hb hr h.2).1⟩, nofun⟩
  not ha hr h := ⟨(ha hr h).1, nofun⟩
  cond ha hb he hr h := by
    rw [fixesFunctions, Bool.and_eq_true, Bool.and_eq_true] at h ⊢
    exact ⟨⟨⟨(ha hr h.1.1).1, (hb hr h.1.2).1⟩, (he hr h.2).1⟩, nofun⟩
  select {r a a' cases cases'} ha hcases hr h := by
    rw [fixesFunctions_select_iff] at h ⊢
    refine ⟨⟨(ha hr h.1).1, ?_⟩, nofun⟩
    have hbodies := h.2
    clear h ha
    induction hcases with
    | nil => simp
    | cons hc _ ih =>
      rw [List.forall_mem_cons] at hbodies ⊢
      exact ⟨(hc.keepsFunctions hr hbodies.1).1, ih hbodies.2⟩

theorem fixesFunctions_substMany {r : Replacements}
    (hr : ∀ x v, r.get? x = some v → v.fixesFunctions) {t : Term} (ht : t.fixesFunctions)
    (s : Supply) :
    (t.substMany r s).1.fixesFunctions ∧ (t.isAbs → (t.substMany r s).1.isAbs) :=
  substMany_induct keepsFunctions_closed r t s hr ht

theorem fixesFunctions_subst {t u : Term} (ht : t.fixesFunctions) (x : String)
    (hu : u.fixesFunctions) (s : Supply) :
    (t.subst x u s).1.fixesFunctions ∧ (t.isAbs → (t.subst x u s).1.isAbs) := by
  refine fixesFunctions_substMany (fun y v hy => ?_) ht s
  obtain ⟨-, rfl⟩ := Prod.mk.inj (List.mem_singleton.1 (Table.mem_of_get?_ofList hy))
  exact hu

theorem textual_fixesFunctions : Textual fun t => t.fixesFunctions where
  lit _ := rfl
  app := by simp [fixesFunctions]
  abs h := h
  fix h := by
    rw [fixesFunctions, Bool.and_eq_true] at h
    exact h.2
  binary := by simp [fixesFunctions]
  not := Iff.rfl
  cond := by simp [fixesFunctions, and_assoc]
  select := fixesFunctions_select_iff.1
  substMany s hr ht := (fixesFunctions_substMany hr ht s).1

end Term

/-! ### Evaluation -/

/-- Each recursion that is reached evaluates to an abstraction. -/
theorem Evaluates.fixesFunctions {t v : Term} {seen : List Observation}
    (h : Evaluates .empty t v seen) (ht : t.fixesFunctions) :
    v.fixesFunctions ∧ ∀ w, .unfolded w ∈ seen → w.isAbs := by
  induction h with
  | var hx _ _ => cases hx
  | lit l => exact ⟨ht, nofun⟩
  | abs x t => exact ⟨ht, nofun⟩
  | ctor name => exact ⟨ht, nofun⟩
  | @beta f a a' t v x seen₁ seen₂ seen₃ s _ _ _ ihf iha iht =>
    rw [Term.fixesFunctions, Bool.and_eq_true] at ht
    obtain ⟨hf, hseen₁⟩ := ihf ht.1
    obtain ⟨ha, hseen₂⟩ := iha ht.2
    have hbody : t.fixesFunctions := hf
    obtain ⟨hv, hseen₃⟩ := iht (Term.fixesFunctions_subst hbody x ha s).1
    refine ⟨hv, ?_⟩
    simpa only [List.mem_append, or_imp, forall_and] using ⟨hseen₁, hseen₂, hseen₃⟩
  | app _ _ _ ihf iha =>
    rw [Term.fixesFunctions, Bool.and_eq_true] at ht
    obtain ⟨hf, hseen₁⟩ := ihf ht.1
    obtain ⟨ha, hseen₂⟩ := iha ht.2
    refine ⟨by rw [Term.fixesFunctions, hf, ha]; rfl, ?_⟩
    simpa only [List.append_nil, List.mem_append, or_imp, forall_and] using ⟨hseen₁, hseen₂⟩
  | @fix x t v seen s hbody ih =>
    have hfix := ht
    rw [Term.fixesFunctions, Bool.and_eq_true] at ht
    obtain ⟨hfixes, habs⟩ := Term.fixesFunctions_subst ht.2 x hfix s
    obtain ⟨hv, hseen⟩ := ih hfixes
    obtain ⟨y, b, hb⟩ := Term.exists_of_isAbs (habs ht.1)
    rw [hb] at hbody
    cases hbody
    refine ⟨hv, fun w hw => ?_⟩
    rcases List.mem_append.1 hw with hw | hw
    · exact hseen w hw
    · cases List.mem_singleton.1 hw
      rfl
  | computed _ _ _ iha ihb =>
    rw [Term.fixesFunctions, Bool.and_eq_true] at ht
    refine ⟨rfl, ?_⟩
    simpa [or_imp, forall_and] using ⟨(iha ht.1).2, (ihb ht.2).2⟩
  | binary _ _ _ iha ihb =>
    rw [Term.fixesFunctions, Bool.and_eq_true] at ht
    obtain ⟨ha, hseen₁⟩ := iha ht.1
    obtain ⟨hb, hseen₂⟩ := ihb ht.2
    refine ⟨by rw [Term.fixesFunctions, ha, hb]; rfl, ?_⟩
    simpa [or_imp, forall_and] using ⟨hseen₁, hseen₂⟩
  | negated _ ih => exact ⟨rfl, (ih ht).2⟩
  | not _ _ ih => exact ih ht
  | @branch a b e v seen₁ seen₂ choice _ _ iha ihb =>
    rw [Term.fixesFunctions, Bool.and_eq_true, Bool.and_eq_true] at ht
    have hbranch : (if choice then b else e).fixesFunctions := by
      cases choice
      · exact ht.2
      · exact ht.1.2
    obtain ⟨hv, hseen₂⟩ := ihb hbranch
    refine ⟨hv, ?_⟩
    simpa only [List.mem_append, or_imp, forall_and] using ⟨(iha ht.1.1).2, hseen₂⟩
  | cond _ _ iha =>
    rw [Term.fixesFunctions, Bool.and_eq_true, Bool.and_eq_true] at ht
    obtain ⟨ha, hseen⟩ := iha ht.1.1
    refine ⟨by rw [Term.fixesFunctions, ha, ht.1.2, ht.2]; rfl, ?_⟩
    rwa [List.append_nil]
  | select s _ hmatch _ iha iht =>
    rw [Term.fixesFunctions_select_iff] at ht
    obtain ⟨ha, hseen₁⟩ := iha ht.1
    obtain ⟨hv, hseen₂⟩ := iht (Term.textual_fixesFunctions.firstMatch hmatch ha ht.2 s)
    refine ⟨hv, ?_⟩
    simpa [or_imp, forall_and] using ⟨hseen₁, hseen₂⟩

end CoreCalculus
