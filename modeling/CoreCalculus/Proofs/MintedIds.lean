/-
  CoreCalculus/Proofs/MintedIds.lean
  ==================================
  **How many ids inference mints.**

  A term says how many fresh variables its inference may ask for: one for each binder,
  pattern variable and application, one for the results of a match, and for each name and
  constructor as many as a scheme of the context quantifies.  Binders and pattern
  variables are monomorphic, so the context does not get wider on the way (`Narrow`),
  and the count is the same wherever the term stands.

  This is what the counter can move by, whether inference succeeds or fails.
-/
import CoreCalculus.Proofs.JustifiedErrors

namespace CoreCalculus

/-! ### What a term asks for -/

namespace Pattern

mutual

/-- The fresh variables that the check of a pattern asks for at most, when data types have `w`
    parameters. -/
def demand (w : Nat) : Pattern → Nat
  | .var _ => 1
  | .lit _ => 0
  | .ctor _ subs => w + demandAll w subs

def demandAll (w : Nat) : List Pattern → Nat
  | [] => 0
  | p :: ps => p.demand w + demandAll w ps

end

end Pattern

namespace Term

mutual

/-- The fresh variables that inference of a term asks for at most, when schemes quantify `w`
    variables. -/
def demand (w : Nat) : Term → Nat
  | .var _ => w
  | .lit _ => 0
  | .ctor _ => w
  | .app f a => f.demand w + a.demand w + 1
  | .abs _ t => t.demand w + 1
  | .fix _ t => t.demand w + 1
  | .binary _ a b => a.demand w + b.demand w
  | .not a => a.demand w
  | .cond a b c => a.demand w + b.demand w + c.demand w
  | .select s cs => s.demand w + demandCases w cs + 1

def demandCases (w : Nat) : List (Pattern × Term) → Nat
  | [] => 0
  | (p, t) :: cs => p.demand w + t.demand w + demandCases w cs

end

end Term

/-! ### Narrow contexts -/

/-- The constructors that are found belong to data types with at most `w` parameters. -/
def Registry.Narrow (w : Nat) (r : Registry) : Prop :=
  ∀ name d s, r.constructor? name = some (d, s) → d.params.length ≤ w

/-- All schemes that are found quantify at most `w` variables. -/
structure Context.Narrow (w : Nat) (c : Context) : Prop where
  schemes : ∀ x s, c.bindings.get? x = some s → s.vars.length ≤ w
  registry : c.registry.Narrow w

/-- The names are bound to types without quantified variables. -/
def Monomorphic (bindings : List (String × Scheme)) : Prop := ∀ e ∈ bindings, e.2.vars = []

namespace Context.Narrow

variable {w : Nat} {c : Context}

theorem empty (w : Nat) : Context.empty.Narrow w := ⟨nofun, nofun⟩

theorem extend (h : c.Narrow w) (x : String) {s : Scheme} (hs : s.vars = []) :
    (c.extend x s).Narrow w := by
  refine ⟨fun y s' hget => ?_, h.registry⟩
  simp only [Context.extend, Table.get?_insert] at hget
  split at hget
  · cases hget
    rw [hs]
    exact Nat.zero_le w
  · exact h.schemes y s' hget

theorem extendAll (h : c.Narrow w) {bindings : List (String × Scheme)}
    (hmono : Monomorphic bindings) : (c.extendAll bindings).Narrow w := by
  induction bindings generalizing c with
  | nil => exact h
  | cons e bindings ih =>
    obtain ⟨he, hmono⟩ := List.forall_mem_cons.1 hmono
    exact ih (h.extend e.1 he) hmono

end Context.Narrow

namespace Checker

/-! ### Steps -/

/-- Counted without a bound, a run of the check mints at most `b` ids, and what it answers has `Q`. -/
def Mints {α : Type} (m : Check α) (b : Nat) (Q : α → Prop) : Prop :=
  ∀ k r k', k.counting = .unbounded → m k = some (r, k') →
    k'.counting = .unbounded ∧ k'.supply.next ≤ k.supply.next + b ∧ ∀ a, r = .ok a → Q a

namespace Mints

variable {α β : Type} {m : Check α} {f : α → Check β} {b b' : Nat} {Q : α → Prop} {Q' : β → Prop}

theorem mono (h : Mints m b Q) (hb : b ≤ b') : Mints m b' Q := by
  intro k r k' hk hrun
  obtain ⟨hk', hnext, hQ⟩ := h k r k' hk hrun
  exact ⟨hk', by omega, hQ⟩

theorem bind (hm : Mints m b Q) (hf : ∀ a, Q a → Mints (f a) b' Q') :
    Mints (m >>= f) (b + b') Q' := by
  intro k r k' hk h
  rcases Run.bind_eq_some_iff.1 h with ⟨e, hrun, rfl⟩ | ⟨a, k₁, hrun, h⟩
  · obtain ⟨hk', hnext, -⟩ := hm k _ k' hk hrun
    exact ⟨hk', by omega, nofun⟩
  · obtain ⟨hk₁, hnext, ha⟩ := hm k _ k₁ hk hrun
    obtain ⟨hk', hnext', hQ'⟩ := hf a (ha a rfl) k₁ r k' hk₁ h
    exact ⟨hk', by omega, hQ'⟩

theorem pure {a : α} (ha : Q a) : Mints (Pure.pure a) 0 Q := by
  intro k r k' hk h
  cases h
  refine ⟨hk, Nat.le_refl _, fun a' h => ?_⟩
  cases h
  exact ha

theorem fail {e : TypeError} : Mints (Run.fail e) b Q := by
  intro k r k' hk h
  cases h
  exact ⟨hk, Nat.le_add_right _ _, nofun⟩

theorem ofExcept (x : Except TypeError Unit) : Mints (Run.ofExcept x) 0 fun _ => True := by
  cases x with
  | error e => exact fail
  | ok a => exact pure trivial

theorem fresh : Mints Checker.fresh 1 fun _ => True := by
  intro k r k' hk h
  rw [fresh_eq_mint hk] at h
  cases h
  exact ⟨hk, Nat.le_refl _, fun _ _ => trivial⟩

theorem resolve (n : Nat) (t : Ty) : Mints (Checker.resolve n t) 0 fun _ => True := by
  intro k r k' hk h
  obtain ⟨u, -, heq⟩ := Option.map_eq_some_iff.1 h
  cases heq
  exact ⟨hk, Nat.le_refl _, fun _ _ => trivial⟩

theorem expect (n : Nat) (e f : Ty) (t : Term) (onMismatch : Ty → Ty → TypeError) :
    Mints (Checker.expect n e f t onMismatch) 0 fun _ => True := by
  intro k r k' hk h
  obtain ⟨_, s, -, rfl, -⟩ := expect_cases h
  exact ⟨hk, Nat.le_refl _, fun _ _ => trivial⟩

theorem freshFor (bindings : Table Nat Ty) (vars : List TypeVar) :
    Mints (Checker.freshFor bindings vars) vars.length fun _ => True := by
  induction vars generalizing bindings with
  | nil => exact pure trivial
  | cons v vars ih => exact (fresh.bind fun _ _ => ih _).mono (Nat.add_comm _ _).le

theorem instantiate {s : Scheme} (hs : s.vars.length ≤ b) :
    Mints (Checker.instantiate s) b fun _ => True :=
  ((freshFor .empty s.vars).bind fun _ _ => pure trivial).mono hs

end Mints

/-! ### Patterns -/

/-- The check of the pattern mints what it asks for at most, and its variables are monomorphic. -/
def PatternMints (n : Nat) (r : Registry) (w : Nat) (p : Pattern) : Prop :=
  Mints (typePattern n r p) (p.demand w) fun typed => Monomorphic typed.2

theorem typeSubPatterns_mints (n : Nat) {r : Registry} {w : Nat} (t : Term) {subs : List Pattern}
    (ih : ∀ p ∈ subs, PatternMints n r w p) (args : List Ty) :
    Mints (typeSubPatterns n r t subs args) (Pattern.demandAll w subs) Monomorphic := by
  induction subs generalizing args with
  | nil => exact .pure nofun
  | cons p subs ihs =>
    cases args with
    | nil => exact Mints.mono (.pure nofun) (Nat.zero_le _)
    | cons a args =>
      rw [List.forall_mem_cons] at ih
      simp only [typeSubPatterns, Pattern.demandAll]
      refine Mints.mono (.bind ih.1 fun typed htyped => .bind (.expect n _ _ t _) fun _ _ =>
        .bind (ihs ih.2 args) fun more hmore => .pure ?_) (by omega)
      exact List.forall_mem_append.2 ⟨htyped, hmore⟩

theorem typePattern_mints (n : Nat) {r : Registry} {w : Nat} (hr : r.Narrow w) (p : Pattern) :
    PatternMints n r w p := by
  induction p using Pattern.induct with
  | var x => exact .bind .fresh fun σ _ => .pure fun e he => by rw [List.mem_singleton.1 he]; rfl
  | lit l => exact .pure nofun
  | ctor name subs ih =>
    unfold PatternMints
    simp only [typePattern, Pattern.demand]
    rcases hname : r.constructor? name with _ | ⟨d, s⟩
    · exact .fail
    dsimp only
    split
    · exact .fail
    have hparams := hr name d s hname
    exact Mints.mono (.bind (.freshFor .empty d.params) fun bindings _ =>
      .bind (typeSubPatterns_mints n _ ih _) fun vars hvars => .pure hvars) (by omega)

/-! ### Terms -/

/-- Inference of the term mints what it asks for at most. -/
def TermMints (n w : Nat) (t : Term) : Prop :=
  ∀ c : Context, c.Narrow w → Mints (typeOf n c t) (t.demand w) fun _ => True

theorem typeCase_mints (n : Nat) {w : Nat} (s : Term) (σ τ : Ty) {e : Pattern × Term}
    (ih : TermMints n w e.2) {c : Context} (hc : c.Narrow w) :
    Mints (typeCase n c s σ τ e) (e.1.demand w + e.2.demand w) fun _ => True := by
  simp only [typeCase]
  refine .bind (typePattern_mints n hc.registry e.1) fun typed htyped => ?_
  have hrest : Mints (do
      Checker.expect n σ typed.1 s (.patternMismatch e.1)
      let ρ ← typeOf n (c.extendAll typed.2) e.2
      Checker.expect n τ ρ e.2 (.caseMismatch e.1 e.2)) (e.2.demand w) fun _ => True :=
    Mints.mono (.bind (.expect n σ _ s _) fun _ _ =>
      .bind (ih _ (hc.extendAll htyped)) fun ρ _ => .expect n τ ρ e.2 _) (by omega)
  rcases firstRepeated? [] (typed.2.map Prod.fst) with _ | name
  · exact hrest
  · exact .fail

theorem typeCases_mints (n : Nat) {w : Nat} (s : Term) (σ τ : Ty) {cases : List (Pattern × Term)}
    (ih : ∀ e ∈ cases, TermMints n w e.2) {c : Context} (hc : c.Narrow w) :
    Mints (typeCases n c s σ τ cases) (Term.demandCases w cases) fun _ => True := by
  induction cases with
  | nil => exact .pure trivial
  | cons e cases ihc =>
    rw [List.forall_mem_cons] at ih
    rw [typeCases_cons]
    exact .bind (typeCase_mints n s σ τ ih.1 hc) fun _ _ => ihc ih.2

theorem typeOf_mints (n w : Nat) (t : Term) : TermMints n w t := by
  intro c hc
  induction t using Term.induct generalizing c with
  | var x =>
    simp only [typeOf]
    rcases hx : c.bindings.get? x with _ | s
    · exact .fail
    · exact .instantiate (hc.schemes x s hx)
  | lit l => exact .pure trivial
  | ctor name =>
    simp only [typeOf]
    rcases hname : c.registry.constructor? name with _ | ⟨d, s⟩
    · exact .fail
    · exact .instantiate (hc.registry name d s hname)
  | app f a ihf iha =>
    simp only [typeOf, Term.demand]
    refine Mints.mono (.bind (ihf c hc) fun φ _ => .bind (iha c hc) fun σ _ =>
      .bind (.resolve n φ) fun u _ => ?_) (b := _ + (_ + (0 + 1))) (by omega)
    cases u with
    | func param result =>
      exact Mints.mono (.bind (.expect n _ _ _ _) fun _ _ => .resolve n result) (by omega)
    | var v =>
      exact .bind .fresh fun ρ _ => .bind (.expect n _ _ _ _) fun _ _ => .resolve n ρ
    | const _ | prod _ _ | app _ _ | adt _ _ => exact .fail
  | abs x t ih =>
    simp only [typeOf, Term.demand]
    exact Mints.mono (.bind .fresh fun σ _ => .bind (ih _ (hc.extend x rfl)) fun _ _ =>
      .bind (.resolve n σ) fun _ _ => .pure trivial) (by omega)
  | fix x t ih =>
    simp only [typeOf, Term.demand]
    exact Mints.mono (.bind .fresh fun σ _ => .bind (ih _ (hc.extend x rfl)) fun _ _ =>
      .bind (.expect n _ _ _ _) fun _ _ => .resolve n σ) (by omega)
  | binary op a b iha ihb =>
    simp only [typeOf, Term.demand]
    refine .bind (iha c hc) fun σ _ => ?_
    have hanswer : Mints (if op.isComparison then return .bool else Checker.resolve n σ) 0
        fun _ => True := by
      split
      · exact .pure trivial
      · exact .resolve n σ
    have hright : Mints (do
        let ρ ← typeOf n c b
        Checker.expect n σ ρ (.binary op a b) (.operandsDisagree a b (.binary op a b))
        if op.isComparison then return .bool else Checker.resolve n σ) (b.demand w)
        fun _ => True :=
      .bind (ihb c hc) fun ρ _ => .bind (.expect n σ ρ _ _) fun _ _ => hanswer
    cases op with
    | eq | le => exact hright
    | add | sub | mul | div | and | or =>
      exact Mints.mono (.bind (.expect n _ _ _ _) fun _ _ => hright) (by omega)
  | not a ih =>
    simp only [typeOf, Term.demand]
    exact .bind (ih c hc) fun _ _ => .bind (.expect n _ _ _ _) fun _ _ => .pure trivial
  | cond a b e iha ihb ihe =>
    simp only [typeOf, Term.demand]
    exact Mints.mono (.bind (iha c hc) fun _ _ => .bind (.expect n _ _ _ _) fun _ _ =>
      .bind (ihb c hc) fun σ _ => .bind (ihe c hc) fun _ _ =>
        .bind (.expect n _ _ _ _) fun _ _ => .resolve n σ) (by omega)
  | select s cases ihs ihc =>
    simp only [typeOf, Term.demand]
    split
    · exact .fail
    · exact Mints.mono (.bind (ihs c hc) fun σ _ => .bind .fresh fun τ _ =>
        .bind (typeCases_mints n s σ τ ihc hc) fun _ _ => .bind (.resolve n σ) fun _ _ =>
          .bind (.ofExcept _) fun _ _ => .resolve n τ) (by omega)

/-- Whether it fails or not, inference mints no more ids than the term asks for. -/
theorem infer_mints (n : Nat) {w : Nat} (t : Term) {c : Context} (hc : c.Narrow w) :
    Mints (infer n c t) (t.demand w) fun _ => True :=
  .bind (typeOf_mints n w t c hc) fun τ _ => .resolve n τ

end Checker

end CoreCalculus
