/-
  CoreCalculus/Proofs/WordIds.lean
  ================================
  **Inference with ids that are machine words.**

  A session that counts in words does what one without a bound does, as long as all
  numbers that the latter mints are words.  This holds of each step that inference is
  made of, and of any steps together, because a counter without a bound never goes
  back.  So principal types are found in words too, for every context and term whose
  ids fit.  That they do can be read off the term and the context (`idsFit_of_demand`),
  unless the context mentions one of the last words.

  Beyond that they are not.  When the context mentions the largest word, the session
  starts at `0`, and a variable that is meant to be fresh may be one of the context.
-/
import CoreCalculus.Proofs.Instantiation
import CoreCalculus.Proofs.MintedIds
import CoreCalculus.Proofs.PrincipalTypes

namespace CoreCalculus

namespace Checker

/-! ### One session, counted in two ways -/

/-- The session with its counter kept in a word. -/
def inWords (k : Checker) : Checker :=
  { k with supply := ⟨k.supply.next % wordCount⟩, counting := .word }

theorem inWords_ofContext (c : Context) : (ofContext c).inWords = ofContext c .word := by
  simp only [ofContext, inWords]
  rcases c.maxId? with _ | i <;> rfl

/-- Where a run without a bound stops within the words, it is the same in words. -/
def RunsInWords {α : Type} (m : Check α) : Prop :=
  ∀ k r k', k.counting = .unbounded → m k = some (r, k') → k'.supply.next ≤ wordCount →
    m k.inWords = some (r, k'.inWords)

theorem pure_runsInWords {α : Type} (a : α) : RunsInWords (pure a : Check α) := by
  intro k r k' _ h _
  cases h
  rfl

theorem fail_runsInWords {α : Type} (e : TypeError) : RunsInWords (Run.fail e : Check α) := by
  intro k r k' _ h _
  cases h
  rfl

theorem fresh_runsInWords : RunsInWords fresh := by
  intro k r k' hk h hfit
  rw [fresh_eq_mint hk] at h
  cases h
  have hlt : k.supply.next % wordCount = k.supply.next := Nat.mod_eq_of_lt hfit
  simp only [fresh, Run.update_apply, inWords, mint, Supply.draw, hlt]
  rfl

theorem resolve_runsInWords (n : Nat) (t : Ty) : RunsInWords (resolve n t) := by
  intro k r k' _ h _
  obtain ⟨u, hu, heq⟩ := Option.map_eq_some_iff.1 h
  cases heq
  exact Option.map_eq_some_iff.2 ⟨u, hu, rfl⟩

theorem expect_runsInWords (n : Nat) (e f : Ty) (t : Term) (onMismatch : Ty → Ty → TypeError) :
    RunsInWords (expect n e f t onMismatch) := by
  intro k r k' _ h _
  have hsolution : k.inWords.solution = k.solution := rfl
  unfold expect at h ⊢
  rw [hsolution]
  generalize Ty.unify n e f k.solution = answer at h ⊢
  rcases answer with _ | ⟨⟨_ | _⟩ | _, s⟩
  · cases h
  · simp only [Option.bind_eq_bind, Option.bind_eq_some_iff] at h ⊢
    obtain ⟨e', he, f', hf, heq⟩ := h
    cases heq
    exact ⟨e', he, f', hf, rfl⟩
  · cases h
    rfl
  · cases h
    rfl

/-- If the whole mints only words, so does its first part. -/
theorem RunsInWords.bind {α β : Type} {m : Check α} {f : α → Check β} (hm : RunsInWords m)
    (hjournal : Journaled m) (hf : ∀ a, RunsInWords (f a)) (hjournals : ∀ a, Journaled (f a)) :
    RunsInWords (m >>= f) := by
  intro k r k' hk h hfit
  rw [Run.bind_apply]
  rcases Run.bind_eq_some_iff.1 h with ⟨e, hrun, rfl⟩ | ⟨a, k₁, hrun, h⟩
  · rw [hm k _ k' hk hrun hfit]
  · obtain ⟨log, hlog⟩ := hjournal k _ k₁ hrun
    have hk₁ := hlog.counting_eq.trans hk
    obtain ⟨more, hmore⟩ := hjournals a k₁ r k' h
    rw [hm k _ k₁ hk hrun ((hmore.follows hk₁).le.trans hfit)]
    exact hf a k₁ r k' hk₁ h hfit

theorem freshFor_runsInWords (bindings : Table Nat Ty) (vars : List TypeVar) :
    RunsInWords (freshFor bindings vars) := by
  induction vars generalizing bindings with
  | nil => exact pure_runsInWords _
  | cons v vars ih =>
    exact fresh_runsInWords.bind fresh_journaled (fun _ => ih _) fun _ => freshFor_journaled _ vars

theorem Made.runsInWords {α : Type} {m : Check α} (h : Made m) : RunsInWords m := by
  induction h with
  | pure a => exact pure_runsInWords a
  | fail _ => exact fail_runsInWords _
  | bind hm hf ihm ihf => exact ihm.bind hm.journaled ihf fun a => (hf a).journaled
  | fresh => exact fresh_runsInWords
  | freshFor s => exact freshFor_runsInWords .empty s.vars
  | resolve n t => exact resolve_runsInWords n t
  | expect n t _ => exact expect_runsInWords n _ _ t _

end Checker

/-! ### Principal types -/

namespace Term

/-- The ids of the context and all that inference of the term mints are words: counted without a
    bound, the counter has not passed the number of words where inference stops. -/
def IdsFit (c : Context) (t : Term) : Prop :=
  ∀ fuel r k, Checker.infer fuel c t (Checker.ofContext c) = some (r, k) →
    k.supply.next ≤ wordCount

/-- Ids fit if what the term asks for is left between those of the context and the last word. -/
theorem idsFit_of_demand {c : Context} {w : Nat} (hc : c.Narrow w) {t : Term}
    (h : (Checker.ofContext c).supply.next + t.demand w ≤ wordCount) : t.IdsFit c := by
  intro fuel r k hrun
  exact (Checker.infer_mints fuel t hc _ r k rfl hrun).2.1.trans h

/-- As long as the ids fit, inference in words answers what inference without a bound does. -/
theorem IdsFit.exists_infer?_iff {c : Context} {t : Term} (h : t.IdsFit c)
    (r : Except TypeError Ty) :
    (∃ fuel, t.infer? fuel c .word = some r) ↔ ∃ fuel, t.infer? fuel c = some r := by
  obtain ⟨n, r₀, hunbounded⟩ := exists_infer? c t
  obtain ⟨⟨_, k⟩, hrun, rfl⟩ := Option.map_eq_some_iff.1 hunbounded
  have hwords := (Checker.infer_made n c t).runsInWords _ _ _ rfl hrun (h n _ k hrun)
  rw [Checker.inWords_ofContext] at hwords
  have hword : t.infer? n c .word = some _ := congrArg (Option.map Prod.fst) hwords
  constructor
  · rintro ⟨fuel, hr⟩
    exact ⟨n, (settles_infer? hword).unique (settles_infer? hr) ▸ hunbounded⟩
  · rintro ⟨fuel, hr⟩
    exact ⟨n, (settles_infer? hunbounded).unique (settles_infer? hr) ▸ hword⟩

/-- **Principal types.**  When all ids fit into words, inference in words always answers.  It yields
    a type exactly for the terms that have one, for some assignment of the free variables of the
    context.  The type and an assignment are then a typing of which every other one is an
    instance. -/
theorem inference_principal {c : Context} {t : Term} (h : t.IdsFit c) :
    ((∃ fuel τ, t.infer? fuel c .word = some (.ok τ)) ↔ ∃ θ τ, (c.subst θ).Types t τ) ∧
      ((∃ fuel e, t.infer? fuel c .word = some (.error e)) ↔ ¬ ∃ θ τ, (c.subst θ).Types t τ) ∧
      ∀ fuel τ, t.infer? fuel c .word = some (.ok τ) →
        ∃ θ, (c.subst θ).Types t τ ∧ ∀ θ' τ', (c.subst θ').Types t τ' →
          ∃ ρ : Assignment, τ'.alike (τ.assign ρ) ∧
            ∀ i ∈ c.freeIds, (θ' i).alike ((θ i).assign ρ) := by
  obtain ⟨hok, herror, hprincipal⟩ := infer?_principal c t
  refine ⟨?_, ?_, fun fuel τ hτ => ?_⟩
  · rw [← hok, exists_comm, exists_comm (p := fun fuel τ => t.infer? fuel c = some (.ok τ))]
    exact exists_congr fun τ => h.exists_infer?_iff _
  · rw [← herror, exists_comm, exists_comm (p := fun fuel e => t.infer? fuel c = some (.error e))]
    exact exists_congr fun e => h.exists_infer?_iff _
  · obtain ⟨fuel', hτ'⟩ := (h.exists_infer?_iff _).1 ⟨fuel, hτ⟩
    exact hprincipal fuel' τ hτ'

/-- The two variables that are minted are the last two words. -/
theorem inference_principal_last_words :
    let c := (Context.empty.extend "x" (.mono (.var ⟨0, none⟩))).extend "z"
      (.mono (.var ⟨wordCount - 3, none⟩))
    let t : Term := .abs "y" (.app (.var "x") (.var "y"))
    let τ : Ty := .func (.var ⟨wordCount - 2, none⟩) (.var ⟨wordCount - 1, none⟩)
    t.IdsFit c ∧ t.infer? 9 c .word = some (.ok τ) ∧
      ∃ θ, (c.subst θ).Types t τ ∧ ∀ θ' τ', (c.subst θ').Types t τ' →
        ∃ ρ : Assignment, τ'.alike (τ.assign ρ) ∧
          ∀ i ∈ c.freeIds, (θ' i).alike ((θ i).assign ρ) := by
  intro c t τ
  have hnarrow : c.Narrow 0 := ((Context.Narrow.empty 0).extend "x" rfl).extend "z" rfl
  have hfit : t.IdsFit c := idsFit_of_demand hnarrow (by decide +kernel)
  have hinfer : t.infer? 9 c .word = some (.ok τ) := by decide +kernel
  exact ⟨hfit, hinfer, (inference_principal hfit).2.2 9 τ hinfer⟩

/-- The context mentions the largest word, so the session starts at `0`, and takes the type of `y`
    for that of `x`.  The term has a type, with a function for `x`, and is refused. -/
theorem typable_refused_at_largest_word :
    let c := (Context.empty.extend "x" (.mono (.var ⟨0, none⟩))).extend "z"
      (.mono (.var ⟨wordCount - 1, none⟩))
    let t : Term := .abs "y" (.app (.var "x") (.var "y"))
    (∃ θ τ, (c.subst θ).Types t τ) ∧ ¬ ∃ fuel τ, t.infer? fuel c .word = some (.ok τ) := by
  intro c t
  have hunbounded : t.infer? 9 c =
      some (.ok (.func (.var ⟨wordCount, none⟩) (.var ⟨wordCount + 1, none⟩))) := by decide +kernel
  have hword : t.infer? 9 c .word =
      some (.error (.infiniteType (.app (.var "x") (.var "y")) ⟨0, none⟩
        (.func (.var ⟨0, none⟩) (.var ⟨1, none⟩)))) := by decide +kernel
  refine ⟨(infer?_principal c t).1.1 ⟨9, _, hunbounded⟩, ?_⟩
  rintro ⟨fuel, τ, hτ⟩
  cases (settles_infer? hword).unique (settles_infer? hτ)

end Term

end CoreCalculus
