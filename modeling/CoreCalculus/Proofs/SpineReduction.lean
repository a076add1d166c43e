/-
  CoreCalculus/Proofs/SpineReduction.lean
  =======================================
  **Head reduction goes along the spine.**

  The reducer takes the whole spine apart again after every contraction, and what is
  applied to more arguments than it needs carries the surplus along.  So the function of
  an application might as well be reduced first, by itself.

  A rule that applies takes a fixed number of arguments and looks at no others: a step of
  a longer spine is the step of the shorter one, with the same operands forced and the
  surplus appended to what comes out (`step_append`).  This is an equation between runs,
  so it covers the failures as well, with the code that they show and the contractions
  that were counted before.  A spine that is still waiting for arguments is its own head
  normal form, and there is nothing to compare.
-/
import CoreCalculus.Proofs.Stability

namespace CoreCalculus.Code

/-! ### One step with more arguments -/

/-- A step of a spine that waits for no more arguments does not look at those that follow. -/
theorem step_append (H N : Code → Reduction Code) {head : Code} {args : List Code}
    (h : ¬ head.Waits args.length) (more : List Code) :
    step H N head (args ++ more) = (do
      let s ← step H N head args
      pure (s.append more)) := by
  cases head with
  | var x => exact absurd trivial h
  | app f a => exact absurd trivial h
  | comb combinator =>
    obtain ⟨c, hc⟩ := exists_contractComb (Nat.not_lt.1 h)
    have hnow := hc []
    rw [List.append_nil] at hnow
    rw [step, step, hc, hnow]
    rfl
  | const k =>
    cases k with
    | lit l => exact absurd trivial h
    | ctor name => exact absurd trivial h
    | prim op =>
      change ¬ args.length < op.arity at h
      cases op with
      | not =>
        rcases args with _ | ⟨a, rest⟩
        · simp [Primitive.arity] at h
        · simp only [List.cons_append, step_not, Run.bind_assoc, Run.pure_bind,
            Step.append_ofLiteral?]
      | binary op =>
        rcases args with _ | ⟨a, _ | ⟨b, rest⟩⟩
        · simp [Primitive.arity] at h
        · simp [Primitive.arity] at h
        · simp only [List.cons_append, step_binary, Run.bind_assoc, Run.pure_bind,
            Step.append_ofLiteral?]
      | cond =>
        rcases args with _ | ⟨test, _ | ⟨yes, _ | ⟨no, rest⟩⟩⟩
        · simp [Primitive.arity] at h
        · simp [Primitive.arity] at h
        · simp [Primitive.arity] at h
        · simp only [List.cons_append, step_cond, Run.bind_assoc, Run.pure_bind,
            Step.append_ofCode?]
    | case shapes =>
      cases args with
      | nil => exact absurd (Nat.zero_le _) h
      | cons a args =>
        have hle : shapes.length ≤ args.length := Nat.le_of_lt_succ (Nat.lt_of_not_le h)
        have hlength : (args.take shapes.length).length = shapes.length := by
          rw [List.length_take, Nat.min_eq_left hle]
        rw [← List.take_append_drop shapes.length args, List.cons_append, List.append_assoc]
        simp only [step_case _ _ _ _ hlength, Run.bind_assoc, Run.pure_bind, Step.append_ofCode?]

/-! ### Head reduction with more arguments -/

/-- A failure comes out as it is, after as many contractions, whatever arguments follow. -/
theorem headNormal_apply_of_error {n k k' : Nat} {c : Code} {e : ReduceError}
    (h : headNormal n c k = some (.error e, k')) (args : List Code) :
    headNormal n (c.apply args) k = some (.error e, k') := by
  induction n generalizing c k with
  | zero => cases h
  | succ n ih =>
    by_cases hwaits : c.spine.1.Waits c.spine.2.length
    · rw [headNormal_of_waits hwaits] at h
      cases h
    rw [headNormal_succ] at h ⊢
    simp only [spine_apply, step_append _ _ hwaits, Run.bind_assoc]
    rcases Run.bind_eq_error_iff.1 h with hstep | ⟨s, k₁, hstep, hproceed⟩
    · exact Run.bind_eq_error_iff.2 (.inl hstep)
    · refine Run.bind_eq_error_iff.2 (.inr ⟨s, k₁, hstep, ?_⟩)
      cases s with
      | contracted next => exact ih (c := next) (k := k₁ + 1) hproceed
      | stuck rebuilt => cases hproceed

/-- From any count of contractions, head reduction comes to the answers that it yields. -/
theorem exists_settles_headNormal_iff {c : Code} {r : Except ReduceError Code} (k : Nat) :
    (∃ k', Settles (fun fuel => headNormal fuel c k) (r, k')) ↔
      Yields (fun fuel => headNormal fuel c) r := by
  refine ⟨fun ⟨k', h⟩ => ?_, fun h => (regular_headNormal c).settles h k⟩
  obtain ⟨n, hn⟩ := h.exists_eq
  exact (regular_headNormal c).yields_of_run hn

/-- **Head reduction goes along the spine.**  If `f` has the head normal form `w`, then `f` and `w`
    with the same arguments come to the same answer, code or error, or neither comes to one.  If
    the head reduction of `f` fails, then so it does with arguments, in the same way. -/
theorem headNormal_along_spine (f : Code) (args : List Code) :
    (∀ fuel k w k', headNormal fuel f k = some (.ok w, k') → ∀ j j' r,
      (∃ i, Settles (fun fuel => headNormal fuel (f.apply args) j) (r, i)) ↔
        ∃ i, Settles (fun fuel => headNormal fuel (w.apply args) j') (r, i)) ∧
    ∀ fuel k e k', headNormal fuel f k = some (.error e, k') →
      Settles (fun fuel => headNormal fuel (f.apply args) k) (.error e, k') := by
  refine ⟨fun fuel k w k' h j j' r => ?_, fun fuel k e k' h => ?_⟩
  · have hw : HeadsTo f w := (regular_headNormal f).yields_of_run h
    rw [exists_settles_headNormal_iff, exists_settles_headNormal_iff]
    exact hw.yields_apply_iff args
  · exact Settles.of_mono (fun n r hn => (regular_headNormal (f.apply args)).le n k r hn)
      (headNormal_apply_of_error h args)

/-- A case analysis that is stuck on its subject, and one that fails, with an argument too many.
    The subject is forced before the argument comes, and is forced again afterwards. -/
theorem headNormal_along_spine_case :
    let analysis : Code → Code := fun subject =>
      .apply (.const (.case [.lit (.int 1)])) [.app (.comb .i) subject, .comb .k]
    let stuck : Code := .apply (.const (.case [.lit (.int 1)])) [.var "x", .comb .k]
    let two : Code := .const (.lit (.int 2))
    headNormal 3 (analysis (.var "x")) 0 = some (.ok stuck, 1) ∧
      (∃ i, Settles (fun fuel => headNormal fuel ((analysis (.var "x")).apply [two]) 0)
        (.ok (stuck.apply [two]), i)) ∧
      headNormal 3 (analysis two) 0 = some (.error (.noMatchingCase two), 1) ∧
      Settles (fun fuel => headNormal fuel ((analysis two).apply [two]) 0)
        (.error (.noMatchingCase two), 1) := by
  intro analysis stuck two
  have hstuck : headNormal 3 (analysis (.var "x")) 0 = some (.ok stuck, 1) := by decide +kernel
  have hfails : headNormal 3 (analysis two) 0 = some (.error (.noMatchingCase two), 1) := by
    decide +kernel
  have hmore : headNormal 3 (stuck.apply [two]) 0 = some (.ok (stuck.apply [two]), 0) := by
    decide +kernel
  have hsettles := (exists_settles_headNormal_iff 0).2
    ((regular_headNormal _).yields_of_run hmore)
  exact ⟨hstuck, ((headNormal_along_spine _ [two]).1 _ _ _ _ hstuck 0 0 _).2 hsettles, hfails,
    (headNormal_along_spine _ [two]).2 _ _ _ _ hfails⟩

end CoreCalculus.Code
