/-
  CoreCalculus/Proofs/TypedReduction.lean
  =======================================
  **Evaluation and reduction of typed programs.**

  A program that evaluates to a literal need not reduce to it (`engines_differ`): the fixed
  point of something that is no function is never unfolded, a case analysis stays when it
  has to look at a comparison that stays, and equality normalizes functions, which may fail.

  Types leave these three ways and no other (`Term.literal_found`).  What a pattern is
  tested against has the type of a literal or a data type, so it is constructed unless
  it is blocked.
-/
import CoreCalculus.Proofs.Laziness
import CoreCalculus.Proofs.Progress

namespace CoreCalculus

open Code

/-! ### What is tested -/

/-- A value whose type is that of a literal or of data is a constant with its arguments, unless
    it is blocked. -/
theorem HasType.isConstructed {c : Context} (hc : c.Built) {θ : Assignment} {v : Term} {τ : Ty}
    (h : HasType (c.subst θ) v τ) (hτ : τ.Matchable) (hv : v.Evaluated) (hblocked : ¬ Blocked v) :
    v.IsConstructed := by
  have hshape := (h.blocked_or_hasShape hc hv).resolve_left hblocked
  cases hshape with
  | int n => exact .inl ⟨_, rfl⟩
  | bool b => exact .inl ⟨_, rfl⟩
  | abs σ ρ x t => obtain ⟨⟨n⟩ | ⟨b⟩, hτ⟩ | ⟨name, params, hτ⟩ := hτ <;> cases hτ
  | partially => exact .inr ⟨_, _, rfl⟩
  | ctor => exact .inr ⟨_, _, rfl⟩

/-- An observation that is typed is clear, unless it is of one of three kinds. -/
theorem Observation.Typed.clear {c : Context} (hc : c.Built) {θ : Assignment} {o : Observation}
    (h : o.Typed (c.subst θ)) (hrec : ∀ v, o = .unfolded v → v.isAbs)
    (hmatches : ∀ v, o = .matched v → ¬ v.AwaitsEquality)
    (htests : ∀ p v, o = .tested p v → ¬ Blocked v) : o.Clear := by
  cases o with
  | matched v => exact hmatches v rfl
  | tested p v =>
    obtain ⟨hv, τ, hτ, hvτ⟩ := h
    exact hvτ.isConstructed hc hτ hv (htests p v rfl)
  | operated op a b => trivial
  | unfolded v => exact hrec v rfl

/-! ### Literals -/

/-- **Reduction finds the literals of typed programs.**  A typed program that evaluates to a
    literal has code that reduces to it, provided that its recursions that are reached are of
    functions, no subject of a match waits for an equality, and no pattern is tested against a
    blocked value. -/
theorem Term.literal_found {c : Context} (hc : c.Built) {t : Term} {τ : Ty} {l : Literal}
    {fuel fuel' : Nat} (hinfer : t.infer? fuel c = some (.ok τ))
    (heval : t.eval? fuel' .empty = some (.ok (.lit l)))
    (hrec : ∀ v, .unfolded v ∈ t.observe .empty fuel' ⟨0⟩ → v.isAbs)
    (hmatches : ∀ v, .matched v ∈ t.observe .empty fuel' ⟨0⟩ → ¬ v.AwaitsEquality)
    (htests : ∀ p v, .tested p v ∈ t.observe .empty fuel' ⟨0⟩ → ¬ Blocked v)
    (optimize : Bool) : ∃ code, t.compile optimize = .ok code ∧
      Settles (fun n => code.reduce? n) (.ok (.const (.lit l))) := by
  obtain ⟨θ, hθ⟩ := principal_of_infer? hinfer
  obtain ⟨⟨_, s⟩, hrun, rfl⟩ := Option.map_eq_some_iff.1 heval
  have hevaluates := Evaluates.of_evaluate hrun
  have htyped := (hθ.typed.evaluates hevaluates).2
  have hclear : ∀ o ∈ t.observe .empty fuel' ⟨0⟩, o.Clear := fun o ho =>
    (htyped o ho).clear hc (fun v hv => hrec v (hv ▸ ho)) (fun v hv => hmatches v (hv ▸ ho))
      fun p v hv => htests p v (hv ▸ ho)
  exact ⟨_, compile_eq optimize t, (hevaluates.normalizesTo hclear rfl optimize).settles⟩

theorem substMany_lit (r : Replacements) (l : Literal) (s : Supply) :
    Term.substMany r (.lit l) s = (.lit l, s) := by
  simp only [Term.substMany]

/-- A recursion is called with an equality of functions, which it drops; its result is tested. -/
theorem literal_found_recursion :
    let id : Term := .abs "x" (.var "x")
    let function : Term := .abs "n" (.lit (.int 1))
    let call : Term := .app (.fix "f" function) (.binary .eq id id)
    let t : Term := .select call [(.lit (.int 1), .lit (.int 5)), (.var "x", .lit (.int 0))]
    Context.empty.Built ∧ t.infer? 12 .empty = some (.ok .int) ∧
      t.eval? 6 .empty = some (.ok (.lit (.int 5))) ∧
      (∀ v, .unfolded v ∈ t.observe .empty 6 ⟨0⟩ → v.isAbs) ∧
      (∀ v, .matched v ∈ t.observe .empty 6 ⟨0⟩ → ¬ v.AwaitsEquality) ∧
      (∀ p v, .tested p v ∈ t.observe .empty 6 ⟨0⟩ → ¬ Blocked v) ∧
      ∃ code, t.compile true = .ok code ∧
        Settles (fun n => code.reduce? n) (.ok (.const (.lit (.int 5)))) := by
  intro id function call t
  have hinfer : t.infer? 12 .empty = some (.ok .int) := by decide +kernel
  have hunfold : function.subst "f" (.fix "f" function) ⟨0⟩ = (function, ⟨0⟩) := by
    simp only [function, Term.subst, Term.substMany, Term.substUnder]
    rfl
  have hfunction : (Term.fix "f" function).evaluate .empty 4 ⟨0⟩ = some (.ok function, ⟨0⟩) := by
    change (Run.update (function.subst "f" (.fix "f" function)) >>= Term.evaluate .empty 3) ⟨0⟩ = _
    rw [Run.bind_apply, Run.update_apply, hunfold]
    rfl
  have hcall : call.evaluate .empty 5 ⟨0⟩ = some (.ok (.lit (.int 1)), ⟨0⟩) := by
    refine Run.bind_eq_ok_iff.2 ⟨_, _, hfunction,
      Run.bind_eq_ok_iff.2 ⟨.binary .eq id id, _, rfl, ?_⟩⟩
    change (Run.update (Term.subst _ "n" _) >>= Term.evaluate .empty 4) ⟨0⟩ = _
    rw [Run.bind_apply, Run.update_apply, Term.subst, substMany_lit]
    rfl
  have heval : t.eval? 6 .empty = some (.ok (.lit (.int 5))) := by
    refine Option.map_eq_some_iff.2 ⟨(_, ⟨0⟩), Run.bind_eq_ok_iff.2 ⟨_, _, hcall, ?_⟩, rfl⟩
    change (Run.update (Term.substMany .empty _) >>= Term.evaluate .empty 5) ⟨0⟩ = _
    rw [Run.bind_apply, Run.update_apply, substMany_lit]
    rfl
  have hunfolded : (Term.fix "f" function).observe .empty 4 ⟨0⟩ = [.unfolded function] := by
    change Term.observe _ _ (function.subst "f" _ ⟨0⟩).1 (function.subst "f" _ ⟨0⟩).2 ++
      afterwards ((function.subst "f" _ ⟨0⟩).1.evaluate _ _ (function.subst "f" _ ⟨0⟩).2) _ = _
    rw [hunfold]
    rfl
  have hcalled : call.observe .empty 5 ⟨0⟩ = [.unfolded function, .operated .eq id id] := by
    change (Term.fix "f" function).observe .empty 4 ⟨0⟩ ++
      afterwards ((Term.fix "f" function).evaluate .empty 4 ⟨0⟩) _ = _
    rw [hunfolded, hfunction]
    change _ :: _ :: Term.observe _ _ (Term.subst _ "n" _ ⟨0⟩).1 _ = _
    rw [Term.subst, substMany_lit]
    rfl
  have hobserve : t.observe .empty 6 ⟨0⟩ = [.unfolded function, .operated .eq id id,
      .matched (.lit (.int 1)), .tested (.lit (.int 1)) (.lit (.int 1))] := by
    change call.observe .empty 5 ⟨0⟩ ++ afterwards (call.evaluate .empty 5 ⟨0⟩) _ = _
    rw [hcalled, hcall]
    change _ :: _ :: _ :: _ :: Term.observe _ _ (Term.substMany _ _ ⟨0⟩).1 _ = _
    rw [substMany_lit]
    rfl
  have hrec : ∀ v, .unfolded v ∈ t.observe .empty 6 ⟨0⟩ → v.isAbs := by
    simp [hobserve, function, Term.isAbs]
  have hmatches : ∀ v, .matched v ∈ t.observe .empty 6 ⟨0⟩ → ¬ v.AwaitsEquality := by
    have hliteral : ¬ (Term.lit (.int 1)).AwaitsEquality := fun h => by cases h
    simp [hobserve, hliteral]
  have htests : ∀ p v, .tested p v ∈ t.observe .empty 6 ⟨0⟩ → ¬ Blocked v := by
    have hliteral : ¬ Blocked (.lit (.int 1)) := fun h => by cases h
    simp [hobserve, hliteral]
  exact ⟨.empty, hinfer, heval, hrec, hmatches, htests,
    Term.literal_found .empty hinfer heval hrec hmatches htests true⟩

/-! ### What types do not rule out -/

/-- The closed typed term evaluates to the literal, and its code reduces to something else. -/
def Term.Loses (t : Term) (l : Literal) : Prop :=
  t.free = [] ∧ (∃ fuel τ, t.infer? fuel .empty = some (.ok τ)) ∧
    (∃ fuel, t.eval? fuel .empty = some (.ok (.lit l))) ∧
    ∀ optimize, ∃ code r, t.compile optimize = .ok code ∧
      Settles (fun n => code.reduce? n) r ∧ r ≠ .ok (.const (.lit l))

/-- A fixed point that is a number is its own normal form. -/
theorem loses_fixed_number : Term.Loses (.fix "x" (.lit (.int 5))) (.int 5) := by
  refine ⟨rfl, ⟨9, .int, rfl⟩, ⟨2, ?_⟩, fun optimize => ?_⟩
  · change Option.map Prod.fst ((Run.update (Term.subst (.lit (.int 5)) _ _) >>=
      Term.evaluate _ 1) ⟨0⟩) = _
    rw [Run.bind_apply, Run.update_apply, Term.subst, substMany_lit]
    rfl
  · have hreduce : ((Term.fix "x" (.lit (.int 5))).code optimize).reduce? 9 =
        some (.ok (.app (.comb .y) (.app (.comb .k) (.const (.lit (.int 5)))))) := by
      cases optimize <;> rfl
    exact ⟨_, _, Term.compile_eq optimize _, settles_reduce? hreduce, fun h => by cases h⟩

/-- A comparison of functions is tested against a literal pattern. -/
theorem loses_tested_comparison :
    let id : Term := .abs "x" (.var "x")
    Term.Loses (.select (.binary .le id id)
      [(.lit (.bool true), .lit (.int 1)), (.var "x", .lit (.int 2))]) (.int 2) := by
  intro id
  refine ⟨rfl, ⟨12, .int, by decide +kernel⟩, ⟨3, ?_⟩, fun optimize => ?_⟩
  · have hsubject : (Term.binary .le id id).evaluate .empty 2 ⟨0⟩ =
        some (.ok (.binary .le id id), ⟨0⟩) := rfl
    refine Option.map_eq_some_iff.2 ⟨(_, ⟨0⟩), Run.bind_eq_ok_iff.2 ⟨_, _, hsubject, ?_⟩, rfl⟩
    change (Run.update (Term.substMany _ (.lit (.int 2))) >>= Term.evaluate _ 2) ⟨0⟩ = _
    rw [Run.bind_apply, Run.update_apply, substMany_lit]
    rfl
  · have hreduce : ((Term.select (.binary .le id id)
        [(.lit (.bool true), .lit (.int 1)), (.var "x", .lit (.int 2))]).code optimize).reduce? 9 =
        some (.ok (.apply (.const (.case [.lit (.bool true), .bind]))
          [.apply (.const (.prim (.binary .le))) [.comb .i, .comb .i], .const (.lit (.int 1)),
            .app (.comb .k) (.const (.lit (.int 2)))])) := by
      cases optimize <;> rfl
    exact ⟨_, _, Term.compile_eq optimize _, settles_reduce? hreduce, fun h => by cases h⟩

/-- Functions are compared, and to normalize one of them fails. -/
theorem loses_compared_functions :
    let broken : Term := .abs "x" (.binary .div (.lit (.int 1)) (.lit (.int 0)))
    let one : Term := .abs "x" (.lit (.int 1))
    Term.Loses (.select (.binary .eq broken one) [(.var "x", .lit (.int 2))]) (.int 2) := by
  intro broken one
  refine ⟨rfl, ⟨12, .int, by decide +kernel⟩, ⟨3, ?_⟩, fun optimize => ?_⟩
  · have hsubject : (Term.binary .eq broken one).evaluate .empty 2 ⟨0⟩ =
        some (.ok (.binary .eq broken one), ⟨0⟩) := rfl
    refine Option.map_eq_some_iff.2 ⟨(_, ⟨0⟩), Run.bind_eq_ok_iff.2 ⟨_, _, hsubject, ?_⟩, rfl⟩
    change (Run.update (Term.substMany _ (.lit (.int 2))) >>= Term.evaluate _ 2) ⟨0⟩ = _
    rw [Run.bind_apply, Run.update_apply, substMany_lit]
    rfl
  · have hreduce : ((Term.select (.binary .eq broken one)
        [(.var "x", .lit (.int 2))]).code optimize).reduce? 9 =
        some (.error (.divisionByZero (.apply (.const (.prim (.binary .div)))
          [.const (.lit (.int 1)), .const (.lit (.int 0))]))) := by
      cases optimize <;> rfl
    exact ⟨_, _, Term.compile_eq optimize _, settles_reduce? hreduce, fun h => by cases h⟩

/-- A program may evaluate to a literal without reducing to it: its fixed point is a number, or
    it tests a comparison of functions, or it compares functions that have no normal form. -/
theorem engines_differ :
    let id : Term := .abs "x" (.var "x")
    let broken : Term := .abs "x" (.binary .div (.lit (.int 1)) (.lit (.int 0)))
    let one : Term := .abs "x" (.lit (.int 1))
    Term.Loses (.fix "x" (.lit (.int 5))) (.int 5) ∧
      Term.Loses (.select (.binary .le id id)
        [(.lit (.bool true), .lit (.int 1)), (.var "x", .lit (.int 2))]) (.int 2) ∧
      Term.Loses (.select (.binary .eq broken one) [(.var "x", .lit (.int 2))]) (.int 2) :=
  ⟨loses_fixed_number, loses_tested_comparison, loses_compared_functions⟩

end CoreCalculus
