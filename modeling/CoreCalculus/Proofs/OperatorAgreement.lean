/-
  CoreCalculus/Proofs/OperatorAgreement.lean
  ==========================================
  **Operators mean the same to both engines.**

  On code, abstractions, recursions and case distinctions are applications too, of combinators and
  of operators, and none of them may pass for data.  They do not, since data is headed by a
  literal or a constructor (`Code.Plain`); so a term and its code show the same literal and are
  data together, and what an operator sees of its operands is the same on both sides.

  What the common outcome is on integers is said in terms of the unbounded ones.  Two integers
  in range have a quotient out of range in one case only.
-/
import CoreCalculus.Proofs.ValueCode

namespace CoreCalculus

open Code

/-! ### Outcomes -/

namespace BinaryOp

namespace Outcome

/-- The number itself where it fits, never a wrapped one. -/
structure IsExact (outcome : Outcome) (n : Int) : Prop where
  of_fits : Fits n → ∃ c : Int64, c.toInt = n ∧ outcome = .ok (some (.int c))
  of_not_fits : ¬ Fits n → outcome = .error .overflow

/-- The quotient rounded toward zero, with both of its faults. -/
structure IsQuotient (outcome : Outcome) (a b : Int) : Prop where
  divisionByZero_iff : outcome = .error .divisionByZero ↔ b = 0
  overflow_iff : outcome = .error .overflow ↔ a = -9223372036854775808 ∧ b = -1
  of_defined : b ≠ 0 → ¬ (a = -9223372036854775808 ∧ b = -1) →
    ∃ c : Int64, c.toInt = a.tdiv b ∧ outcome = .ok (some (.int c))

/-- A truth value on data only, and then that of structural equality. -/
structure IsEquality (outcome : Outcome) (l r : Term) : Prop where
  bool_iff : (∃ v, outcome = .ok (some (.bool v))) ↔ l.isData ∧ r.isData
  true_iff : l.isData → r.isData → (outcome = .ok (some (.bool true)) ↔ l = r)

end Outcome

/-- What an operator makes of two integers, over the unbounded ones. -/
def IntegerMeaning (outcome : Outcome) (a b : Int) : BinaryOp → Prop
  | .add => outcome.IsExact (a + b)
  | .sub => outcome.IsExact (a - b)
  | .mul => outcome.IsExact (a * b)
  | .div => outcome.IsQuotient a b
  | .eq => outcome = .ok (some (.bool (a = b)))
  | .le => outcome = .ok (some (.bool (a ≤ b)))
  | .and | .or => outcome = .ok none

end BinaryOp

/-! ### Operands on both sides -/

namespace Code

theorem literal?_of_not_plain {c : Code} (h : ¬ c.Plain) : c.literal? = none :=
  Option.eq_none_iff_forall_ne_some.2 fun _ hl => h (plain_of_literal? hl)

theorem isData_of_not_plain {c : Code} (h : ¬ c.Plain) : c.isData = false :=
  Bool.eq_false_iff.2 fun hdata => h (plain_of_isData hdata).1

theorem IsFunction.not_plain {c : Code} (h : c.IsFunction) : ¬ c.Plain := by
  obtain ⟨combinator, -, hhead, -⟩ := h
  exact not_plain_comb hhead

end Code

namespace Term

/-- Neither a name, a constant nor an application. -/
def IsCompound : Term → Prop
  | .abs _ _ | .fix _ _ | .binary _ _ _ | .not _ | .cond _ _ _ | .select _ _ => True
  | _ => False

/-- Their code is headed by a combinator or an operator. -/
theorem IsCompound.not_plain_code {optimize : Bool} {t : Term} (h : t.IsCompound) :
    ¬ (t.code optimize).Plain := by
  cases t with
  | abs x b => exact (isFunction_abstract optimize x _).not_plain
  | fix x b => exact not_plain_comb rfl
  | binary op a b =>
    rw [code_binary, plain_apply_iff]
    exact not_plain_prim
  | not a =>
    rw [code_not, plain_apply_iff]
    exact not_plain_prim
  | cond a b e =>
    rw [code_cond, plain_apply_iff]
    exact not_plain_prim
  | select a cases =>
    rw [code_select, plain_apply_iff]
    rintro ⟨k, hk⟩
    cases hk
  | _ => cases h

theorem literal?_code (optimize : Bool) (t : Term) :
    (t.code optimize).literal? = t.literal? := by
  cases t with
  | var _ | lit _ | ctor _ | app _ _ => rfl
  | _ => exact literal?_of_not_plain (IsCompound.not_plain_code trivial)

/-- A term is data exactly when its code is. -/
theorem isData_code (optimize : Bool) (t : Term) : (t.code optimize).isData = t.isData := by
  induction t using induct with
  | var _ | lit _ | ctor _ => rfl
  | app f a ihf iha => rw [code_app, Code.isData, isData, literal?_code, ihf, iha]
  | _ => exact isData_of_not_plain (IsCompound.not_plain_code trivial)

/-- Equality of data can be read off its code; the two sides need not be translated alike, since
    optimization leaves data alone. -/
theorem code_eq_iff_of_isData {l r : Term} (hl : l.isData) (hr : r.isData) (o₁ o₂ : Bool) :
    l.code o₁ = r.code o₂ ↔ l = r :=
  (images_code o₁ hl).eq_iff (images_code o₂ hr)

end Term

namespace BinaryOp

/-- The outcome on two terms. -/
def outcomeOn (op : BinaryOp) (l r : Term) : Outcome :=
  op.outcome l.literal? r.literal? (l.isData && r.isData) (l = r)

theorem onCode_code (op : BinaryOp) (l r : Term) (o₁ o₂ : Bool) :
    op.onCode (l.code o₁) (r.code o₂) = (op.outcomeOn l r).mapError
      (ReduceError.ofFault
        (Code.apply (.const (.prim (.binary op))) [l.code o₁, r.code o₂])) := by
  rw [onCode_eq, Term.literal?_code, Term.literal?_code, Term.isData_code, Term.isData_code,
    outcomeOn]
  refine congrArg _ (outcome_congr fun hdata => decide_eq_decide.2 ?_)
  rw [Bool.and_eq_true] at hdata
  exact Term.code_eq_iff_of_isData hdata.1 hdata.2 o₁ o₂

end BinaryOp

/-! ### Integers -/

/-- Only the negation of the least integer is out of range. -/
theorem fits_tdiv_iff {a b : Int} (ha : Fits a) (hb : b ≠ 0) :
    Fits (a.tdiv b) ↔ ¬ (a = -9223372036854775808 ∧ b = -1) := by
  rw [Fits] at ha ⊢
  by_cases hminus : b = -1
  · rw [hminus, Int.tdiv_neg, Int.tdiv_one]
    omega
  by_cases hone : b = 1
  · rw [hone, Int.tdiv_one]
    omega
  -- any other divisor halves at least
  have hhalf : (a.tdiv b).natAbs ≤ a.natAbs / 2 := by
    rw [Int.natAbs_tdiv]
    exact Nat.div_le_div_left (by omega) (by decide)
  omega

namespace BinaryOp

theorem isExact_exact (n : Int) : Outcome.IsExact ((exact n).map (some ∘ .int)) n := by
  cases h : exact n with
  | ok c =>
    rw [exact_eq_ok_iff] at h
    subst h
    exact ⟨fun _ => ⟨c, rfl, rfl⟩, fun hn => absurd (fits_toInt c) hn⟩
  | error e =>
    obtain ⟨hn, rfl⟩ := exact_eq_error_iff.1 h
    exact ⟨fun hfits => absurd hfits hn, fun _ => rfl⟩

theorem isQuotient_compute (a b : Int64) :
    Outcome.IsQuotient (div.compute (.int a) (.int b)) a.toInt b.toInt := by
  rw [compute]
  by_cases hb : b.toInt = 0
  · rw [if_pos hb]
    exact ⟨iff_of_true rfl hb, iff_of_false (by decide) (by omega), fun hne => absurd hb hne⟩
  rw [if_neg hb]
  have hfits := fits_tdiv_iff (fits_toInt a) hb
  have hexact := isExact_exact (a.toInt.tdiv b.toInt)
  by_cases hmin : a.toInt = -9223372036854775808 ∧ b.toInt = -1
  · rw [hexact.of_not_fits fun h => hfits.1 h hmin]
    exact ⟨iff_of_false (by decide) hb, iff_of_true rfl hmin, fun _ h => absurd hmin h⟩
  · obtain ⟨c, hc, hok⟩ := hexact.of_fits (hfits.2 hmin)
    rw [hok]
    exact ⟨iff_of_false nofun hb, iff_of_false nofun hmin, fun _ _ => ⟨c, hc, rfl⟩⟩

theorem integerMeaning_outcomeOn (op : BinaryOp) (a b : Int64) :
    op.IntegerMeaning (op.outcomeOn (.lit (.int a)) (.lit (.int b))) a.toInt b.toInt := by
  cases op with
  | add | sub | mul => exact isExact_exact _
  | div => exact isQuotient_compute a b
  | eq =>
    have heq : (Term.lit (.int a) = .lit (.int b)) ↔ a.toInt = b.toInt := by
      rw [Term.lit.injEq, Literal.int.injEq, Int64.toInt_inj]
    exact congrArg (fun v => Except.ok (some (Literal.bool v))) (decide_eq_decide.2 heq)
  | and | or | le => rfl

theorem isEquality_outcomeOn (l r : Term) : (eq.outcomeOn l r).IsEquality l r where
  bool_iff := by simp [outcomeOn, outcome_eq_some_iff]
  true_iff hl hr := by simp [outcomeOn, outcome_eq_some_iff, hl, hr]

/-- **Both engines carry out the same operators.**  On any two terms and on their code there is
    one outcome: the same literal, no result on both sides, or the same fault.  On integers it is
    exact.  Equality has a truth value exactly on data, and it is that of structural equality. -/
theorem engines_agree (op : BinaryOp) (l r : Term) (o₁ o₂ : Bool) :
    ∃ (L R : Code) (outcome : Outcome), l.compile o₁ = .ok L ∧ r.compile o₂ = .ok R ∧
      op.onTerms l r = outcome.mapError (EvalError.ofFault (.binary op l r)) ∧
      op.onCode L R = outcome.mapError
        (ReduceError.ofFault (Code.apply (.const (.prim (.binary op))) [L, R])) ∧
      (∀ a b : Int64, l = .lit (.int a) → r = .lit (.int b) →
        op.IntegerMeaning outcome a.toInt b.toInt) ∧
      (op = .eq → outcome.IsEquality l r) := by
  refine ⟨l.code o₁, r.code o₂, op.outcomeOn l r, l.compile_eq o₁, r.compile_eq o₂,
    op.onTerms_eq l r, op.onCode_code l r o₁ o₂, ?_, ?_⟩
  · rintro a b rfl rfl
    exact op.integerMeaning_outcomeOn a b
  · rintro rfl
    exact isEquality_outcomeOn l r

theorem engines_agree_least :
    ∃ L R : Code, (Term.lit (.int Int64.minValue)).compile true = .ok L ∧
      (Term.lit (.int (-1))).compile false = .ok R ∧
      div.onTerms (.lit (.int Int64.minValue)) (.lit (.int (-1))) =
        .error (.overflow (.binary .div (.lit (.int Int64.minValue)) (.lit (.int (-1))))) ∧
      div.onCode L R = .error (.overflow (.apply (.const (.prim (.binary .div))) [L, R])) := by
  obtain ⟨L, R, outcome, hL, hR, hterms, hcode, hint, -⟩ :=
    engines_agree .div (.lit (.int Int64.minValue)) (.lit (.int (-1))) true false
  have hoverflow : outcome = .error .overflow :=
    (hint _ _ rfl rfl).overflow_iff.2 ⟨by decide, by decide⟩
  rw [hoverflow] at hterms hcode
  exact ⟨L, R, hL, hR, hterms, hcode⟩

end BinaryOp

end CoreCalculus
