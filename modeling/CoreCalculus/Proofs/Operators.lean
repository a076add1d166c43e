/-
  CoreCalculus/Proofs/Operators.lean
  ==================================
  **What operators make of their operands.**

  The evaluator applies an operator to terms, the reducer to code.  Both look at the operands in
  three ways only: which literals they are, whether they are data, and whether they are equal.  The
  outcome is one function of these (`BinaryOp.outcome`), and an engine adds nothing to it but
  the operands that an error shows (`BinaryOp.onTerms_eq`, `BinaryOp.onCode_eq`).
-/
import CoreCalculus.Code.Reduction
import CoreCalculus.Evaluation

namespace CoreCalculus

theorem mapError_eq_ok_iff {ε ε' α : Type} {x : Except ε α} {f : ε → ε'} {a : α} :
    x.mapError f = .ok a ↔ x = .ok a := by
  cases x with
  | error e => constructor <;> intro h <;> cases h
  | ok b =>
    constructor <;> intro h
    · cases h
      rfl
    · cases h
      rfl

namespace BinaryOp

/-- A literal, no result, or a fault. -/
abbrev Outcome := Except Fault (Option Literal)

/-- The outcome on operands, of which it is known which literals they are, whether both are data,
    and whether they are the same. -/
def outcome (op : BinaryOp) (l r : Option Literal) (data same : Bool) : Outcome :=
  if op = .eq then
    .ok (if data then some (.bool same) else none)
  else
    match l, r with
    | some m, some n => op.compute m n
    | _, _ => .ok none

section

variable {op : BinaryOp} {l r : Option Literal} {data same : Bool} {v : Literal}

/-- Equality has a result on data only. -/
theorem outcome_eq_some_iff :
    BinaryOp.eq.outcome l r data same = .ok (some v) ↔ data ∧ v = .bool same := by
  unfold outcome
  rw [if_pos rfl]
  cases data <;> simp [eq_comm]

/-- Other operators have a result on literals only. -/
theorem outcome_compute_iff (hop : op ≠ .eq) : op.outcome l r data same = .ok (some v) ↔
    ∃ m n, l = some m ∧ r = some n ∧ op.compute m n = .ok (some v) := by
  unfold outcome
  rw [if_neg hop]
  rcases l with _ | m
  · simp
  · rcases r with _ | n <;> simp

theorem outcome_eq_none_iff (hop : op ≠ .eq) : op.outcome l r data same = .ok none ↔
    ∀ m n, l = some m → r = some n → op.compute m n = .ok none := by
  unfold outcome
  rw [if_neg hop]
  rcases l with _ | m
  · simp
  · rcases r with _ | n <;> simp

/-- Whether operands that are not data are the same does not matter. -/
theorem outcome_congr {same' : Bool} (h : data → same = same') :
    op.outcome l r data same = op.outcome l r data same' := by
  cases data with
  | false => rfl
  | true => rw [h rfl]

end

/-! ### On terms -/

section

variable {op : BinaryOp} {a b : Term} {l : Literal}

theorem onTerms_eq (op : BinaryOp) (a b : Term) :
    op.onTerms a b = (op.outcome a.literal? b.literal? (a.isData && b.isData) (a = b)).mapError
      (EvalError.ofFault (.binary op a b)) := by
  unfold onTerms outcome
  split
  · rfl
  · rcases a.literal? with _ | m
    · rfl
    · rcases b.literal? with _ | n <;> rfl

theorem onTerms_eq_some_iff :
    BinaryOp.eq.onTerms a b = .ok (some l) ↔ a.isData ∧ b.isData ∧ l = .bool (a = b) := by
  rw [onTerms_eq, mapError_eq_ok_iff, outcome_eq_some_iff, Bool.and_eq_true, and_assoc]

theorem onTerms_compute_iff (hop : op ≠ .eq) :
    op.onTerms a b = .ok (some l) ↔ ∃ m n, a.literal? = some m ∧ b.literal? = some n ∧
      op.compute m n = .ok (some l) := by
  rw [onTerms_eq, mapError_eq_ok_iff, outcome_compute_iff hop]

theorem onTerms_eq_none_iff (hop : op ≠ .eq) :
    op.onTerms a b = .ok none ↔ ∀ m n, a.literal? = some m → b.literal? = some n →
      op.compute m n = .ok none := by
  rw [onTerms_eq, mapError_eq_ok_iff, outcome_eq_none_iff hop]

/-- An operator fails only by a fault of its computation. -/
theorem exists_fault_of_onTerms {e : EvalError} (h : op.onTerms a b = .error e) :
    ∃ fault, e = .ofFault (.binary op a b) fault := by
  rw [onTerms_eq] at h
  cases houtcome : op.outcome a.literal? b.literal? (a.isData && b.isData) (a = b) with
  | error fault =>
    rw [houtcome] at h
    cases h
    exact ⟨fault, rfl⟩
  | ok l? =>
    rw [houtcome] at h
    cases h

end

/-! ### On code -/

section

variable {op : BinaryOp} {a b : Code} {l : Literal}

theorem onCode_eq (op : BinaryOp) (a b : Code) :
    op.onCode a b = (op.outcome a.literal? b.literal? (a.isData && b.isData) (a = b)).mapError
      (ReduceError.ofFault (Code.apply (.const (.prim (.binary op))) [a, b])) := by
  unfold onCode outcome
  split
  · rfl
  · rcases a.literal? with _ | m
    · rfl
    · rcases b.literal? with _ | n <;> rfl

theorem onCode_eq_some_iff :
    BinaryOp.eq.onCode a b = .ok (some l) ↔ a.isData ∧ b.isData ∧ l = .bool (a = b) := by
  rw [onCode_eq, mapError_eq_ok_iff, outcome_eq_some_iff, Bool.and_eq_true, and_assoc]

theorem onCode_eq_none (h : ¬ (a.isData ∧ b.isData)) : BinaryOp.eq.onCode a b = .ok none := by
  rw [onCode, if_pos rfl, if_neg (by simpa using h)]

theorem onCode_compute_iff (hop : op ≠ .eq) :
    op.onCode a b = .ok (some l) ↔ ∃ m n, a.literal? = some m ∧ b.literal? = some n ∧
      op.compute m n = .ok (some l) := by
  rw [onCode_eq, mapError_eq_ok_iff, outcome_compute_iff hop]

theorem onCode_eq_none_iff (hop : op ≠ .eq) :
    op.onCode a b = .ok none ↔ ∀ m n, a.literal? = some m → b.literal? = some n →
      op.compute m n = .ok none := by
  rw [onCode_eq, mapError_eq_ok_iff, outcome_eq_none_iff hop]

end

end BinaryOp

end CoreCalculus
