/-
  CoreCalculus/Literal.lean
  =========================
  **Literals and exact operators on them.**

  A literal is a 64-bit signed integer or a truth value.  Every engine of the
  library computes with the same operators: an operator is carried out over the
  unbounded integers first, and its result is accepted only when it fits 64 bits
  (`exact`).  So an accepted result is always the mathematical one, and a result
  that does not fit is a fault, never a wrapped number.
-/

namespace CoreCalculus

/-- A literal constant. -/
inductive Literal where
  | int (value : Int64)
  | bool (value : Bool)
deriving DecidableEq, Inhabited

/-- Decimal digits with a leading `-` for negative integers; `True` and `False`. -/
def Literal.render : Literal → String
  | .int value => Int.repr value.toInt
  | .bool true => "True"
  | .bool false => "False"

def Literal.isNegative : Literal → Bool
  | .int value => value.toInt < 0
  | .bool _ => false

/-! ### Operators -/

/-- Binary operators. -/
inductive BinaryOp where
  | add
  | sub
  | mul
  | div
  | and
  | or
  | eq
  | le
deriving DecidableEq, Inhabited

namespace BinaryOp

def symbol : BinaryOp → String
  | add => "+"
  | sub => "-"
  | mul => "*"
  | div => "/"
  | and => "and"
  | or => "or"
  | eq => "="
  | le => "<="

/-- A comparison relates two operands of one type and yields a truth value. -/
def isComparison : BinaryOp → Bool
  | eq | le => true
  | _ => false

end BinaryOp

/-! ### Arithmetic in 64 bits -/

/-- Why an arithmetic operator has no result. -/
inductive Fault where
  | divisionByZero
  | overflow
deriving DecidableEq

/-- The integers that 64 bits hold: at least `-2 ^ 63`, less than `2 ^ 63`. -/
def Fits (r : Int) : Prop := -9223372036854775808 ≤ r ∧ r < 9223372036854775808

instance (r : Int) : Decidable (Fits r) := inferInstanceAs (Decidable (_ ∧ _))

/-- Accept an exact result when it fits. -/
def exact (r : Int) : Except Fault Int64 :=
  if Fits r then .ok (Int64.ofInt r) else .error .overflow

theorem fits_toInt (a : Int64) : Fits a.toInt :=
  ⟨a.le_toInt, a.toInt_lt⟩

theorem exact_eq_ok_iff {r : Int} {c : Int64} : exact r = .ok c ↔ c.toInt = r := by
  unfold exact
  split
  · rename_i h
    simp only [Except.ok.injEq]
    constructor
    · rintro rfl
      exact Int64.toInt_ofInt_of_le h.1 h.2
    · rintro rfl
      simp
  · rename_i h
    simp only [reduceCtorEq, false_iff]
    rintro rfl
    exact h (fits_toInt c)

theorem exact_eq_error_iff {r : Int} {e : Fault} :
    exact r = .error e ↔ ¬ Fits r ∧ e = .overflow := by
  unfold exact
  split
  · simp_all
  · simp_all [eq_comm]

/-- An operator on two literals: `none` when no rule covers operands of these
    kinds.  Division truncates toward zero; a zero divisor is its own fault; for
    `<=` on truth values `False` comes before `True`.  Equality is not listed
    here, it compares whole data values and belongs to the engines. -/
def BinaryOp.compute : BinaryOp → Literal → Literal → Except Fault (Option Literal)
  | .add, .int a, .int b => (exact (a.toInt + b.toInt)).map (some ∘ .int)
  | .sub, .int a, .int b => (exact (a.toInt - b.toInt)).map (some ∘ .int)
  | .mul, .int a, .int b => (exact (a.toInt * b.toInt)).map (some ∘ .int)
  | .div, .int a, .int b =>
      if b.toInt = 0 then .error .divisionByZero
      else (exact (a.toInt.tdiv b.toInt)).map (some ∘ .int)
  | .le, .int a, .int b => .ok (some (.bool (a.toInt ≤ b.toInt)))
  | .le, .bool a, .bool b => .ok (some (.bool (!a || b)))
  | .and, .bool a, .bool b => .ok (some (.bool (a && b)))
  | .or, .bool a, .bool b => .ok (some (.bool (a || b)))
  | _, _, _ => .ok none

end CoreCalculus
