/-
  CoreCalculus/Evaluation.lean
  ============================
  **Evaluation by substitution.**

  Subterms are evaluated first, from left to right; then the node is reduced if a
  rule applies, and is rebuilt from its evaluated parts if none does.  Bodies of
  abstractions wait until they are applied, the branches of a conditional wait
  for its test.  A free name is looked up in the scope, whose terms are evaluated
  each time they are reached.
-/
import CoreCalculus.Matching
import CoreCalculus.Run
import CoreCalculus.Term.Printer
import CoreCalculus.Term.Substitution

namespace CoreCalculus

/-- What the free names of an evaluated term stand for; the terms are unevaluated. -/
abbrev Scope := Table String Term

/-! ### Failures -/

inductive EvalError where
  | unboundVariable (name : String)
  | divisionByZero (expr : Term)
  | overflow (expr : Term)
  | noMatchingCase (subject : Term)
deriving DecidableEq

def EvalError.message : EvalError → String
  | .unboundVariable name => "unbound variable: " ++ name
  | .divisionByZero expr => "division by zero in `" ++ expr.render ++ "`"
  | .overflow expr => "integer overflow in `" ++ expr.render ++ "`"
  | .noMatchingCase subject => "no case matches `" ++ subject.render ++ "`"

def EvalError.ofFault (expr : Term) : Fault → EvalError
  | .divisionByZero => .divisionByZero expr
  | .overflow => .overflow expr

/-! ### Operators on evaluated operands -/

/-- The literal a binary operator yields on evaluated operands, `none` when it stays
    as it is.  Equality compares data, whole values at once. -/
def BinaryOp.onTerms (op : BinaryOp) (left right : Term) : Except EvalError (Option Literal) :=
  if op = .eq then
    .ok (if left.isData && right.isData then some (.bool (left = right)) else none)
  else
    match left.literal?, right.literal? with
    | some a, some b => (op.compute a b).mapError (EvalError.ofFault (.binary op left right))
    | _, _ => .ok none

/-! ### The evaluator -/

/-- The ids minted so far are the state of an evaluation. -/
abbrev Evaluation (α : Type) := Run Supply EvalError α

namespace Term

/-- Evaluate a term in a scope. -/
def evaluate (scope : Scope) : Nat → Term → Evaluation Term
  | 0, _ => Run.outOfFuel
  | fuel + 1, t =>
    match t with
    | .var x =>
      match scope.get? x with
      | some bound => bound.evaluate scope fuel
      | none => Run.fail (.unboundVariable x)
    | .lit _ => pure t
    | .abs _ _ => pure t
    | .ctor _ => pure t
    | .app func arg => do
      let func ← evaluate scope fuel func
      let arg ← evaluate scope fuel arg
      match func with
      | .abs x body =>
        let body ← Run.update (body.subst x arg)
        evaluate scope fuel body
      | _ => pure (.app func arg)
    | .fix x body => do
      let body ← Run.update (body.subst x t)
      evaluate scope fuel body
    | .binary op left right => do
      let left ← evaluate scope fuel left
      let right ← evaluate scope fuel right
      match ← Run.ofExcept (op.onTerms left right) with
      | some l => pure (.lit l)
      | none => pure (.binary op left right)
    | .not operand => do
      match ← evaluate scope fuel operand with
      | .lit (.bool b) => pure (.lit (.bool !b))
      | operand => pure (.not operand)
    | .cond test yes no => do
      match ← evaluate scope fuel test with
      | .lit (.bool true) => evaluate scope fuel yes
      | .lit (.bool false) => evaluate scope fuel no
      | test => pure (.cond test yes no)
    | .select subject cases => do
      let subject ← evaluate scope fuel subject
      match subject.firstMatch cases with
      | some (bindings, body) =>
        let body ← Run.update (substMany bindings body)
        evaluate scope fuel body
      | none => Run.fail (.noMatchingCase subject)

/-- The value of a term, evaluated with a supply of its own. -/
def eval? (fuel : Nat) (scope : Scope) (t : Term) : Option (Except EvalError Term) :=
  (t.evaluate scope fuel ⟨0⟩).map Prod.fst

end Term

end CoreCalculus
