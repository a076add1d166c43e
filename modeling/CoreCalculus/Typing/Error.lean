/-
  CoreCalculus/Typing/Error.lean
  ==============================
  **Type errors.**  An error names the offending part of the term, and the types
  that clash there, resolved as far as they were known.
-/
import CoreCalculus.Term.Printer
import CoreCalculus.Ty.Unification

namespace CoreCalculus

/-- Which operand is at fault.  A right operand never is on its own, it is compared
    with the left one. -/
inductive Operand where
  | left
  | only
deriving DecidableEq

def Operand.describe : Operand → String
  | .left => "left operand"
  | .only => "operand"

inductive TypeError where
  | unboundVariable (name : String)
  | unknownConstructor (name : String)
  | operandMismatch (side : Operand) (operand expr : Term) (expected found : Ty)
  | operandsDisagree (left right expr : Term) (leftType rightType : Ty)
  | notAFunction (func arg : Term) (found : Ty)
  | argumentMismatch (arg expr : Term) (expected found : Ty)
  | nonBooleanCondition (test : Term) (found : Ty)
  | branchMismatch (expr : Term) (yesType noType : Ty)
  | recursionMismatch (name : String) (expected found : Ty)
  | patternMismatch (pattern : Pattern) (expected found : Ty)
  | caseMismatch (pattern : Pattern) (body : Term) (expected found : Ty)
  | constructorArity (name : String) (expected found : Nat)
  | duplicatePatternVariable (name : String) (pattern : Pattern)
  | emptyMatch (subject : Term)
  | nonExhaustive (typeName : String) (missing : List String)
  | infiniteType (term : Term) (v : TypeVar) (ty : Ty)
  | mismatch (term : Term) (expected found : Ty)
deriving DecidableEq

namespace TypeError

def message : TypeError → String
  | unboundVariable name => "unbound variable: " ++ name
  | unknownConstructor name => "unknown constructor: " ++ name
  | operandMismatch side operand expr expected found =>
    side.describe ++ " `" ++ operand.render ++ "` of `" ++ expr.render ++ "`: expected "
      ++ expected.render ++ ", found " ++ found.render
  | operandsDisagree left right expr leftType rightType =>
    "left operand `" ++ left.render ++ "` of `" ++ expr.render ++ "` is " ++ leftType.render
      ++ ", but right operand `" ++ right.render ++ "` is " ++ rightType.render
  | notAFunction func arg found =>
    "`" ++ func.render ++ "` has type " ++ found.render ++ " and cannot be applied to `"
      ++ arg.render ++ "`"
  | argumentMismatch arg expr expected found =>
    "argument `" ++ arg.render ++ "` of `" ++ expr.render ++ "`: expected " ++ expected.render
      ++ ", found " ++ found.render
  | nonBooleanCondition test found =>
    "condition `" ++ test.render ++ "` must be " ++ Ty.bool.render ++ ", found " ++ found.render
  | branchMismatch expr yesType noType =>
    "branches of `" ++ expr.render ++ "` disagree: then-branch is " ++ yesType.render
      ++ ", else-branch is " ++ noType.render
  | recursionMismatch name expected found =>
    "recursive binding `" ++ name ++ "` is used as " ++ expected.render ++ " but its body is "
      ++ found.render
  | patternMismatch pattern expected found =>
    "pattern `" ++ pattern.render ++ "` is " ++ found.render ++ " but must match "
      ++ expected.render
  | caseMismatch pattern body expected found =>
    "case `" ++ pattern.render ++ "` yields `" ++ body.render ++ "` of type " ++ found.render
      ++ ", earlier cases yield " ++ expected.render
  | constructorArity name expected found =>
    "constructor " ++ name ++ " takes " ++ Nat.repr expected
      ++ " argument(s) but the pattern gives " ++ Nat.repr found
  | duplicatePatternVariable name pattern =>
    "variable `" ++ name ++ "` is bound more than once in pattern `" ++ pattern.render ++ "`"
  | emptyMatch subject => "match on `" ++ subject.render ++ "` has no cases"
  | nonExhaustive typeName missing =>
    "non-exhaustive match on " ++ typeName ++ ": missing " ++ ", ".intercalate missing
  | infiniteType term v ty =>
    "cannot construct infinite type " ++ v.render ++ " = " ++ ty.render ++ " in `"
      ++ term.render ++ "`"
  | mismatch term expected found =>
    "type mismatch in `" ++ term.render ++ "`: expected " ++ expected.render ++ ", found "
      ++ found.render

end TypeError

end CoreCalculus
