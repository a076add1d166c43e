/-
  CoreCalculus/Code/Reduction.lean
  ================================
  **Lazy reduction of combinator code.**

  Only the head of the outermost spine is contracted.  An operator forces exactly
  the operands it needs; a stuck spine is rebuilt with the operands that were
  forced.  Head reduction (`headNormal`) repeats until no rule applies; full
  reduction (`normalize`) then treats every argument of the remaining spine.

  One step may call for reductions of operands, full ones for equality, which
  looks inside data.  So the step functions take the two reductions as arguments,
  and the recursion is closed at the end, on fuel.  The state of a reduction
  counts the contractions, nested ones included.
-/
import CoreCalculus.Code.Printer
import CoreCalculus.Run

namespace CoreCalculus

/-! ### Failures -/

inductive ReduceError where
  | divisionByZero (expr : Code)
  | overflow (expr : Code)
  | noMatchingCase (subject : Code)
deriving DecidableEq

def ReduceError.message : ReduceError → String
  | .divisionByZero expr => "division by zero in `" ++ expr.render ++ "`"
  | .overflow expr => "integer overflow in `" ++ expr.render ++ "`"
  | .noMatchingCase subject => "no case matches `" ++ subject.render ++ "`"

def ReduceError.ofFault (expr : Code) : Fault → ReduceError
  | .divisionByZero => .divisionByZero expr
  | .overflow => .overflow expr

/-- The number of contractions so far is the state of a reduction. -/
abbrev Reduction (α : Type) := Run Nat ReduceError α

/-! ### Operators on forced operands -/

/-- The literal a binary operator yields on forced operands, `none` when it is stuck.
    Equality compares data, whole values at once. -/
def BinaryOp.onCode (op : BinaryOp) (left right : Code) : Except ReduceError (Option Literal) :=
  if op = .eq then
    .ok (if left.isData && right.isData then some (.bool (left = right)) else none)
  else
    match left.literal?, right.literal? with
    | some a, some b =>
      let expr := Code.apply (.const (.prim (.binary op))) [left, right]
      (op.compute a b).mapError (ReduceError.ofFault expr)
    | _, _ => .ok none

/-! ### One step at the head of a spine -/

/-- What became of a spine. -/
inductive Step where
  | contracted (next : Code)
  | stuck (rebuilt : Code)

/-- The result of matching forced code against a shape; it is `stuck` when the code
    is neither a literal nor a constructor application. -/
inductive ShapeMatch where
  | matched (bindings : List Code)
  | failed
  | stuck

namespace Code

/-- The combinator rules.  Too few arguments leave the spine stuck; surplus ones are
    applied to the result. -/
def contractComb : Combinator → List Code → Step
  | .i, x :: rest => .contracted (apply x rest)
  | .k, x :: _ :: rest => .contracted (apply x rest)
  | .y, f :: x :: rest => .contracted (apply (.app (.app f (.app (.comb .y) f)) x) rest)
  | .s, x :: y :: z :: rest => .contracted (apply (.app (.app x z) (.app y z)) rest)
  | .b, x :: y :: z :: rest => .contracted (apply (.app x (.app y z)) rest)
  | .c, x :: y :: z :: rest => .contracted (apply (.app (.app x z) y) rest)
  | combinator, args => .stuck (apply (.comb combinator) args)

section

variable (headNormal normalize : Code → Reduction Code)

/-- The operator rules.  A conditional forces its test only, equality normalizes both
    operands, other operators reduce theirs to head normal form. -/
def applyPrim : Primitive → List Code → Reduction Step
  | .cond, test :: yes :: no :: rest => do
    let test ← headNormal test
    match test.literal? with
    | some (.bool true) => pure (.contracted (apply yes rest))
    | some (.bool false) => pure (.contracted (apply no rest))
    | _ => pure (.stuck (apply (.const (.prim .cond)) (test :: yes :: no :: rest)))
  | .not, operand :: rest => do
    let operand ← headNormal operand
    match operand.literal? with
    | some (.bool b) => pure (.contracted (apply (.const (.lit (.bool !b))) rest))
    | _ => pure (.stuck (apply (.const (.prim .not)) (operand :: rest)))
  | .binary op, left :: right :: rest => do
    let force := if op = .eq then normalize else headNormal
    let left ← force left
    let right ← force right
    match ← Run.ofExcept (op.onCode left right) with
    | some l => pure (.contracted (apply (.const (.lit l)) rest))
    | none => pure (.stuck (apply (.const (.prim (.binary op))) (left :: right :: rest)))
  | op, args => pure (.stuck (apply (.const (.prim op)) args))

mutual

/-- Match code against a shape, forcing it as far as the shape looks into it.  What is
    bound is handed on as it was, not forced. -/
def matchShape : Shape → Code → Reduction ShapeMatch
  | .bind, c => pure (.matched [c])
  | .lit l, c => do
    let (head, args) := (← headNormal c).spine
    match head, args with
    | .const (.lit found), [] => pure (if found = l then .matched [] else .failed)
    | .const (.ctor _), _ => pure .failed
    | _, _ => pure .stuck
  | .ctor name subs, c => do
    let (head, args) := (← headNormal c).spine
    match head with
    | .const (.ctor found) =>
      if found = name ∧ args.length = subs.length then matchShapes subs args else pure .failed
    | .const (.lit _) => pure .failed
    | _ => pure .stuck

/-- Match arguments one by one, up to the first that does not match. -/
def matchShapes : List Shape → List Code → Reduction ShapeMatch
  | sub :: subs, arg :: args => do
    match ← matchShape sub arg with
    | .matched bindings =>
      match ← matchShapes subs args with
      | .matched more => pure (.matched (bindings ++ more))
      | other => pure other
    | other => pure other
  | _, _ => pure (.matched [])

end

/-- Try the shapes in order: the function of the first one that matches, applied to
    what it binds; `none` when a shape is stuck. -/
def selectCase (subject : Code) : List Shape → List Code → Reduction (Option Code)
  | shape :: shapes, function :: functions => do
    match ← matchShape headNormal shape subject with
    | .matched bindings => pure (some (apply function bindings))
    | .failed => selectCase subject shapes functions
    | .stuck => pure none
  | _, _ => Run.fail (.noMatchingCase subject)

/-- Case analysis: a subject and a function for each shape. -/
def applyCase (shapes : List Shape) : List Code → Reduction Step
  | subject :: args =>
    if args.length < shapes.length then
      pure (.stuck (apply (.const (.case shapes)) (subject :: args)))
    else do
      let subject ← headNormal subject
      match ← selectCase headNormal subject shapes args with
      | some selected => pure (.contracted (apply selected (args.drop shapes.length)))
      | none => pure (.stuck (apply (.const (.case shapes)) (subject :: args)))
  | [] => pure (.stuck (.const (.case shapes)))

/-- One contraction at the head of a spine, if a rule applies. -/
def step (head : Code) (args : List Code) : Reduction Step :=
  match head with
  | .comb combinator => pure (contractComb combinator args)
  | .const (.prim op) => applyPrim headNormal normalize op args
  | .const (.case shapes) => applyCase headNormal shapes args
  | _ => pure (.stuck (apply head args))

/-- Treat the arguments of a spine one after another. -/
def normalizeArgs (head : Code) : List Code → Reduction Code
  | [] => pure head
  | arg :: args => do
    let arg ← normalize arg
    normalizeArgs (.app head arg) args

end

/-! ### The reductions -/

mutual

/-- Contract the head until no rule applies. -/
def headNormal : Nat → Code → Reduction Code
  | 0, _ => Run.outOfFuel
  | fuel + 1, c => do
    let (head, args) := c.spine
    match ← step (headNormal fuel) (normalize fuel) head args with
    | .contracted next =>
      Run.update fun steps => ((), steps + 1)
      headNormal fuel next
    | .stuck rebuilt => pure rebuilt

/-- Head normal form first, then every argument of the remaining spine. -/
def normalize : Nat → Code → Reduction Code
  | 0, _ => Run.outOfFuel
  | fuel + 1, c => do
    let (head, args) := (← headNormal fuel c).spine
    normalizeArgs (normalize fuel) head args

end

/-- The normal form of a piece of code. -/
def reduce? (fuel : Nat) (c : Code) : Option (Except ReduceError Code) :=
  (normalize fuel c 0).map Prod.fst

end Code

end CoreCalculus
