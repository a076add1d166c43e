/-
  CoreCalculus/Mixed/Bracket.lean
  ===============================
  **Bracket abstraction**: compiling terms to combinator code.

  `[x] E` is code that behaves as `\x. E`:

      [x] x      =  I
      [x] E      =  K E              x not free in E
      [x] E F    =  S ([x] E) ([x] F)
      [x] E F    =  C ([x] E) F      x free in E only, when optimizing
      [x] E F    =  B E ([x] F)      x free in F only, when optimizing

  Abstractions are removed from the inside out, so a body is applicative by the
  time its variable is abstracted.  Operators, conditionals and matches become
  constants applied to their parts; recursion becomes `Y` applied to an
  abstraction; a case becomes the function of the variables of its pattern.
-/
import CoreCalculus.Mixed

namespace CoreCalculus

namespace Mixed

/-- `[x] body`, with `B` and `C` when `optimize` is set. -/
def abstractVar (optimize : Bool) (x : String) : Mixed → Except CompileError Mixed
  | .var y => .ok (if y = x then .comb .i else .app (.comb .k) (.var y))
  | .const constant => .ok (.app (.comb .k) (.const constant))
  | .comb combinator => .ok (.app (.comb .k) (.comb combinator))
  | .app f a =>
    if !(f.isApplicative && a.isApplicative) then .error (.residual (app f a).kind)
    else if x ∉ f.free ∧ x ∉ a.free then .ok (.app (.comb .k) (.app f a))
    else if (x ∈ f.free ∧ x ∈ a.free) ∨ !optimize then do
      return .app (.app (.comb .s) (← f.abstractVar optimize x)) (← a.abstractVar optimize x)
    else if x ∈ f.free then do
      return .app (.app (.comb .c) (← f.abstractVar optimize x)) a
    else do
      return .app (.app (.comb .b) f) (← a.abstractVar optimize x)
  | body => .error (.residual body.kind)

/-- Abstract several variables, the last one innermost. -/
def abstractVars (optimize : Bool) : List String → Mixed → Except CompileError Mixed
  | [], body => .ok body
  | x :: xs, body => do abstractVar optimize x (← abstractVars optimize xs body)

/-- An operator applied to its operands. -/
def applyPrim (op : Primitive) (operands : List Mixed) : Mixed :=
  operands.foldl .app (.const (.prim op))

mutual

/-- Remove every node that code does not have, from the inside out. -/
def eliminate (optimize : Bool) : Mixed → Except CompileError Mixed
  | .var x => .ok (.var x)
  | .const constant => .ok (.const constant)
  | .comb combinator => .ok (.comb combinator)
  | .app f a => do return .app (← f.eliminate optimize) (← a.eliminate optimize)
  | .abs x body => do abstractVar optimize x (← body.eliminate optimize)
  | .binary op a b => do
    return applyPrim (.binary op) [← a.eliminate optimize, ← b.eliminate optimize]
  | .not a => do return applyPrim .not [← a.eliminate optimize]
  | .cond a b c => do
    return applyPrim .cond
      [← a.eliminate optimize, ← b.eliminate optimize, ← c.eliminate optimize]
  | .fix x body => do
    return .app (.comb .y) (← abstractVar optimize x (← body.eliminate optimize))
  | .select subject cases => do
    let shapes := cases.map fun c => Shape.ofPattern c.1
    let subject ← subject.eliminate optimize
    let functions ← eliminateCases optimize cases
    return functions.foldl .app (.app (.const (.case shapes)) subject)

/-- The function of each case: its body, abstracted over the variables of its pattern. -/
def eliminateCases (optimize : Bool) :
    List (Pattern × Mixed) → Except CompileError (List Mixed)
  | [] => .ok []
  | (p, body) :: cases => do
    let function ← abstractVars optimize p.vars (← body.eliminate optimize)
    let functions ← eliminateCases optimize cases
    return function :: functions

end

end Mixed

/-- Compile a term to combinator code. -/
def Term.compile (optimize : Bool) (t : Term) : Except CompileError Code := do
  (← (Mixed.ofTerm t).eliminate optimize).toCode

end CoreCalculus
