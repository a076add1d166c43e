/-
  CoreCalculus/Code.lean
  ======================
  **Combinator code**: what terms compile to.  Code has no abstraction; names,
  constants and the combinators

      I x = x        S x y z = x z (y z)        C x y z = x z y
      K x y = x      B x y z = x (y z)          Y f x = f (Y f) x

  are joined by application.  What the combinators cannot express (literals,
  operators, constructors, conditionals, case analysis) are constants, which mean
  something once they are applied to enough arguments.
-/
import CoreCalculus.Code.Shape

namespace CoreCalculus

/-! ### Leaves -/

inductive Combinator where
  | s
  | k
  | i
  | y
  | b
  | c
deriving DecidableEq, Inhabited

/-- Operators as constants. -/
inductive Primitive where
  | binary (op : BinaryOp)
  | not
  | cond
deriving DecidableEq, Inhabited

/-- How many arguments an operator needs. -/
def Primitive.arity : Primitive → Nat
  | .binary _ => 2
  | .not => 1
  | .cond => 3

/-- Leaves other than names and combinators.  `case shapes` takes a subject and one
    function for each shape, and selects the function of the first shape that the
    subject has. -/
inductive Constant where
  | lit (literal : Literal)
  | prim (op : Primitive)
  | ctor (name : String)
  | case (shapes : List Shape)
deriving DecidableEq, Inhabited

/-! ### Code -/

inductive Code where
  | var (name : String)
  | const (constant : Constant)
  | comb (combinator : Combinator)
  | app (func arg : Code)
deriving DecidableEq, Inhabited

namespace Code

/-- `head` applied to each argument in turn. -/
def apply (head : Code) (args : List Code) : Code := args.foldl .app head

/-- The head of an application spine and its arguments, left to right. -/
def spine : Code → Code × List Code
  | .app func arg => (func.spine.1, func.spine.2 ++ [arg])
  | c => (c, [])

theorem apply_spine (c : Code) : apply c.spine.1 c.spine.2 = c := by
  induction c with
  | app f a ihf _ => simpa [apply, spine] using ihf
  | _ => rfl

/-- Number of leaves. -/
def size : Code → Nat
  | .app func arg => func.size + arg.size
  | _ => 1

def literal? : Code → Option Literal
  | .const (.lit l) => some l
  | _ => none

/-- Fully evaluated data: a literal, or a constructor applied to data. -/
def isData : Code → Bool
  | .const (.lit _) => true
  | .const (.ctor _) => true
  | .app func arg => func.literal?.isNone && func.isData && arg.isData
  | _ => false

/-- The names in a piece of code, with repetitions; all of them are free. -/
def free : Code → List String
  | .var x => [x]
  | .app func arg => func.free ++ arg.free
  | _ => []

end Code

end CoreCalculus
