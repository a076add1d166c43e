/-
  CoreCalculus/Term/Printer.lean
  ==============================
  **Terms and patterns as text.**

  Precedence levels are passed down and never stored.  From loosest to tightest:

      0  \x. e   rec f. e   if .. then .. else ..   match .. with ..
      1  or        4  +  -        7  f a  (to the left)
      2  and       5  *  /        8  x  42  True  Cons
      3  =  <=     6  not e

  A node is put in parentheses when its position asks for a tighter level than
  its own.  Binary operators associate to the left, comparisons included.
-/
import CoreCalculus.Term
import CoreCalculus.Text

namespace CoreCalculus

/-! ### Levels -/

def BinaryOp.level : BinaryOp → Nat
  | .or => 1
  | .and => 2
  | .eq | .le => 3
  | .add | .sub => 4
  | .mul | .div => 5

/-- Level of `not e`; a negative integer needs parentheses in every tighter
    position. -/
def notLevel : Nat := 6

def appLevel : Nat := 7

def atomLevel : Nat := 8

def Literal.renderAt (level : Nat) (l : Literal) : String :=
  parenthesize (l.isNegative && decide (notLevel < level)) l.render

/-! ### Patterns -/

namespace Pattern

mutual

/-- A pattern as text; `nested` for a sub-pattern, which needs parentheses when it
    has sub-patterns of its own. -/
def renderAt (nested : Bool) : Pattern → String
  | .var name => name
  | .lit l => l.renderAt (if nested then atomLevel else 0)
  | .ctor name [] => name
  | .ctor name (p :: ps) =>
      parenthesize nested (name ++ " " ++ p.renderAt true ++ renderArgs ps)

/-- Each further sub-pattern after a space. -/
def renderArgs : List Pattern → String
  | [] => ""
  | p :: ps => " " ++ p.renderAt true ++ renderArgs ps

end

def render (p : Pattern) : String := p.renderAt false

end Pattern

/-! ### Terms -/

namespace Term

mutual

/-- A term as text, at a position of the given level. -/
def renderAt (level : Nat) : Term → String
  | .var name => name
  | .ctor name => name
  | .lit l => l.renderAt level
  | .app func arg =>
      parenthesize (appLevel < level) (func.renderAt appLevel ++ " " ++ arg.renderAt atomLevel)
  | .abs name body =>
      parenthesize (0 < level) ("\\" ++ name ++ ". " ++ body.renderAt 0)
  | .fix name body =>
      parenthesize (0 < level) ("rec " ++ name ++ ". " ++ body.renderAt 0)
  | .binary op left right =>
      parenthesize (op.level < level)
        (left.renderAt op.level ++ " " ++ op.symbol ++ " " ++ right.renderAt (op.level + 1))
  | .not operand =>
      parenthesize (notLevel < level) ("not " ++ operand.renderAt appLevel)
  | .cond test yes no =>
      parenthesize (0 < level)
        ("if " ++ test.renderAt 0 ++ " then " ++ yes.renderAt 0 ++ " else " ++ no.renderAt 0)
  | .select subject cases =>
      parenthesize (0 < level) ("match " ++ subject.renderAt 0 ++ " with" ++ renderCases cases)

/-- The cases of a match.  The body of every case but the last is printed one level
    tighter, since a binder there would swallow the cases after it. -/
def renderCases : List (Pattern × Term) → String
  | [] => ""
  | (p, body) :: cases =>
      " | " ++ p.render ++ " -> " ++ body.renderAt (if cases.isEmpty then 0 else 1)
        ++ renderCases cases

end

def render (t : Term) : String := t.renderAt 0

end Term

end CoreCalculus
