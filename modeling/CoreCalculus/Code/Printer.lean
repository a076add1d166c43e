/-
  CoreCalculus/Code/Printer.lean
  ==============================
  **Combinator code as text.**  Every application is printed as its whole spine in
  one pair of parentheses, head first: `(B f (B g I))`, `(C (B + I) 1)`,
  `(case{Nil | Cons _ _} xs 0 (B K I))`.
-/
import CoreCalculus.Code
import CoreCalculus.Text

namespace CoreCalculus

def Combinator.symbol : Combinator → String
  | .s => "S"
  | .k => "K"
  | .i => "I"
  | .y => "Y"
  | .b => "B"
  | .c => "C"

def Primitive.symbol : Primitive → String
  | .binary op => op.symbol
  | .not => "not"
  | .cond => "if"

namespace Shape

mutual

/-- A shape as text, `_` for what it binds; `nested` for a sub-shape, which needs
    parentheses when it has sub-shapes of its own. -/
def renderAt (nested : Bool) : Shape → String
  | .bind => "_"
  | .lit l => l.render
  | .ctor name [] => name
  | .ctor name (s :: ss) =>
      parenthesize nested (name ++ " " ++ s.renderAt true ++ renderArgs ss)

/-- Each further sub-shape after a space. -/
def renderArgs : List Shape → String
  | [] => ""
  | s :: ss => " " ++ s.renderAt true ++ renderArgs ss

end

def render (s : Shape) : String := s.renderAt false

end Shape

def Constant.render : Constant → String
  | .lit l => l.render
  | .prim op => op.symbol
  | .ctor name => name
  | .case shapes => "case\x7b" ++ " | ".intercalate (shapes.map Shape.render) ++ "\x7d"

namespace Code

/-- Code as text; `closed` for a position that asks for parentheses around an
    application, which the head of a spine does not. -/
def renderAt (closed : Bool) : Code → String
  | .var name => name
  | .const constant => constant.render
  | .comb combinator => combinator.symbol
  | .app func arg => parenthesize closed (func.renderAt false ++ " " ++ arg.renderAt true)

def render (c : Code) : String := c.renderAt true

end Code

end CoreCalculus
