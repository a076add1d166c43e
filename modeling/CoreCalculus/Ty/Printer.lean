/-
  CoreCalculus/Ty/Printer.lean
  ============================
  **Types as text**: `('a -> 'b) -> list 'a -> list 'b`, `Int * Bool -> Int`.

  `->` binds loosest and associates to the right; `*` binds tighter and does not
  associate; arguments of a type constructor bind tightest.  Positions have three
  levels: 0 for a whole type or the right of an arrow, 1 for the left of an arrow
  and for the target of an application, 2 for an operand of `*` or an argument.
-/
import CoreCalculus.Text
import CoreCalculus.Ty

namespace CoreCalculus

/-- An apostrophe and the hint, or `t` and the id. -/
def TypeVar.render (v : TypeVar) : String :=
  match v.hint with
  | some name => "'" ++ name
  | none => "'t" ++ Nat.repr v.id

namespace Ty

mutual

/-- A type as text, at a position of the given level. -/
def renderAt (level : Nat) : Ty → String
  | .var v => v.render
  | .const name => name
  | .func a b => parenthesize (0 < level) (a.renderAt 1 ++ " -> " ++ b.renderAt 0)
  | .prod a b => parenthesize (1 < level) (a.renderAt 2 ++ " * " ++ b.renderAt 2)
  | .app a b => parenthesize (1 < level) (a.renderAt 1 ++ " " ++ b.renderAt 2)
  | .adt name [] => name
  | .adt name (t :: ts) =>
      parenthesize (1 < level) (name ++ " " ++ t.renderAt 2 ++ renderArgs ts)

/-- Each further argument after a space. -/
def renderArgs : List Ty → String
  | [] => ""
  | t :: ts => " " ++ t.renderAt 2 ++ renderArgs ts

end

def render (t : Ty) : String := t.renderAt 0

end Ty

def Scheme.render (s : Scheme) : String :=
  if s.vars.isEmpty then s.ty.render
  else "forall " ++ " ".intercalate (s.vars.map TypeVar.render) ++ ". " ++ s.ty.render

end CoreCalculus
