/-
  CoreCalculus/Text.lean
  ======================
  **What the printers share**: parentheses around a text that would otherwise be
  read differently.
-/

namespace CoreCalculus

/-- Put parentheses around `text` when they are needed. -/
def parenthesize (needed : Bool) (text : String) : String :=
  if needed then "(" ++ text ++ ")" else text

end CoreCalculus
