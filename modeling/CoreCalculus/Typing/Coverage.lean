/-
  CoreCalculus/Typing/Coverage.lean
  =================================
  **Coverage of a match.**  Only the top of each pattern counts: a match is covered
  by a bare variable, or by patterns for every constructor of the declared type of
  its subject.  A subject of no declared type is not checked.
-/
import CoreCalculus.Typing.Context
import CoreCalculus.Typing.Error

namespace CoreCalculus

namespace Pattern

/-- The constructor at the top of a pattern. -/
def topConstructor? : Pattern → Option String
  | .ctor name _ => some name
  | _ => none

end Pattern

namespace Registry

/-- The constructors of a data type, in order of declaration, that are at the top of no
    pattern. -/
def missing (d : DataType) (patterns : List Pattern) : List String :=
  d.constructorNames.filter (· ∉ patterns.filterMap Pattern.topConstructor?)

/-- Check that patterns cover a subject of type `t`. -/
def checkCoverage (r : Registry) (t : Ty) (patterns : List Pattern) : Except TypeError Unit :=
  if patterns.any Pattern.isCatchAll then .ok ()
  else
    match t.headName?.bind r.types.get? with
    | none => .ok ()
    | some d =>
      let uncovered := missing d patterns
      if uncovered.isEmpty then .ok () else .error (.nonExhaustive d.name uncovered)

end Registry

end CoreCalculus
