/-
  CoreCalculus/Matching.lean
  ==========================
  **Matching a value against patterns.**

  A constructor pattern looks at the spine of the value: the same constructor at
  its head, as many arguments as sub-patterns, and every argument matched from
  left to right.  Bindings are collected on the way; a variable that occurs again
  is bound to the later value, and a failure keeps the bindings made before it.
-/
import CoreCalculus.Term
import CoreCalculus.Table

namespace CoreCalculus

namespace Pattern

mutual

/-- Match `value`, adding to `bindings`. -/
def matchInto (bindings : Table String Term) : Pattern → Term → Bool × Table String Term
  | .var name, value => (true, bindings.insert name value)
  | .lit l, value => (value.literal? == some l, bindings)
  | .ctor name subs, value =>
    let (head, args) := value.spine
    if head = .ctor name ∧ args.length = subs.length then matchAll bindings subs args
    else (false, bindings)

/-- Match arguments one by one, up to the first that fails. -/
def matchAll (bindings : Table String Term) :
    List Pattern → List Term → Bool × Table String Term
  | sub :: subs, arg :: args =>
    match sub.matchInto bindings arg with
    | (true, bindings) => matchAll bindings subs args
    | (false, bindings) => (false, bindings)
  | _, _ => (true, bindings)

end

/-- The bindings under which the pattern takes the value. -/
def match? (p : Pattern) (value : Term) : Option (Table String Term) :=
  match p.matchInto .empty value with
  | (true, bindings) => some bindings
  | (false, _) => none

end Pattern

namespace Term

/-- The first case that takes the value: its bindings and its body. -/
def firstMatch (value : Term) : List (Pattern × Term) → Option (Table String Term × Term)
  | [] => none
  | (p, body) :: cases =>
    match p.match? value with
    | some bindings => some (bindings, body)
    | none => firstMatch value cases

end Term

end CoreCalculus
