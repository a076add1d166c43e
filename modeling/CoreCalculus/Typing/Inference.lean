/-
  CoreCalculus/Typing/Inference.lean
  ==================================
  **Type inference.**

  A session holds a solution and a supply of ids.  Inference walks over a term,
  mints a variable for every type it does not know yet, and unifies where the
  rules of the calculus ask for equal types (`expect`).  Binders are monomorphic;
  names and constructors of the context are instantiated each time they are used.

  Parts are typed from left to right, and the first error ends the walk; the
  session keeps what it has learnt by then.

  A program counts its ids in words.  When these are used up, which is at once if the
  context mentions the largest, the session goes on with `0`; what is minted then
  may be an id of the context, or one that was handed out before.
-/
import CoreCalculus.Supply
import CoreCalculus.Typing.Coverage

namespace CoreCalculus

/-- A type-checking session, which also says how its ids are counted. -/
structure Checker where
  solution : Solution
  supply : Supply
  counting : Counting
deriving Inhabited

/-- The session is the state of a check. -/
abbrev Check (α : Type) := Run Checker TypeError α

namespace Checker

/-- A session that starts with the number after the largest id of the context.  Counted in words,
    this is `0` when that id is the largest word. -/
def ofContext (c : Context) (counting : Counting := .unbounded) : Checker :=
  let start := match c.maxId? with
    | some id => counting.succ id
    | none => 0
  ⟨.empty, ⟨start⟩, counting⟩

/-- A type variable with the next id. -/
def fresh : Check Ty :=
  Run.update fun c =>
    (.var ⟨(c.supply.draw c.counting).1, none⟩, { c with supply := (c.supply.draw c.counting).2 })

/-- What the session knows about a type. -/
def resolve (fuel : Nat) (t : Ty) : Check Ty :=
  Run.read? fun c => Solution.resolve c.solution fuel t

/-- One fresh variable for each listed variable, by id; a variable that is listed again
    takes the later one. -/
def freshFor (bindings : Table Nat Ty) : List TypeVar → Check (Table Nat Ty)
  | [] => pure bindings
  | v :: vs => do
    let t ← fresh
    freshFor (bindings.insert v.id t) vs

/-- The type of a scheme, with fresh variables for the quantified ones. -/
def instantiate (s : Scheme) : Check Ty := do
  let bindings ← freshFor .empty s.vars
  return s.ty.replace bindings

/-- Unify `expected` with `found`.  A mismatch is reported by `onMismatch`, about both
    types as far as they are known; an infinite type is reported for `term`. -/
def expect (fuel : Nat) (expected found : Ty) (term : Term) (onMismatch : Ty → Ty → TypeError) :
    Check Unit := fun c =>
  match Ty.unify fuel expected found c.solution with
  | none => none
  | some (.ok _, s) => some (.ok (), { c with solution := s })
  | some (.error (.occurs v t), s) =>
    some (.error (.infiniteType term v t), { c with solution := s })
  | some (.error (.mismatch _ _), s) => do
    let expected ← Solution.resolve s fuel expected
    let found ← Solution.resolve s fuel found
    return (.error (onMismatch expected found), { c with solution := s })

/-! ### Patterns -/

mutual

/-- The type of a pattern, and a monomorphic binding for each of its variables. -/
def typePattern (fuel : Nat) (r : Registry) : Pattern → Check (Ty × List (String × Scheme))
  | .var name => do
    let t ← fresh
    return (t, [(name, .mono t)])
  | .lit l => return (Ty.ofLiteral l, [])
  | .ctor name subs =>
    match r.constructor? name with
    | none => Run.fail (.unknownConstructor name)
    | some (d, s) =>
      if s.args.length ≠ subs.length then
        Run.fail (.constructorArity name s.args.length subs.length)
      else do
        let bindings ← freshFor .empty d.params
        let vars ← typeSubPatterns fuel r (.ctor name) subs (s.args.map (Ty.replace bindings))
        return (d.selfType.replace bindings, vars)

/-- The sub-patterns of a constructor against the types of its arguments. -/
def typeSubPatterns (fuel : Nat) (r : Registry) (constructor : Term) :
    List Pattern → List Ty → Check (List (String × Scheme))
  | sub :: subs, arg :: args => do
    let (found, vars) ← typePattern fuel r sub
    expect fuel arg found constructor (.patternMismatch sub)
    let more ← typeSubPatterns fuel r constructor subs args
    return vars ++ more
  | _, _ => pure []

end

/-- The first name of a list that has occurred before. -/
def firstRepeated? (seen : List String) : List String → Option String
  | [] => none
  | x :: xs => if x ∈ seen then some x else firstRepeated? (x :: seen) xs

/-! ### Terms -/

mutual

/-- The type of a term, up to what the session learns later. -/
def typeOf (fuel : Nat) (c : Context) : Term → Check Ty
  | .var name =>
    match c.bindings.get? name with
    | some s => instantiate s
    | none => Run.fail (.unboundVariable name)
  | .lit l => return Ty.ofLiteral l
  | .ctor name =>
    match c.registry.constructor? name with
    | some (d, s) => instantiate (d.constructorScheme s)
    | none => Run.fail (.unknownConstructor name)
  | .app func arg => do
    let expr := Term.app func arg
    let funcType ← typeOf fuel c func
    let argType ← typeOf fuel c arg
    match ← resolve fuel funcType with
    | .func param result =>
      expect fuel param argType expr (.argumentMismatch arg expr)
      resolve fuel result
    | .var _ =>
      let result ← fresh
      expect fuel (.func argType result) funcType expr (.mismatch expr)
      resolve fuel result
    | found => Run.fail (.notAFunction func arg found)
  | .abs name body => do
    let param ← fresh
    let result ← typeOf fuel (c.extend name (.mono param)) body
    return .func (← resolve fuel param) result
  | .binary op left right => do
    let expr := Term.binary op left right
    let leftType ← typeOf fuel c left
    match op with
    | .eq | .le => pure ()
    | .and | .or => expect fuel .bool leftType expr (.operandMismatch .left left expr)
    | _ => expect fuel .int leftType expr (.operandMismatch .left left expr)
    let rightType ← typeOf fuel c right
    expect fuel leftType rightType expr (.operandsDisagree left right expr)
    if op.isComparison then return .bool else resolve fuel leftType
  | .not operand => do
    let expr := Term.not operand
    let found ← typeOf fuel c operand
    expect fuel .bool found expr (.operandMismatch .only operand expr)
    return .bool
  | .cond test yes no => do
    let expr := Term.cond test yes no
    let testType ← typeOf fuel c test
    expect fuel .bool testType expr fun _ found => .nonBooleanCondition test found
    let yesType ← typeOf fuel c yes
    let noType ← typeOf fuel c no
    expect fuel yesType noType expr (.branchMismatch expr)
    resolve fuel yesType
  | .fix name body => do
    let self ← fresh
    let found ← typeOf fuel (c.extend name (.mono self)) body
    expect fuel self found (.fix name body) (.recursionMismatch name)
    resolve fuel self
  | .select subject cases =>
    if cases.isEmpty then Run.fail (.emptyMatch subject)
    else do
      let subjectType ← typeOf fuel c subject
      let result ← fresh
      typeCases fuel c subject subjectType result cases
      let subjectType ← resolve fuel subjectType
      Run.ofExcept (c.registry.checkCoverage subjectType (cases.map Prod.fst))
      resolve fuel result

/-- Each case in turn: its pattern has the type of the subject, its variables occur once,
    and its body has the common type of the results. -/
def typeCases (fuel : Nat) (c : Context) (subject : Term) (subjectType result : Ty) :
    List (Pattern × Term) → Check Unit
  | [] => pure ()
  | (p, body) :: cases => do
    let (found, vars) ← typePattern fuel c.registry p
    match firstRepeated? [] (vars.map Prod.fst) with
    | some name => Run.fail (.duplicatePatternVariable name p)
    | none => pure ()
    expect fuel subjectType found subject (.patternMismatch p)
    let bodyType ← typeOf fuel (c.extendAll vars) body
    expect fuel result bodyType body (.caseMismatch p body)
    typeCases fuel c subject subjectType result cases

end

/-- Infer a type in a session. -/
def infer (fuel : Nat) (c : Context) (t : Term) : Check Ty := do
  resolve fuel (← typeOf fuel c t)

end Checker

namespace Term

/-- The type of a term, inferred in a session of its own, which counts its ids without a bound if
    nothing else is said. -/
def infer? (fuel : Nat) (c : Context) (t : Term) (counting : Counting := .unbounded) :
    Option (Except TypeError Ty) :=
  (Checker.infer fuel c t (Checker.ofContext c counting)).map Prod.fst

end Term

end CoreCalculus
