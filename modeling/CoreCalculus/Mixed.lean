/-
  CoreCalculus/Mixed.lean
  =======================
  **Mixed trees**: the ground between terms and combinator code.

  A mixed tree has the nodes of a term and the leaves of code.  A term becomes a
  mixed tree node for node (`ofTerm`); compilation then removes every node that
  code does not have, and what is left is `applicative` and can be read as code
  (`toCode`).
-/
import CoreCalculus.Term
import CoreCalculus.Code

namespace CoreCalculus

inductive Mixed where
  | var (name : String)
  | const (constant : Constant)
  | comb (combinator : Combinator)
  | app (func arg : Mixed)
  | abs (name : String) (body : Mixed)
  | binary (op : BinaryOp) (left right : Mixed)
  | not (operand : Mixed)
  | cond (test yes no : Mixed)
  | fix (name : String) (body : Mixed)
  | select (subject : Mixed) (cases : List (Pattern × Mixed))
deriving Inhabited

/-- A node of this kind is left where code was expected. -/
inductive CompileError where
  | residual (kind : String)
deriving DecidableEq

def CompileError.message : CompileError → String
  | .residual kind => "internal error: " ++ kind ++ " survived abstraction elimination"

namespace Mixed

/-- Induction with a hypothesis for the body of every case. -/
@[elab_as_elim]
theorem induct {motive : Mixed → Prop}
    (var : ∀ name, motive (.var name))
    (const : ∀ constant, motive (.const constant))
    (comb : ∀ combinator, motive (.comb combinator))
    (app : ∀ func arg, motive func → motive arg → motive (.app func arg))
    (abs : ∀ name body, motive body → motive (.abs name body))
    (binary : ∀ op left right, motive left → motive right → motive (.binary op left right))
    (not : ∀ operand, motive operand → motive (.not operand))
    (cond : ∀ test yes no, motive test → motive yes → motive no → motive (.cond test yes no))
    (fix : ∀ name body, motive body → motive (.fix name body))
    (select : ∀ subject cases, motive subject → (∀ c ∈ cases, motive c.2) →
      motive (.select subject cases))
    (m : Mixed) : motive m :=
  Mixed.rec (motive_1 := motive) (motive_2 := fun cs => ∀ c ∈ cs, motive c.2)
    (motive_3 := fun c => motive c.2)
    var const comb app abs binary not cond fix select
    (by simp) (fun _ _ h hs => List.forall_mem_cons.2 ⟨h, hs⟩) (fun _ _ h => h) m

/-! ### From terms -/

mutual

/-- A term as a mixed tree: literals and constructors become constants. -/
def ofTerm : Term → Mixed
  | .var x => .var x
  | .lit l => .const (.lit l)
  | .ctor c => .const (.ctor c)
  | .app f a => .app (ofTerm f) (ofTerm a)
  | .abs x t => .abs x (ofTerm t)
  | .binary op a b => .binary op (ofTerm a) (ofTerm b)
  | .not a => .not (ofTerm a)
  | .cond a b c => .cond (ofTerm a) (ofTerm b) (ofTerm c)
  | .fix x t => .fix x (ofTerm t)
  | .select s cs => .select (ofTerm s) (ofCases cs)

def ofCases : List (Pattern × Term) → List (Pattern × Mixed)
  | [] => []
  | (p, t) :: cs => (p, ofTerm t) :: ofCases cs

end

/-! ### To code -/

/-- Short name of the kind of a node, for diagnostics. -/
def kind : Mixed → String
  | .var _ => "variable"
  | .const _ => "constant"
  | .comb _ => "combinator"
  | .app _ _ => "application"
  | .abs _ _ => "abstraction"
  | .binary _ _ _ => "binary operator"
  | .not _ => "unary operator"
  | .cond _ _ _ => "conditional"
  | .fix _ _ => "recursive binding"
  | .select _ _ => "match"

/-- Only names, constants and combinators, joined by application. -/
def isApplicative : Mixed → Bool
  | .var _ => true
  | .const _ => true
  | .comb _ => true
  | .app f a => f.isApplicative && a.isApplicative
  | _ => false

/-- Read an applicative tree as code. -/
def toCode : Mixed → Except CompileError Code
  | .var x => .ok (.var x)
  | .const constant => .ok (.const constant)
  | .comb combinator => .ok (.comb combinator)
  | .app f a => do return .app (← f.toCode) (← a.toCode)
  | m => .error (.residual m.kind)

/-! ### Free names -/

mutual

/-- The names free in a mixed tree, with repetitions. -/
def free : Mixed → List String
  | .var x => [x]
  | .const _ => []
  | .comb _ => []
  | .app f a => f.free ++ a.free
  | .abs x t => t.free.filter (· ≠ x)
  | .fix x t => t.free.filter (· ≠ x)
  | .binary _ a b => a.free ++ b.free
  | .not a => a.free
  | .cond a b c => a.free ++ b.free ++ c.free
  | .select s cs => s.free ++ freeCases cs

def freeCases : List (Pattern × Mixed) → List String
  | [] => []
  | (p, t) :: cs => t.free.filter (· ∉ p.vars) ++ freeCases cs

end

/-- A term and its mixed tree have the same free names, in the same order. -/
theorem free_ofTerm (t : Term) : (ofTerm t).free = t.free := by
  induction t using Term.induct with
  | select s cs ihs ihc =>
    simp only [ofTerm, free, Term.free, ihs]
    clear ihs
    congr 1
    induction cs with
    | nil => rfl
    | cons c cs ih =>
      rw [List.forall_mem_cons] at ihc
      simp [ofCases, freeCases, Term.freeCases, ihc.1, ih ihc.2]
  | _ => simp [ofTerm, free, Term.free, *]

end Mixed

end CoreCalculus
