/-
  CoreCalculus/Term.lean
  ======================
  **Terms of the calculus**, with the notions every engine shares: the spine of
  an application, fully evaluated data, names (free, and all of them), size, and
  renaming of a free name.

  Binders carry names, since names are printed and fresh ones are chosen from
  them.  `abs x t` and `fix x t` bind `x` in `t`; a case of a match binds the
  variables of its pattern in its body.  Cases are kept in a list, so the
  induction principle `Term.induct` gives the hypothesis for every case body.
-/
import CoreCalculus.Pattern

namespace CoreCalculus

inductive Term where
  | var (name : String)
  | lit (literal : Literal)
  | app (func arg : Term)
  | abs (name : String) (body : Term)
  | binary (op : BinaryOp) (left right : Term)
  | not (operand : Term)
  | cond (test yes no : Term)
  | fix (name : String) (body : Term)
  | ctor (name : String)
  | select (subject : Term) (cases : List (Pattern × Term))
deriving Inhabited

namespace Term

/-- Induction with a hypothesis for the body of every case. -/
@[elab_as_elim]
theorem induct {motive : Term → Prop}
    (var : ∀ name, motive (.var name))
    (lit : ∀ literal, motive (.lit literal))
    (app : ∀ func arg, motive func → motive arg → motive (.app func arg))
    (abs : ∀ name body, motive body → motive (.abs name body))
    (binary : ∀ op left right, motive left → motive right → motive (.binary op left right))
    (not : ∀ operand, motive operand → motive (.not operand))
    (cond : ∀ test yes no, motive test → motive yes → motive no → motive (.cond test yes no))
    (fix : ∀ name body, motive body → motive (.fix name body))
    (ctor : ∀ name, motive (.ctor name))
    (select : ∀ subject cases, motive subject → (∀ c ∈ cases, motive c.2) →
      motive (.select subject cases))
    (t : Term) : motive t :=
  Term.rec (motive_1 := motive) (motive_2 := fun cs => ∀ c ∈ cs, motive c.2)
    (motive_3 := fun c => motive c.2)
    var lit app abs binary not cond fix ctor select
    (by simp) (fun _ _ h hs => List.forall_mem_cons.2 ⟨h, hs⟩) (fun _ _ h => h) t

/-! ### Deciding equality -/

mutual

/-- Structural comparison. -/
def same : Term → Term → Bool
  | .var x, .var y => x == y
  | .lit a, .lit b => a == b
  | .app f a, .app g b => f.same g && a.same b
  | .abs x t, .abs y u => x == y && t.same u
  | .binary o a b, .binary p c d => o == p && a.same c && b.same d
  | .not a, .not b => a.same b
  | .cond a b c, .cond d e f => a.same d && b.same e && c.same f
  | .fix x t, .fix y u => x == y && t.same u
  | .ctor c, .ctor d => c == d
  | .select s cs, .select t ds => s.same t && sameCases cs ds
  | _, _ => false

def sameCases : List (Pattern × Term) → List (Pattern × Term) → Bool
  | [], [] => true
  | (p, t) :: cs, (q, u) :: ds => p == q && t.same u && sameCases cs ds
  | _, _ => false

end

theorem sameCases_iff {cs ds : List (Pattern × Term)}
    (h : ∀ c ∈ cs, ∀ u, c.2.same u = true ↔ c.2 = u) : sameCases cs ds = true ↔ cs = ds := by
  induction cs generalizing ds with
  | nil => cases ds <;> simp [sameCases]
  | cons c cs ih =>
    cases ds with
    | nil => simp [sameCases]
    | cons d ds =>
      rw [List.forall_mem_cons] at h
      simp [sameCases, h.1, ih h.2, Prod.ext_iff, and_assoc]

theorem same_iff (t u : Term) : t.same u = true ↔ t = u := by
  induction t using induct generalizing u with
  | select s cs ihs ihc =>
    cases u with
    | select t ds => simp [same, ihs, sameCases_iff ihc]
    | _ => simp [same]
  | _ => cases u <;> simp [same, and_assoc, *]

instance : DecidableEq Term := fun t u => decidable_of_iff _ (same_iff t u)

/-! ### Spines and data -/

/-- `head` applied to each argument in turn. -/
def apply (head : Term) (args : List Term) : Term := args.foldl .app head

/-- The head of an application spine and its arguments, left to right. -/
def spine : Term → Term × List Term
  | .app func arg => (func.spine.1, func.spine.2 ++ [arg])
  | t => (t, [])

theorem apply_spine (t : Term) : apply t.spine.1 t.spine.2 = t := by
  induction t using induct with
  | app f a ihf _ => simpa [apply, spine] using ihf
  | _ => rfl

def literal? : Term → Option Literal
  | .lit l => some l
  | _ => none

/-- Fully evaluated data: a literal, or a constructor applied to data.  A literal
    itself takes no argument. -/
def isData : Term → Bool
  | .lit _ => true
  | .ctor _ => true
  | .app func arg => func.literal?.isNone && func.isData && arg.isData
  | _ => false

/-! ### Names -/

mutual

/-- The names free in a term, with repetitions. -/
def free : Term → List String
  | .var x => [x]
  | .lit _ => []
  | .ctor _ => []
  | .app f a => f.free ++ a.free
  | .abs x t => t.free.filter (· ≠ x)
  | .fix x t => t.free.filter (· ≠ x)
  | .binary _ a b => a.free ++ b.free
  | .not a => a.free
  | .cond a b c => a.free ++ b.free ++ c.free
  | .select s cs => s.free ++ freeCases cs

def freeCases : List (Pattern × Term) → List String
  | [] => []
  | (p, t) :: cs => t.free.filter (· ∉ p.vars) ++ freeCases cs

end

mutual

/-- Every variable name of a term, binders and pattern variables included, with
    repetitions. -/
def names : Term → List String
  | .var x => [x]
  | .lit _ => []
  | .ctor _ => []
  | .app f a => f.names ++ a.names
  | .abs x t => x :: t.names
  | .fix x t => x :: t.names
  | .binary _ a b => a.names ++ b.names
  | .not a => a.names
  | .cond a b c => a.names ++ b.names ++ c.names
  | .select s cs => s.names ++ namesCases cs

def namesCases : List (Pattern × Term) → List String
  | [] => []
  | (p, t) :: cs => p.vars ++ t.names ++ namesCases cs

end

theorem freeCases_eq_flatMap (cs : List (Pattern × Term)) :
    freeCases cs = cs.flatMap fun c => c.2.free.filter (· ∉ c.1.vars) := by
  induction cs with
  | nil => rfl
  | cons c cs ih => simp [freeCases, ih]

theorem namesCases_eq_flatMap (cs : List (Pattern × Term)) :
    namesCases cs = cs.flatMap fun c => c.1.vars ++ c.2.names := by
  induction cs with
  | nil => rfl
  | cons c cs ih => simp [namesCases, ih]

/-- A free name is a name. -/
theorem mem_names_of_mem_free {x : String} {t : Term} (h : x ∈ t.free) : x ∈ t.names := by
  induction t using induct with
  | select s cs ihs ihc =>
    simp only [free, freeCases_eq_flatMap, List.mem_append, List.mem_flatMap,
      List.mem_filter] at h
    simp only [names, namesCases_eq_flatMap, List.mem_append, List.mem_flatMap]
    rcases h with h | ⟨c, hc, h, _⟩
    · exact .inl (ihs h)
    · exact .inr ⟨c, hc, .inr (ihc c hc h)⟩
  | _ => simp_all only [free, names, List.mem_append, List.mem_filter, List.mem_cons,
      List.not_mem_nil] <;> grind

/-! ### Size and renaming -/

mutual

/-- Number of nodes; the measure on which substitution ends. -/
def size : Term → Nat
  | .var _ => 1
  | .lit _ => 1
  | .ctor _ => 1
  | .app f a => f.size + a.size + 1
  | .abs _ t => t.size + 1
  | .fix _ t => t.size + 1
  | .binary _ a b => a.size + b.size + 1
  | .not a => a.size + 1
  | .cond a b c => a.size + b.size + c.size + 1
  | .select s cs => s.size + sizeCases cs + 1

def sizeCases : List (Pattern × Term) → Nat
  | [] => 0
  | (_, t) :: cs => t.size + sizeCases cs + 1

end

mutual

/-- Free occurrences of `x` become `z`.  Nothing guards `z` against capture, so
    `z` has to be a name that occurs nowhere in the term. -/
def rename (x z : String) : Term → Term
  | .var y => .var (if y = x then z else y)
  | .lit l => .lit l
  | .ctor c => .ctor c
  | .app f a => .app (f.rename x z) (a.rename x z)
  | .abs y t => .abs y (if y = x then t else t.rename x z)
  | .fix y t => .fix y (if y = x then t else t.rename x z)
  | .binary o a b => .binary o (a.rename x z) (b.rename x z)
  | .not a => .not (a.rename x z)
  | .cond a b c => .cond (a.rename x z) (b.rename x z) (c.rename x z)
  | .select s cs => .select (s.rename x z) (renameCases x z cs)

def renameCases (x z : String) : List (Pattern × Term) → List (Pattern × Term)
  | [] => []
  | (p, t) :: cs => (p, if x ∈ p.vars then t else t.rename x z) :: renameCases x z cs

end

theorem sizeCases_renameCases (x z : String) {cs : List (Pattern × Term)}
    (h : ∀ c ∈ cs, (c.2.rename x z).size = c.2.size) :
    sizeCases (renameCases x z cs) = sizeCases cs := by
  induction cs with
  | nil => rfl
  | cons c cs ih =>
    rw [List.forall_mem_cons] at h
    simp only [renameCases, sizeCases, ih h.2]
    split <;> simp [h.1]

theorem size_rename (x z : String) (t : Term) : (t.rename x z).size = t.size := by
  induction t using induct with
  | select s cs ihs ihc => simp [rename, size, ihs, sizeCases_renameCases x z ihc]
  | abs y t ih => simp only [rename, size]; split <;> simp [ih]
  | fix y t ih => simp only [rename, size]; split <;> simp [ih]
  | _ => simp [rename, size, *]

end Term

end CoreCalculus
