/-
  CoreCalculus/Term/Substitution.lean
  ===================================
  **Capture-avoiding substitution of several names at once.**

  Replacement values are never substituted into.  At a binder only the *live*
  replacements count: those of a name that is free in the body and not bound
  there.  With none, the body stays as it is and no id is used.  Otherwise a
  binder that occurs free in a live value is *captured*, and is renamed first to
  a fresh name that avoids every name in play; then the substitution goes on in
  the renamed body.  Renaming keeps the size of a term, on which the recursion
  ends.
-/
import CoreCalculus.Term
import CoreCalculus.Table
import CoreCalculus.Supply

namespace CoreCalculus

/-- The terms that replace names. -/
abbrev Replacements := Table String Term

namespace Replacements

/-- The replacements that reach `body` below the binders `bound`. -/
def live (r : Replacements) (bound : List String) (body : Term) : Replacements :=
  let free := body.free
  r.restrict fun x => x ∉ bound && x ∈ free

/-- The names free in some replacement value: a binder among them would capture. -/
def captured (r : Replacements) : List String := r.values.flatMap Term.free

end Replacements

namespace Term

/-- A fresh name for `binder` over `body`, apart from the names of the replacements,
    of the body and of `taken`, the sibling binders. -/
def freshBinder (live : Replacements) (taken : List String) (binder : String) (body : Term)
    (supply : Supply) : String × Supply :=
  supply.freshName binder (live.captured ++ body.names ++ live.keys ++ taken)

/-- Rename the binder of `body` if it is captured. -/
def renameBinder (live : Replacements) (binder : String) (body : Term) (supply : Supply) :
    String × Term × Supply :=
  if binder ∈ live.captured then
    let (z, supply) := freshBinder live [] binder body supply
    (z, body.rename binder z, supply)
  else (binder, body, supply)

/-- Rename the captured ones among the pattern variables `bound`, one after another,
    in the pattern and in the body.  A variable that is listed again mints another
    name, for which nothing is left to rename. -/
def renamePattern (live : Replacements) :
    List String → List String → Pattern → Term → Supply → Pattern × Term × Supply
  | [], _, pattern, body, supply => (pattern, body, supply)
  | x :: bound, taken, pattern, body, supply =>
    if x ∈ live.captured then
      let (z, supply) := freshBinder live taken x body supply
      renamePattern live bound (z :: taken) (pattern.rename x z) (body.rename x z) supply
    else renamePattern live bound taken pattern body supply

theorem size_renameBinder (live : Replacements) (binder : String) (body : Term)
    (supply : Supply) : (renameBinder live binder body supply).2.1.size = body.size := by
  unfold renameBinder
  split
  · exact size_rename _ _ body
  · rfl

theorem size_renamePattern (live : Replacements) (bound taken : List String)
    (pattern : Pattern) (body : Term) (supply : Supply) :
    (renamePattern live bound taken pattern body supply).2.1.size = body.size := by
  fun_induction renamePattern live bound taken pattern body supply with
  | case1 => rfl
  | case2 taken pattern body supply x bound _ z supply' _ ih => rw [ih, size_rename]
  | case3 taken pattern body supply x bound _ ih => exact ih

mutual

/-- Replace the free occurrences of the names of `r`, all at once. -/
def substMany (r : Replacements) (t : Term) (supply : Supply) : Term × Supply :=
  match t with
  | .var x => ((r.get? x).getD (.var x), supply)
  | .lit l => (.lit l, supply)
  | .ctor c => (.ctor c, supply)
  | .app func arg =>
    let (func', supply) := substMany r func supply
    let (arg', supply) := substMany r arg supply
    (.app func' arg', supply)
  | .abs x body =>
    let (x', body', supply) := substUnder r x body supply
    (.abs x' body', supply)
  | .fix x body =>
    let (x', body', supply) := substUnder r x body supply
    (.fix x' body', supply)
  | .binary op left right =>
    let (left', supply) := substMany r left supply
    let (right', supply) := substMany r right supply
    (.binary op left' right', supply)
  | .not operand =>
    let (operand', supply) := substMany r operand supply
    (.not operand', supply)
  | .cond test yes no =>
    let (test', supply) := substMany r test supply
    let (yes', supply) := substMany r yes supply
    let (no', supply) := substMany r no supply
    (.cond test' yes' no', supply)
  | .select subject cases =>
    let (subject', supply) := substMany r subject supply
    let (cases', supply) := substCases r cases supply
    (.select subject' cases', supply)
termination_by (t.size, 0)
decreasing_by all_goals simp only [size, Prod.lex_def]; omega

/-- Substitution below one binder. -/
def substUnder (r : Replacements) (binder : String) (body : Term) (supply : Supply) :
    String × Term × Supply :=
  let live := r.live [binder] body
  if live.isEmpty then (binder, body, supply)
  else
    let renamed := renameBinder live binder body supply
    let (body', supply) := substMany live renamed.2.1 renamed.2.2
    (renamed.1, body', supply)
termination_by (body.size, 1)
decreasing_by
  rw [size_renameBinder]
  exact Prod.Lex.right _ Nat.zero_lt_one

/-- Substitution in the cases of a match, below the variables of their patterns. -/
def substCases (r : Replacements) (cases : List (Pattern × Term)) (supply : Supply) :
    List (Pattern × Term) × Supply :=
  match cases with
  | [] => ([], supply)
  | (pattern, body) :: cases =>
    let live := r.live pattern.vars body
    if live.isEmpty then
      let (cases', supply) := substCases r cases supply
      ((pattern, body) :: cases', supply)
    else
      let renamed := renamePattern live pattern.vars pattern.vars pattern body supply
      let (body', supply) := substMany live renamed.2.1 renamed.2.2
      let (cases', supply) := substCases r cases supply
      ((renamed.1, body') :: cases', supply)
termination_by (sizeCases cases, 0)
decreasing_by
  · simp only [sizeCases, Prod.lex_def]; omega
  · rw [size_renamePattern]
    simp only [sizeCases, Prod.lex_def]; omega
  · simp only [sizeCases, Prod.lex_def]; omega

end

/-- Replace the free occurrences of one name. -/
def subst (t : Term) (x : String) (value : Term) (supply : Supply) : Term × Supply :=
  substMany (Table.ofList [(x, value)]) t supply

end Term

end CoreCalculus
