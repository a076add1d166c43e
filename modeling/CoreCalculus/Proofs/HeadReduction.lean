/-
  CoreCalculus/Proofs/HeadReduction.lean
  ======================================
  **Head reduction as a relation.**

  `Rule` says what becomes of a spine in one step, given how operands are forced: `H`
  for head reduction, `N` for full reduction.  Whatever families of runs force the
  operands, if they are regular then a step of the reducer yields what the rules say
  (`yields_step_iff`); so the rules are read off the reducer once, here, and everything
  else is about the rules.

  `HeadsTo` and `NormalizesTo` are what the two reductions of the reducer end in, with
  enough fuel and whatever the counter says.  Both are deterministic, and both come with
  an induction over the nested reductions (`reduction_induct`).
-/
import Mathlib.Data.List.Forall2
import CoreCalculus.Proofs.Yields

namespace CoreCalculus

/-! ### Outcomes -/

namespace Code

/-- The truth value that a piece of code is. -/
def truth? (c : Code) : Option Bool :=
  match c.literal? with
  | some (.bool b) => some b
  | _ => none

/-- What a literal shape makes of code in head normal form. -/
def matchLiteral (l : Literal) (w : Code) : ShapeMatch :=
  match w.spine with
  | (.const (.lit found), []) => if found = l then .matched [] else .failed
  | (.const (.ctor _), _) => .failed
  | _ => .stuck

end Code

/-- How many arguments a combinator needs. -/
def Combinator.arity : Combinator → Nat
  | .i => 1
  | .k => 2
  | .y => 2
  | .s => 3
  | .b => 3
  | .c => 3

open Code

/-- A literal takes the place of an operator and its operands, or they stay as rebuilt. -/
def Step.ofLiteral? (rebuilt : Code) (rest : List Code) : Option Literal → Step
  | some l => .contracted (apply (.const (.lit l)) rest)
  | none => .stuck (rebuilt.apply rest)

/-- A branch takes the place of a conditional or of a case analysis, or they stay as rebuilt. -/
def Step.ofCode? (rebuilt : Code) (rest : List Code) : Option Code → Step
  | some c => .contracted (c.apply rest)
  | none => .stuck (rebuilt.apply rest)

/-- The bindings of the first argument come before those of the others. -/
def ShapeMatch.prepend (bindings : List Code) : ShapeMatch → ShapeMatch
  | .matched more => .matched (bindings ++ more)
  | .failed => .failed
  | .stuck => .stuck

namespace Code

/-! ### Spines -/

theorem apply_append (head : Code) (args rest : List Code) :
    head.apply (args ++ rest) = (head.apply args).apply rest := by
  rw [apply, List.foldl_append]
  rfl

theorem spine_apply (head : Code) (args : List Code) :
    (head.apply args).spine = (head.spine.1, head.spine.2 ++ args) := by
  induction args generalizing head with
  | nil => simp [apply]
  | cons a args ih =>
    have hcons : head.apply (a :: args) = (head.app a).apply args := rfl
    rw [hcons, ih, spine, List.append_assoc]
    rfl

/-! ### Combinators -/

theorem contractComb_of_lt {combinator : Combinator} {args : List Code}
    (h : args.length < combinator.arity) :
    contractComb combinator args = .stuck (apply (.comb combinator) args) := by
  rcases args with _ | ⟨x, _ | ⟨y, _ | ⟨z, rest⟩⟩⟩ <;> cases combinator <;>
    first
    | rfl
    | (simp only [Combinator.arity, List.length_cons] at h; omega)

/-- A combinator with enough arguments is contracted, and takes no more than it needs. -/
theorem exists_contractComb {combinator : Combinator} {args : List Code}
    (h : combinator.arity ≤ args.length) :
    ∃ c : Code, ∀ rest, contractComb combinator (args ++ rest) = .contracted (c.apply rest) := by
  rcases args with _ | ⟨x, _ | ⟨y, _ | ⟨z, args⟩⟩⟩ <;> cases combinator <;>
    first
    | exact ⟨_, fun rest => congrArg Step.contracted (apply_append _ _ rest)⟩
    | (simp only [Combinator.arity, List.length_cons, List.length_nil] at h; omega)

/-! ### The rules -/

section

variable (H N : Code → Code → Prop)

mutual

/-- What becomes of matching code against a shape. -/
def Matches : Shape → Code → ShapeMatch → Prop
  | .bind, c, r => r = .matched [c]
  | .lit l, c, r => ∃ w, H c w ∧ r = matchLiteral l w
  | .ctor name subs, c, r => ∃ w, H c w ∧
    match w.spine with
    | (.const (.ctor found), args) =>
      if found = name ∧ args.length = subs.length then AllMatch subs args r else r = .failed
    | (.const (.lit _), _) => r = .failed
    | _ => r = .stuck

def AllMatch : List Shape → List Code → ShapeMatch → Prop
  | shape :: shapes, c :: cs, r => ∃ first, Matches shape c first ∧
    match first with
    | .matched bindings => ∃ others, AllMatch shapes cs others ∧ r = others.prepend bindings
    | other => r = other
  | _, _, r => r = .matched []

end

/-- Which function is selected for a subject, if any. -/
def Selects (subject : Code) : List Shape → List Code → Option Code → Prop
  | shape :: shapes, function :: functions, selected => ∃ r, Matches H shape subject r ∧
    match r with
    | .matched bindings => selected = some (function.apply bindings)
    | .failed => Selects subject shapes functions selected
    | .stuck => selected = none
  | _, _, _ => False

/-- A head that no rule is for yet, with the given number of arguments. -/
def Waits : Code → Nat → Prop
  | .comb combinator, n => n < combinator.arity
  | .const (.prim op), n => n < op.arity
  | .const (.case shapes), n => n ≤ shapes.length
  | _, _ => True

/-- What becomes of a spine in one step. -/
inductive Rule : Code → List Code → Step → Prop
  | comb {combinator : Combinator} {args : List Code} : combinator.arity ≤ args.length →
      Rule (.comb combinator) args (contractComb combinator args)
  | binary {op : BinaryOp} {a a' b b' : Code} {l? : Option Literal} (rest : List Code) :
      (if op = .eq then N a a' else H a a') → (if op = .eq then N b b' else H b b') →
      op.onCode a' b' = .ok l? →
      Rule (.const (.prim (.binary op))) (a :: b :: rest)
        (.ofLiteral? (apply (.const (.prim (.binary op))) [a', b']) rest l?)
  | not {a a' : Code} (rest : List Code) : H a a' →
      Rule (.const (.prim .not)) (a :: rest)
        (.ofLiteral? (apply (.const (.prim .not)) [a']) rest (a'.truth?.map fun b => .bool !b))
  | cond {test test' : Code} (yes no : Code) (rest : List Code) : H test test' →
      Rule (.const (.prim .cond)) (test :: yes :: no :: rest)
        (.ofCode? (apply (.const (.prim .cond)) [test', yes, no]) rest
          (test'.truth?.map fun b => if b then yes else no))
  | case {shapes : List Shape} {a a' : Code} {functions : List Code} {selected : Option Code}
      (rest : List Code) : functions.length = shapes.length → H a a' →
      Selects H a' shapes functions selected →
      Rule (.const (.case shapes)) (a :: (functions ++ rest))
        (.ofCode? (apply (.const (.case shapes)) (a' :: functions)) rest selected)
  | waiting {head : Code} {args : List Code} : head.Waits args.length →
      Rule head args (.stuck (head.apply args))

end

theorem Waits.of_le {head : Code} {m n : Nat} (h : head.Waits n) (hle : m ≤ n) : head.Waits m := by
  cases head with
  | comb combinator => exact Nat.lt_of_le_of_lt hle h
  | const k =>
    cases k with
    | prim op => exact Nat.lt_of_le_of_lt hle h
    | case shapes => exact Nat.le_trans hle h
    | _ => exact h
  | _ => exact h

/-! ### The reducer follows the rules -/

/-- What a family of reductions yields. -/
def Answers (H : Nat → Code → Reduction Code) (c w : Code) : Prop := Yields (fun n => H n c) (.ok w)

section

variable {H N : Nat → Code → Reduction Code}

theorem yields_matchShapes_iff_of (hH : ∀ c, Regular fun n => H n c) {subs : List Shape}
    (h : ∀ shape ∈ subs, ∀ c r, Yields (fun n => matchShape (H n) shape c) (.ok r) ↔
      Matches (Answers H) shape c r) (args : List Code) (r : ShapeMatch) :
    Yields (fun n => matchShapes (H n) subs args) (.ok r) ↔ AllMatch (Answers H) subs args r := by
  induction subs generalizing args r with
  | nil =>
    rw [AllMatch]
    · exact yields_pure_ok_iff
    · simp
  | cons shape shapes ih =>
    rw [List.forall_mem_cons] at h
    cases args with
    | nil =>
      rw [AllMatch]
      · exact yields_pure_ok_iff
      · simp
    | cons arg args =>
      rw [AllMatch]
      refine (yields_bind_ok_iff (regular_matchShape hH shape arg) fun first => ?_).trans ?_
      · cases first with
        | matched bindings =>
          refine .bind (regular_matchShapes hH shapes args) fun others => ?_
          cases others <;> exact .pure _
        | failed => exact .pure _
        | stuck => exact .pure _
      · refine exists_congr fun first => and_congr (h.1 arg first) ?_
        cases first with
        | matched bindings =>
          refine (yields_bind_ok_iff (regular_matchShapes hH shapes args) fun others => ?_).trans ?_
          · cases others <;> exact .pure _
          · refine exists_congr fun others => and_congr (ih h.2 args others) ?_
            cases others <;> exact yields_pure_ok_iff
        | failed => exact yields_pure_ok_iff
        | stuck => exact yields_pure_ok_iff

theorem yields_matchShape_iff (hH : ∀ c, Regular fun n => H n c) (shape : Shape) (c : Code)
    (r : ShapeMatch) : Yields (fun n => matchShape (H n) shape c) (.ok r) ↔
      Matches (Answers H) shape c r := by
  induction shape using Shape.induct generalizing c r with
  | bind =>
    rw [Matches]
    exact yields_pure_ok_iff
  | lit l =>
    rw [Matches]
    refine (yields_bind_ok_iff (hH c) fun w => ?_).trans ?_
    · dsimp only
      split <;> exact .pure _
    · refine exists_congr fun w => and_congr_right fun _ => ?_
      rw [matchLiteral]
      rcases w.spine with
        ⟨x | ⟨l | op | name | shapes⟩ | combinator | ⟨f, a⟩, _ | ⟨arg, args⟩⟩ <;>
        exact yields_pure_ok_iff
  | ctor name subs ih =>
    rw [Matches]
    refine (yields_bind_ok_iff (hH c) fun w => ?_).trans ?_
    · dsimp only
      split
      · split
        · exact regular_matchShapes hH _ _
        · exact .pure _
      · exact .pure _
      · exact .pure _
    · refine exists_congr fun w => and_congr_right fun _ => ?_
      rcases w.spine with ⟨x | ⟨l | op | found | shapes⟩ | combinator | ⟨f, a⟩, args⟩
      case const.ctor =>
        dsimp only
        split
        · exact yields_matchShapes_iff_of hH ih args r
        · exact yields_pure_ok_iff
      all_goals exact yields_pure_ok_iff

theorem yields_selectCase_iff (hH : ∀ c, Regular fun n => H n c) (subject : Code)
    (shapes : List Shape) (functions : List Code) (selected : Option Code) :
    Yields (fun n => selectCase (H n) subject shapes functions) (.ok selected) ↔
      Selects (Answers H) subject shapes functions selected := by
  induction shapes generalizing functions with
  | nil =>
    rw [Selects]
    · simp [selectCase, Yields]
    · simp
  | cons shape shapes ih =>
    cases functions with
    | nil =>
      rw [Selects]
      · simp [selectCase, Yields]
      · simp
    | cons function functions =>
      rw [Selects]
      refine (yields_bind_ok_iff (regular_matchShape hH shape subject) fun r => ?_).trans ?_
      · cases r with
        | matched bindings => exact .pure _
        | failed => exact regular_selectCase hH subject shapes functions
        | stuck => exact .pure _
      · refine exists_congr fun r => and_congr (yields_matchShape_iff hH shape subject r) ?_
        cases r with
        | matched bindings => exact yields_pure_ok_iff
        | failed => exact ih functions
        | stuck => exact yields_pure_ok_iff

/-! #### One step -/

theorem step_of_waits {head : Code} {args : List Code} (h : head.Waits args.length)
    (H N : Code → Reduction Code) : step H N head args = pure (.stuck (head.apply args)) := by
  cases head with
  | var x => rfl
  | app f a => rfl
  | comb combinator => exact congrArg pure (contractComb_of_lt h)
  | const k =>
    cases k with
    | lit l => rfl
    | ctor name => rfl
    | prim op =>
      change args.length < op.arity at h
      cases op with
      | not =>
        obtain rfl : args = [] := List.length_eq_zero_iff.1 (Nat.lt_one_iff.1 h)
        rfl
      | binary op =>
        rcases args with _ | ⟨a, _ | ⟨b, rest⟩⟩
        · rfl
        · rfl
        · simp only [Primitive.arity, List.length_cons] at h
          omega
      | cond =>
        rcases args with _ | ⟨a, _ | ⟨b, _ | ⟨c, rest⟩⟩⟩
        · rfl
        · rfl
        · rfl
        · simp only [Primitive.arity, List.length_cons] at h
          omega
    | case shapes =>
      cases args with
      | nil => rfl
      | cons a args =>
        have hlt : args.length < shapes.length := h
        simp only [step, applyCase, if_pos hlt]

/-- A binary operator forces both operands. -/
theorem step_binary (H N : Code → Reduction Code) (op : BinaryOp) (a b : Code) (rest : List Code) :
    step H N (.const (.prim (.binary op))) (a :: b :: rest) = (do
      let left ← (if op = .eq then N else H) a
      let right ← (if op = .eq then N else H) b
      let l? ← Run.ofExcept (op.onCode left right)
      pure (.ofLiteral? (apply (.const (.prim (.binary op))) [left, right]) rest l?)) := by
  refine congrArg (_ >>= ·) (funext fun left => congrArg (_ >>= ·) (funext fun right =>
    congrArg (_ >>= ·) (funext fun l? => ?_)))
  cases l? <;> rfl

/-- Negation forces its operand. -/
theorem step_not (H N : Code → Reduction Code) (a : Code) (rest : List Code) :
    step H N (.const (.prim .not)) (a :: rest) = (do
      let operand ← H a
      pure (.ofLiteral? (apply (.const (.prim .not)) [operand]) rest
        (operand.truth?.map fun b => .bool !b))) := by
  refine congrArg (_ >>= ·) (funext fun operand => ?_)
  rw [truth?]
  rcases operand.literal? with _ | n | b <;> rfl

/-- A conditional forces its test. -/
theorem step_cond (H N : Code → Reduction Code) (test yes no : Code) (rest : List Code) :
    step H N (.const (.prim .cond)) (test :: yes :: no :: rest) = (do
      let test ← H test
      pure (.ofCode? (apply (.const (.prim .cond)) [test, yes, no]) rest
        (test.truth?.map fun b => if b then yes else no))) := by
  refine congrArg (_ >>= ·) (funext fun test => ?_)
  rw [truth?]
  rcases test.literal? with _ | n | _ | _ <;> rfl

theorem yields_binary_iff (hH : ∀ c, Regular fun n => H n c) (hN : ∀ c, Regular fun n => N n c)
    {op : BinaryOp} {a b : Code} {rest : List Code} {s : Step} :
    Yields (fun n => step (H n) (N n) (.const (.prim (.binary op))) (a :: b :: rest)) (.ok s) ↔
      ∃ a', (if op = .eq then Answers N a a' else Answers H a a') ∧
        ∃ b', (if op = .eq then Answers N b b' else Answers H b b') ∧
          ∃ l?, op.onCode a' b' = .ok l? ∧
            s = .ofLiteral? (apply (.const (.prim (.binary op))) [a', b']) rest l? := by
  have hforce : ∀ c, Regular fun n => (if op = .eq then N n else H n) c := by
    intro c
    split
    · exact hN c
    · exact hH c
  have hforces : ∀ c c', Yields (fun n => (if op = .eq then N n else H n) c) (.ok c') ↔
      if op = .eq then Answers N c c' else Answers H c c' := by
    intro c c'
    split <;> rfl
  simp only [step_binary]
  refine (yields_bind_ok_iff (hforce a) fun a' => .bind (hforce b) fun b' =>
    .bind (.ofExcept _) fun _ => .pure _).trans ?_
  refine exists_congr fun a' => and_congr (hforces a a') ?_
  refine (yields_bind_ok_iff (hforce b) fun b' => .bind (.ofExcept _) fun _ => .pure _).trans ?_
  refine exists_congr fun b' => and_congr (hforces b b') ?_
  refine (yields_bind_ok_iff (.ofExcept _) fun _ => .pure _).trans ?_
  exact exists_congr fun l? =>
    and_congr (yields_ofExcept_iff.trans eq_comm) yields_pure_ok_iff

theorem yields_not_iff (hH : ∀ c, Regular fun n => H n c) {a : Code} {rest : List Code}
    {s : Step} : Yields (fun n => step (H n) (N n) (.const (.prim .not)) (a :: rest)) (.ok s) ↔
      ∃ a', Answers H a a' ∧ s = .ofLiteral? (apply (.const (.prim .not)) [a']) rest
        (a'.truth?.map fun b => .bool !b) := by
  simp only [step_not]
  refine (yields_bind_ok_iff (hH a) fun _ => .pure _).trans ?_
  exact exists_congr fun a' => and_congr_right fun _ => yields_pure_ok_iff

theorem yields_cond_iff (hH : ∀ c, Regular fun n => H n c) {test yes no : Code}
    {rest : List Code} {s : Step} :
    Yields (fun n => step (H n) (N n) (.const (.prim .cond)) (test :: yes :: no :: rest)) (.ok s) ↔
      ∃ test', Answers H test test' ∧
        s = .ofCode? (apply (.const (.prim .cond)) [test', yes, no]) rest
          (test'.truth?.map fun b => if b then yes else no) := by
  simp only [step_cond]
  refine (yields_bind_ok_iff (hH test) fun _ => .pure _).trans ?_
  exact exists_congr fun test' => and_congr_right fun _ => yields_pure_ok_iff

/-- Case analysis forces the subject and selects among as many functions as there are shapes. -/
theorem step_case (H N : Code → Reduction Code) {shapes : List Shape} (a : Code)
    {functions : List Code} (rest : List Code) (hlength : functions.length = shapes.length) :
    step H N (.const (.case shapes)) (a :: (functions ++ rest)) = (do
      let subject ← H a
      let selected ← selectCase H subject shapes functions
      pure (.ofCode? (apply (.const (.case shapes)) (subject :: functions)) rest selected)) := by
  have hselect : ∀ subject : Code, selectCase H subject shapes (functions ++ rest) =
      selectCase H subject shapes functions := by
    intro subject
    induction shapes generalizing functions with
    | nil => rw [selectCase, selectCase] <;> simp
    | cons shape shapes ih =>
      cases functions with
      | nil => cases hlength
      | cons function functions =>
        simp only [List.cons_append, selectCase, ih (Nat.succ.inj hlength)]
  have hdrop : (functions ++ rest).drop shapes.length = rest := by
    rw [← hlength, List.drop_left]
  have hlt : ¬ (functions ++ rest).length < shapes.length := by
    rw [List.length_append, hlength]
    omega
  simp only [step, applyCase, if_neg hlt, hselect, hdrop]
  refine congrArg (H a >>= ·) (funext fun subject => congrArg (_ >>= ·) (funext fun f? => ?_))
  cases f? with
  | some f => rfl
  | none =>
    rw [Step.ofCode?, ← apply_append]
    rfl

theorem yields_case_iff (hH : ∀ c, Regular fun n => H n c) {shapes : List Shape} {a : Code}
    {functions rest : List Code} {s : Step} (hlength : functions.length = shapes.length) :
    Yields (fun n => step (H n) (N n) (.const (.case shapes)) (a :: (functions ++ rest))) (.ok s) ↔
      ∃ a', Answers H a a' ∧ ∃ selected, Selects (Answers H) a' shapes functions selected ∧
        s = .ofCode? (apply (.const (.case shapes)) (a' :: functions)) rest selected := by
  simp only [step_case _ _ a rest hlength]
  refine (yields_bind_ok_iff (hH a) fun a' =>
    .bind (regular_selectCase hH a' shapes functions) fun _ => .pure _).trans ?_
  refine exists_congr fun a' => and_congr_right fun _ => ?_
  refine (yields_bind_ok_iff (regular_selectCase hH a' shapes functions) fun _ => .pure _).trans ?_
  exact exists_congr fun selected =>
    and_congr (yields_selectCase_iff hH a' shapes functions selected) yields_pure_ok_iff

/-- A step of the reducer is an application of a rule. -/
theorem yields_step_iff (hH : ∀ c, Regular fun n => H n c) (hN : ∀ c, Regular fun n => N n c)
    {head : Code} {args : List Code} {s : Step} :
    Yields (fun n => step (H n) (N n) head args) (.ok s) ↔
      Rule (Answers H) (Answers N) head args s := by
  constructor
  · intro h
    by_cases hwaits : head.Waits args.length
    · simp only [step_of_waits hwaits] at h
      rw [yields_pure_ok_iff.1 h]
      exact .waiting hwaits
    cases head with
    | var x => exact absurd trivial hwaits
    | app f a => exact absurd trivial hwaits
    | comb combinator =>
      rw [yields_pure_ok_iff.1 h]
      exact .comb (Nat.not_lt.1 hwaits)
    | const k =>
      cases k with
      | lit l => exact absurd trivial hwaits
      | ctor name => exact absurd trivial hwaits
      | prim op =>
        change ¬ args.length < op.arity at hwaits
        cases op with
        | not =>
          rcases args with _ | ⟨a, rest⟩
          · simp [Primitive.arity] at hwaits
          · obtain ⟨a', ha, rfl⟩ := (yields_not_iff hH).1 h
            exact .not rest ha
        | binary op =>
          rcases args with _ | ⟨a, _ | ⟨b, rest⟩⟩
          · simp [Primitive.arity] at hwaits
          · simp [Primitive.arity] at hwaits
          · obtain ⟨a', ha, b', hb, l?, hl, rfl⟩ := (yields_binary_iff hH hN).1 h
            exact .binary rest ha hb hl
        | cond =>
          rcases args with _ | ⟨test, _ | ⟨yes, _ | ⟨no, rest⟩⟩⟩
          · simp [Primitive.arity] at hwaits
          · simp [Primitive.arity] at hwaits
          · simp [Primitive.arity] at hwaits
          · obtain ⟨test', htest, rfl⟩ := (yields_cond_iff hH).1 h
            exact .cond yes no rest htest
      | case shapes =>
        cases args with
        | nil => exact absurd (Nat.zero_le _) hwaits
        | cons a args =>
          have hle : shapes.length ≤ args.length :=
            Nat.le_of_lt_succ (Nat.lt_of_not_le hwaits)
          have hlength : (args.take shapes.length).length = shapes.length := by
            rw [List.length_take, Nat.min_eq_left hle]
          rw [← List.take_append_drop shapes.length args] at h ⊢
          obtain ⟨a', ha, selected, hselected, rfl⟩ := (yields_case_iff hH hlength).1 h
          exact .case _ hlength ha hselected
  · intro h
    cases h with
    | comb hargs => exact yields_pure_ok_iff.2 rfl
    | binary rest ha hb hl => exact (yields_binary_iff hH hN).2 ⟨_, ha, _, hb, _, hl, rfl⟩
    | not rest ha => exact (yields_not_iff hH).2 ⟨_, ha, rfl⟩
    | cond yes no rest htest => exact (yields_cond_iff hH).2 ⟨_, htest, rfl⟩
    | case rest hlength ha hselected =>
      exact (yields_case_iff hH hlength).2 ⟨_, ha, _, hselected, rfl⟩
    | waiting hwaits =>
      simp only [step_of_waits hwaits]
      exact yields_pure_ok_iff.2 rfl

end

/-! ### The reductions -/

/-- Reduction to head normal form starts with a step of the head. -/
theorem headNormal_succ (fuel : Nat) (c : Code) : headNormal (fuel + 1) c =
    step (headNormal fuel) (normalize fuel) c.spine.1 c.spine.2 >>= Step.proceed (headNormal fuel) :=
  rfl

/-- It ends there where no rule applies. -/
theorem headNormal_of_waits {c : Code} (h : c.spine.1.Waits c.spine.2.length) (fuel : Nat) :
    headNormal (fuel + 1) c = pure c := by
  rw [headNormal_succ, step_of_waits h, Run.pure_bind, Step.proceed, apply_spine]

def HeadsTo : Code → Code → Prop := Answers headNormal

def NormalizesTo : Code → Code → Prop := Answers normalize

/-- What becomes of a spine in one step of the reducer. -/
def StepsTo : Code → List Code → Step → Prop := Rule HeadsTo NormalizesTo

/-- One contraction at the head. -/
def Contracts (c c' : Code) : Prop := StepsTo c.spine.1 c.spine.2 (.contracted c')

/-- No rule applies; `w` is the spine with its operands forced. -/
def Stays (c w : Code) : Prop := StepsTo c.spine.1 c.spine.2 (.stuck w)

/-- The normal form is what the reducer answers with some amount of fuel. -/
theorem normalizesTo_iff_reduce? {c d : Code} :
    NormalizesTo c d ↔ ∃ fuel, reduce? fuel c = some (.ok d) := by
  constructor
  · rintro ⟨n, k, h⟩
    exact ⟨n, Option.map_eq_some_iff.2 ⟨_, h, rfl⟩⟩
  · rintro ⟨n, h⟩
    obtain ⟨⟨_, k⟩, h, rfl⟩ := Option.map_eq_some_iff.1 h
    exact ⟨n, k, h⟩

theorem settles_reduce? {n : Nat} {c : Code} {r : Except ReduceError Code}
    (h : reduce? n c = some r) : Settles (fun n => reduce? n c) r := by
  refine Settles.of_mono (fun n r hn => ?_) h
  obtain ⟨e, hrun, rfl⟩ := Option.map_eq_some_iff.1 hn
  exact Option.map_eq_some_iff.2 ⟨e, (regular_normalize c).le n 0 e hrun, rfl⟩

theorem NormalizesTo.settles {c d : Code} (h : NormalizesTo c d) :
    Settles (fun n => reduce? n c) (.ok d) := by
  obtain ⟨fuel, hfuel⟩ := normalizesTo_iff_reduce?.1 h
  exact settles_reduce? hfuel

theorem HeadsTo.unique {c w w' : Code} (h : HeadsTo c w) (h' : HeadsTo c w') : w = w' := by
  cases (regular_headNormal c).yields_unique h h'
  rfl

theorem NormalizesTo.unique {c d d' : Code} (h : NormalizesTo c d) (h' : NormalizesTo c d') :
    d = d' := by
  cases (regular_normalize c).yields_unique h h'
  rfl

theorem StepsTo.unique {head : Code} {args : List Code} {s s' : Step} (h : StepsTo head args s)
    (h' : StepsTo head args s') : s = s' := by
  cases (regular_step regular_headNormal regular_normalize head args).yields_unique
    ((yields_step_iff regular_headNormal regular_normalize).2 h)
    ((yields_step_iff regular_headNormal regular_normalize).2 h')
  rfl

section

variable {H N : Nat → Code → Reduction Code}

/-- Counting a contraction has no part in the answer. -/
theorem yields_contracted_iff (hH : ∀ c, Regular fun n => H n c) {c : Code}
    {r : Except ReduceError Code} :
    Yields (fun n => (Step.contracted c).proceed (H n)) r ↔ Yields (fun n => H n c) r := by
  refine (yields_bind_iff .count fun _ => hH c).trans ⟨?_, fun h => .inr ⟨(), ⟨0, 1, rfl⟩, h⟩⟩
  rintro (⟨e, ⟨n, k, h⟩, -⟩ | ⟨_, -, h⟩)
  · cases h
  · exact h

/-- Head reduction, when the reductions one level down are `H` and `N`. -/
theorem yields_head_iff (hH : ∀ c, Regular fun n => H n c) (hN : ∀ c, Regular fun n => N n c)
    {c w : Code} :
    Yields (fun n => step (H n) (N n) c.spine.1 c.spine.2 >>= Step.proceed (H n)) (.ok w) ↔
      Rule (Answers H) (Answers N) c.spine.1 c.spine.2 (.stuck w) ∨
        ∃ c', Rule (Answers H) (Answers N) c.spine.1 c.spine.2 (.contracted c') ∧
          Answers H c' w := by
  refine (yields_bind_ok_iff (regular_step hH hN _ _) (regular_proceed hH)).trans ?_
  constructor
  · rintro ⟨s, hs, h⟩
    rw [yields_step_iff hH hN] at hs
    cases s with
    | contracted next => exact .inr ⟨next, hs, (yields_contracted_iff hH).1 h⟩
    | stuck rebuilt =>
      cases yields_pure_ok_iff.1 h
      exact .inl hs
  · rintro (h | ⟨c', hc', h⟩)
    · exact ⟨.stuck w, (yields_step_iff hH hN).2 h, yields_pure_ok_iff.2 rfl⟩
    · exact ⟨.contracted c', (yields_step_iff hH hN).2 hc', (yields_contracted_iff hH).2 h⟩

theorem yields_normalizeArgs_iff (hN : ∀ c, Regular fun n => N n c) {head d : Code}
    {args : List Code} : Yields (fun n => normalizeArgs (N n) head args) (.ok d) ↔
      ∃ ds, List.Forall₂ (Answers N) args ds ∧ d = head.apply ds := by
  induction args generalizing head with
  | nil =>
    refine yields_pure_ok_iff.trans ?_
    simp [apply]
  | cons a args ih =>
    refine (yields_bind_ok_iff (hN a) fun _ => regular_normalizeArgs hN _ args).trans ?_
    simp only [ih]
    constructor
    · rintro ⟨a', ha, ds, hds, rfl⟩
      exact ⟨a' :: ds, .cons ha hds, rfl⟩
    · rintro ⟨_, hds, rfl⟩
      cases hds with
      | cons ha hds => exact ⟨_, ha, _, hds, rfl⟩

end

theorem headsTo_iff {c w : Code} :
    HeadsTo c w ↔ Stays c w ∨ ∃ c', Contracts c c' ∧ HeadsTo c' w := by
  have hbody : HeadsTo c w ↔ Yields (fun n => headNormal (n + 1) c) (.ok w) :=
    (yields_succ_iff fun _ => rfl).symm
  rw [hbody]
  exact yields_head_iff regular_headNormal regular_normalize

theorem normalizesTo_iff {c d : Code} : NormalizesTo c d ↔
    ∃ w, HeadsTo c w ∧ ∃ ds, List.Forall₂ NormalizesTo w.spine.2 ds ∧ d = w.spine.1.apply ds := by
  have hbody : NormalizesTo c d ↔ Yields (fun n => normalize (n + 1) c) (.ok d) :=
    (yields_succ_iff fun _ => rfl).symm
  rw [hbody]
  refine (yields_bind_ok_iff (regular_headNormal c)
    fun w => regular_normalizeArgs regular_normalize w.spine.1 w.spine.2).trans ?_
  simp only [yields_normalizeArgs_iff regular_normalize]
  rfl

/-! ### Induction over the nested reductions -/

/-- The reductions, cut off at a depth. -/
def headUpTo (depth n : Nat) (c : Code) : Reduction Code := headNormal (min n depth) c

def normalizeUpTo (depth n : Nat) (c : Code) : Reduction Code := normalize (min n depth) c

/-- What holds of reductions whose nested reductions it holds of, holds of all. -/
theorem reduction_induct {P Q : Code → Code → Prop}
    (head : ∀ (H N : Code → Code → Prop), (∀ c w, H c w → HeadsTo c w ∧ P c w) →
      (∀ c d, N c d → NormalizesTo c d ∧ Q c d) → ∀ c w,
        (Rule H N c.spine.1 c.spine.2 (.stuck w) ∨
          ∃ c', Rule H N c.spine.1 c.spine.2 (.contracted c') ∧ H c' w) → P c w)
    (full : ∀ (H N : Code → Code → Prop), (∀ c w, H c w → HeadsTo c w ∧ P c w) →
      (∀ c d, N c d → NormalizesTo c d ∧ Q c d) → ∀ c w ds, H c w →
        List.Forall₂ N w.spine.2 ds → Q c (w.spine.1.apply ds)) :
    (∀ c w, HeadsTo c w → P c w) ∧ ∀ c d, NormalizesTo c d → Q c d := by
  have hdepth : ∀ depth, (∀ c w, Answers (headUpTo depth) c w → HeadsTo c w ∧ P c w) ∧
      ∀ c d, Answers (normalizeUpTo depth) c d → NormalizesTo c d ∧ Q c d := by
    intro depth
    induction depth with
    | zero =>
      refine ⟨fun c w h => ?_, fun c d h => ?_⟩ <;> obtain ⟨n, k, h⟩ := h <;>
        simp [headUpTo, normalizeUpTo, headNormal, normalize] at h
    | succ depth ih =>
      obtain ⟨hH, hN⟩ := regular_upTo depth
      refine ⟨fun c w h => ⟨?_, ?_⟩, fun c d h => ⟨?_, ?_⟩⟩
      · obtain ⟨n, k, h⟩ := h
        exact ⟨_, k, h⟩
      · have hbody : Yields (fun n => headUpTo (depth + 1) (n + 1) c) (.ok w) :=
          (yields_succ_iff fun _ => by simp [headUpTo, headNormal]).2 h
        simp only [headUpTo, Nat.succ_min_succ] at hbody
        exact head _ _ ih.1 ih.2 c w ((yields_head_iff hH hN).1 hbody)
      · obtain ⟨n, k, h⟩ := h
        exact ⟨_, k, h⟩
      · have hbody : Yields (fun n => normalizeUpTo (depth + 1) (n + 1) c) (.ok d) :=
          (yields_succ_iff fun _ => by simp [normalizeUpTo, normalize]).2 h
        simp only [normalizeUpTo, Nat.succ_min_succ] at hbody
        obtain ⟨w, hw, h⟩ := (yields_bind_ok_iff (hH c)
          fun w => regular_normalizeArgs hN w.spine.1 w.spine.2).1 hbody
        obtain ⟨ds, hds, rfl⟩ := (yields_normalizeArgs_iff hN).1 h
        exact full _ _ ih.1 ih.2 c w ds hw hds
  refine ⟨fun c w h => ?_, fun c d h => ?_⟩
  · obtain ⟨n, k, h⟩ := h
    exact ((hdepth n).1 c w ⟨n, k, by simpa [headUpTo] using h⟩).2
  · obtain ⟨n, k, h⟩ := h
    exact ((hdepth n).2 c d ⟨n, k, by simpa [normalizeUpTo] using h⟩).2

end Code

end CoreCalculus
