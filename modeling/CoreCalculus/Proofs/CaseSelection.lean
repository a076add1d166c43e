/-
  CoreCalculus/Proofs/CaseSelection.lean
  ======================================
  **Case analysis selects what the evaluator selects.**

  The evaluator matches data against patterns and binds names; a name that occurs again
  is bound to the later value.  The reducer matches the code of the data against shapes, and
  hands what is bound, in order, to a function that was abstracted over the variables of the
  pattern, the last one innermost.

  A shape sees in the code of data what its pattern sees in the data
  (`matchShape_code`): data is in head normal form already, and so are its arguments.
  So the first shape that matches is at the position of the first pattern that does.  The
  function selected there is rewritten, with what is bound, to the code of the body under the
  bindings by name.
-/
import CoreCalculus.Proofs.Beta
import CoreCalculus.Proofs.Finality
import CoreCalculus.Proofs.ValueCode

namespace CoreCalculus

open Relation Code

/-! ### Positions -/

namespace Term

/-- The position of the first case that takes the value. -/
def position? (value : Term) (cases : List (Pattern × Term)) : Option Nat :=
  cases.findIdx? fun c => (c.1.match? value).isSome

theorem position?_cons (value : Term) (c : Pattern × Term) (cases : List (Pattern × Term)) :
    value.position? (c :: cases) =
      if (c.1.capture? value).isSome then some 0 else (value.position? cases).map (· + 1) := by
  rw [position?, List.findIdx?_cons, Pattern.match?_eq, Option.isSome_map]
  rfl

theorem position?_eq_none_iff {v : Term} {cases : List (Pattern × Term)} :
    v.position? cases = none ↔ v.firstMatch cases = none := by
  induction cases with
  | nil => simp [position?, firstMatch]
  | cons c cases ih =>
    rw [position?_cons, firstMatch, Pattern.match?_eq]
    rcases c.1.capture? v with _ | vs
    · simpa using ih
    · simp

/-- The evaluator takes the case at that position, with what its pattern captures. -/
theorem exists_of_position?_eq_some {v : Term} {cases : List (Pattern × Term)} {i : Nat}
    (h : v.position? cases = some i) : ∃ p body vs, cases[i]? = some (p, body) ∧
      p.capture? v = some vs ∧ v.firstMatch cases = some (Table.ofList (p.vars.zip vs), body) := by
  induction cases generalizing i with
  | nil => cases h
  | cons c cases ih =>
    obtain ⟨p, body⟩ := c
    rw [position?_cons] at h
    rw [firstMatch, Pattern.match?_eq]
    rcases hcapture : p.capture? v with _ | vs
    · simp only [hcapture, Option.isSome_none, Bool.false_eq_true, if_false,
        Option.map_eq_some_iff] at h
      obtain ⟨j, hj, rfl⟩ := h
      exact ih hj
    · simp only [hcapture, Option.isSome_some, if_true, Option.some.injEq] at h
      subst h
      exact ⟨p, body, vs, rfl, hcapture, rfl⟩

end Term

namespace Code

section

variable (H N : Code → Reduction Code)

/-- The position of the first shape that the subject has, and what that shape binds; `none` when
    a shape is stuck. -/
def selectAt (subject : Code) : List Shape → Reduction (Option (Nat × List Code))
  | [] => Run.fail (.noMatchingCase subject)
  | shape :: shapes => do
    match ← matchShape H shape subject with
    | .matched bindings => pure (some (0, bindings))
    | .failed =>
      let found ← selectAt subject shapes
      pure (found.map fun e => (e.1 + 1, e.2))
    | .stuck => pure none

/-- What is selected is the function at that position, applied to what is bound. -/
theorem selectCase_eq (subject : Code) {shapes : List Shape} {functions : List Code}
    (hlength : functions.length = shapes.length) :
    selectCase H subject shapes functions = (do
      let found ← selectAt H subject shapes
      pure (found.bind fun e => functions[e.1]?.map fun function => function.apply e.2)) := by
  induction shapes generalizing functions with
  | nil =>
    obtain rfl := List.length_eq_zero_iff.1 hlength
    rfl
  | cons shape shapes ih =>
    cases functions with
    | nil => cases hlength
    | cons function functions =>
      rw [selectCase, selectAt, Run.bind_assoc]
      refine congrArg (matchShape H shape subject >>= ·) (funext fun r => ?_)
      cases r with
      | matched bindings => rfl
      | failed =>
        dsimp only
        rw [ih (Nat.succ.inj hlength), Run.bind_assoc]
        refine congrArg (selectAt H subject shapes >>= ·) (funext fun found => ?_)
        cases found <;> rfl
      | stuck => rfl

/-- The step of a case analysis whose subject is in head normal form. -/
theorem step_case_of_pure {subject : Code} (hsubject : H subject = pure subject)
    {shapes : List Shape} {functions : List Code} (hlength : functions.length = shapes.length) :
    step H N (.const (.case shapes)) (subject :: functions) = (do
      let found ← selectAt H subject shapes
      pure (.ofCode? (apply (.const (.case shapes)) (subject :: functions)) []
        (found.bind fun e => functions[e.1]?.map fun function => function.apply e.2))) := by
  have hstep := step_case H N subject [] hlength
  rw [List.append_nil, hsubject, Run.pure_bind] at hstep
  rw [hstep, selectCase_eq H subject hlength, Run.bind_assoc]
  rfl

end

end Code

/-! ### Data -/

namespace Term

/-- Data evaluates to itself. -/
theorem evaluate_of_isData {v : Term} (h : v.isData) (scope : Scope) :
    ∃ depth, ∀ n, depth ≤ n → v.evaluate scope n = pure v := by
  obtain ⟨depth, hfinal⟩ := (Evaluated.of_isData h).exists_final scope
  exact ⟨depth, fun n hn => hfinal.mono hn⟩

end Term

section

variable {H : Code → Reduction Code} {optimize : Bool}

/-- What a shape makes of the code of data, given what its pattern captures. -/
def ShapeMatch.ofCaptured (optimize : Bool) : Option (List Term) → ShapeMatch
  | some vs => .matched (vs.map fun v => v.code optimize)
  | none => .failed

theorem ShapeMatch.ofCaptured_ne_stuck (captured : Option (List Term)) :
    ofCaptured optimize captured ≠ .stuck := by
  cases captured <;> exact nofun

namespace Code

theorem matchShapes_code_of {ps : List Pattern}
    (h : ∀ p ∈ ps, ∀ v : Term, v.isData → matchShape H (Shape.ofPattern p) (v.code optimize) =
      pure (.ofCaptured optimize (p.capture? v)))
    {vs : List Term} (hvs : ∀ v ∈ vs, v.isData) :
    matchShapes H (Shape.ofPatterns ps) (vs.map fun v => v.code optimize) =
      pure (.ofCaptured optimize (Pattern.captureAll? ps vs)) := by
  induction ps generalizing vs with
  | nil => cases vs <;> rfl
  | cons p ps ih =>
    cases vs with
    | nil => rfl
    | cons v vs =>
      rw [List.forall_mem_cons] at h hvs
      rw [Shape.ofPatterns, List.map_cons, matchShapes, h.1 v hvs.1, Run.pure_bind,
        Pattern.captureAll?, ih h.2 hvs.2]
      rcases p.capture? v with _ | first
      · rfl
      · rcases Pattern.captureAll? ps vs with _ | rest
        · rfl
        · simp only [ShapeMatch.ofCaptured, Run.pure_bind, Option.pure_def, Option.bind_eq_bind,
            Option.bind_some, List.map_append]

theorem matchShape_lit (l : Literal) (c : Code) :
    matchShape H (.lit l) c = H c >>= fun w => pure (matchLiteral l w) := by
  rw [matchShape]
  refine congrArg (H c >>= ·) (funext fun w => ?_)
  rw [matchLiteral]
  rcases w.spine with ⟨x | ⟨l | op | name | shapes⟩ | combinator | ⟨f, a⟩, _ | ⟨arg, args⟩⟩ <;> rfl

/-- A shape sees in the code of data what its pattern sees in the data. -/
theorem matchShape_code (hH : ∀ v : Term, v.isData → H (v.code optimize) = pure (v.code optimize))
    (p : Pattern) {v : Term} (hv : v.isData) :
    matchShape H (Shape.ofPattern p) (v.code optimize) =
      pure (.ofCaptured optimize (p.capture? v)) := by
  induction p using Pattern.induct generalizing v with
  | var x => rfl
  | lit l =>
    rw [Shape.ofPattern, matchShape_lit, hH v hv, Run.pure_bind, Pattern.capture?]
    rcases Term.isData_cases hv with ⟨found, rfl⟩ | ⟨name, args, rfl, -⟩
    · change pure (if found = l then ShapeMatch.matched [] else .failed) = _
      simp only [Term.literal?, Option.some.injEq]
      split <;> rfl
    · rw [Term.literal?_apply_ctor, if_neg (Option.some_ne_none l).symm, matchLiteral,
        Term.code_apply, spine_apply_of_leaf ((Term.IsConstant.ctor name).spine_code optimize)]
      rfl
  | ctor name subs ih =>
    rw [Shape.ofPattern, matchShape, hH v hv, Run.pure_bind, Pattern.capture?]
    rcases Term.isData_cases hv with ⟨found, rfl⟩ | ⟨found, args, rfl, hargs⟩
    · rfl
    · have hk := Term.IsConstant.ctor found
      rw [Term.code_apply, spine_apply_of_leaf (hk.spine_code optimize), hk.spine_apply]
      change (if found = name ∧ (args.map fun a => a.code optimize).length =
        (Shape.ofPatterns subs).length then matchShapes H (Shape.ofPatterns subs)
          (args.map fun a => a.code optimize) else pure .failed) = _
      simp only [Shape.ofPatterns_eq_map, List.length_map, Term.ctor.injEq]
      split
      · rw [← Shape.ofPatterns_eq_map]
        exact matchShapes_code_of (fun p hp v hv => ih p hp hv) hargs
      · rfl

/-- No pattern takes the data: no shape has its code. -/
theorem selectAt_code_of_none
    (hH : ∀ v : Term, v.isData → H (v.code optimize) = pure (v.code optimize)) {d : Term}
    (hd : d.isData) {cases : List (Pattern × Term)} (h : d.position? cases = none) :
    selectAt H (d.code optimize) (cases.map fun c => Shape.ofPattern c.1) =
      Run.fail (.noMatchingCase (d.code optimize)) := by
  induction cases with
  | nil => rfl
  | cons c cases ih =>
    rw [Term.position?_cons] at h
    rw [List.map_cons, selectAt, matchShape_code hH c.1 hd, Run.pure_bind]
    rcases hcapture : c.1.capture? d with _ | vs
    · simp only [hcapture, Option.isSome_none, Bool.false_eq_true, if_false,
        Option.map_eq_none_iff] at h
      rw [ShapeMatch.ofCaptured, ih h]
      rfl
    · simp [hcapture] at h

/-- The shapes before the first pattern that takes the data fail, and its shape binds the code of
    what it captures. -/
theorem selectAt_code_of_some
    (hH : ∀ v : Term, v.isData → H (v.code optimize) = pure (v.code optimize)) {d : Term}
    (hd : d.isData) {cases : List (Pattern × Term)} {i : Nat} {p : Pattern} {body : Term}
    {vs : List Term} (h : d.position? cases = some i) (hcase : cases[i]? = some (p, body))
    (hcapture : p.capture? d = some vs) :
    selectAt H (d.code optimize) (cases.map fun c => Shape.ofPattern c.1) =
      pure (some (i, vs.map fun v => v.code optimize)) := by
  induction cases generalizing i with
  | nil => cases h
  | cons c cases ih =>
    rw [Term.position?_cons] at h
    rw [List.map_cons, selectAt, matchShape_code hH c.1 hd, Run.pure_bind]
    rcases hfirst : c.1.capture? d with _ | first
    · simp only [hfirst, Option.isSome_none, Bool.false_eq_true, if_false,
        Option.map_eq_some_iff] at h
      obtain ⟨j, hj, rfl⟩ := h
      rw [ShapeMatch.ofCaptured, ih hj hcase]
      rfl
    · simp only [hfirst, Option.isSome_some, if_true, Option.some.injEq] at h
      subst h
      obtain rfl : c = (p, body) := Option.some.inj hcase
      obtain rfl : first = vs := Option.some.inj (hfirst.symm.trans hcapture)
      rfl

end Code

end

/-! ### Both sides -/

theorem Shape.exists_ofPattern (shape : Shape) : ∃ p, ofPattern p = shape := by
  induction shape using Shape.induct with
  | bind => exact ⟨.var "", rfl⟩
  | lit l => exact ⟨.lit l, rfl⟩
  | ctor name subs ih =>
    suffices hsubs : ∃ ps, ofPatterns ps = subs by
      obtain ⟨ps, rfl⟩ := hsubs
      exact ⟨.ctor name ps, rfl⟩
    induction subs with
    | nil => exact ⟨[], rfl⟩
    | cons s ss ihs =>
      rw [List.forall_mem_cons] at ih
      obtain ⟨p, rfl⟩ := ih.1
      obtain ⟨ps, rfl⟩ := ihs ih.2
      exact ⟨p :: ps, rfl⟩

namespace Term

variable (optimize : Bool)

/-- The code of data is in head normal form. -/
theorem headNormal_code {v : Term} (hv : v.isData) (fuel : Nat) :
    headNormal (fuel + 1) (v.code optimize) = pure (v.code optimize) := by
  obtain ⟨k, vs, hk, rfl⟩ := exists_apply_of_isData hv
  exact headNormal_of_waits (waits_code (.inr ⟨k, vs, hk, rfl⟩)) fuel

/-- The function of a case, with what the pattern captures, is rewritten to the body under the
    bindings. -/
theorem caseCode_rewrites {p : Pattern} {v : Term} {vs : List Term}
    (hcapture : p.capture? v = some vs) (body : Term) (supply : Supply) :
    ReflTransGen Rewrites ((caseCode optimize (p, body)).apply (vs.map fun v => v.code optimize))
      ((body.substMany (Table.ofList (p.vars.zip vs)) supply).1.code optimize) := by
  have hlength : (vs.map fun v => v.code optimize).length = p.vars.length := by
    rw [List.length_map, Pattern.length_of_capture? hcapture]
  have hrewrites := abstractAll_rewrites optimize .var (body.code optimize) hlength
  rw [subst_var] at hrewrites
  rw [code_substMany_zip]
  exact hrewrites

/-- The evaluator matches data as it is. -/
theorem evaluate_select_of_isData {d : Term} (hd : d.isData) (cases : List (Pattern × Term))
    (scope : Scope) : ∃ depth, ∀ n, depth ≤ n →
      (∀ bindings body, d.firstMatch cases = some (bindings, body) →
        (select d cases).evaluate scope (n + 1) =
          Run.update (substMany bindings body) >>= evaluate scope n) ∧
      (d.firstMatch cases = none →
        (select d cases).evaluate scope (n + 1) = Run.fail (.noMatchingCase d)) := by
  obtain ⟨depth, hdepth⟩ := evaluate_of_isData hd scope
  refine ⟨depth, fun n hn => ⟨fun bindings body hfirst => ?_, fun hfirst => ?_⟩⟩ <;>
    simp only [evaluate, hdepth n hn, Run.pure_bind, hfirst]

/-- **Match lowering agrees with the evaluator.**  On data, no shape is stuck; the shape that the
    reducer selects is at the position of the case that the evaluator takes; and where the
    evaluator has no case, the reducer reports that it has none.  The new code of the reducer, the
    function at that position applied to what its shape binds, is rewritten by the combinators to
    the code of the body of that case, under the bindings that the evaluator puts in. -/
theorem case_selection_agrees (cases : List (Pattern × Term)) {d : Term} (hd : d.isData) :
    ∃ shapes subject functions code, shapes = cases.map (fun c => Shape.ofPattern c.1) ∧
      functions.length = cases.length ∧ d.compile optimize = .ok subject ∧
      (select d cases).compile optimize = .ok code ∧
      code = Code.apply (.const (.case shapes)) (subject :: functions) ∧
      (∀ scope, ∃ depth, ∀ n, depth ≤ n →
        (∀ bindings body, d.firstMatch cases = some (bindings, body) →
          (select d cases).evaluate scope (n + 1) =
            Run.update (substMany bindings body) >>= evaluate scope n) ∧
        (d.firstMatch cases = none →
          (select d cases).evaluate scope (n + 1) = Run.fail (.noMatchingCase d))) ∧
      ∀ fuel steps : Nat,
        (∀ shape, ∃ r, matchShape (headNormal (fuel + 1)) shape subject steps =
          some (.ok r, steps) ∧ r ≠ .stuck) ∧
        (∀ i, d.position? cases = some i ↔ ∃ bound,
          selectAt (headNormal (fuel + 1)) subject shapes steps =
            some (.ok (some (i, bound)), steps)) ∧
        (d.firstMatch cases = none ↔
          step (headNormal (fuel + 1)) (normalize (fuel + 1)) (.const (.case shapes))
            (subject :: functions) steps = some (.error (.noMatchingCase subject), steps)) ∧
        (d.firstMatch cases = none →
          headNormal (fuel + 2) code steps = some (.error (.noMatchingCase subject), steps)) ∧
        ∀ i, d.position? cases = some i → ∃ p body bindings function bound,
          cases[i]? = some (p, body) ∧ functions[i]? = some function ∧
          p.match? d = some bindings ∧ d.firstMatch cases = some (bindings, body) ∧
          selectAt (headNormal (fuel + 1)) subject shapes steps =
            some (.ok (some (i, bound)), steps) ∧
          step (headNormal (fuel + 1)) (normalize (fuel + 1)) (.const (.case shapes))
            (subject :: functions) steps = some (.ok (.contracted (function.apply bound)), steps) ∧
          headNormal (fuel + 2) code steps =
            headNormal (fuel + 1) (function.apply bound) (steps + 1) ∧
          ∀ supply, ∃ target, (body.substMany bindings supply).1.compile optimize = .ok target ∧
            ReflTransGen Rewrites (function.apply bound) target := by
  have hH : ∀ fuel, ∀ v : Term, v.isData →
      headNormal (fuel + 1) (v.code optimize) = pure (v.code optimize) :=
    fun fuel v hv => headNormal_code optimize hv fuel
  have hlength : (cases.map (caseCode optimize)).length =
      (cases.map fun c => Shape.ofPattern c.1).length := by
    rw [List.length_map, List.length_map]
  refine ⟨_, d.code optimize, cases.map (caseCode optimize), _, rfl, List.length_map _,
    compile_eq optimize d, compile_eq optimize _, code_select optimize d cases,
    evaluate_select_of_isData hd cases, fun fuel steps => ?_⟩
  have hstep := step_case_of_pure (headNormal (fuel + 1)) (normalize (fuel + 1)) (hH fuel d hd)
    hlength
  refine ⟨fun shape => ?_, ?_⟩
  · obtain ⟨p, rfl⟩ := Shape.exists_ofPattern shape
    rw [matchShape_code (hH fuel) p hd]
    exact ⟨_, rfl, ShapeMatch.ofCaptured_ne_stuck _⟩
  rw [code_select, headNormal_succ (fuel + 1), spine_apply_of_leaf rfl]
  rcases hposition : d.position? cases with _ | i
  · have hselect := selectAt_code_of_none (hH fuel) hd hposition
    rw [hselect] at hstep
    rw [hselect, hstep]
    exact ⟨fun i => ⟨nofun, nofun⟩, ⟨fun _ => rfl, fun _ => position?_eq_none_iff.1 hposition⟩,
      fun _ => rfl, nofun⟩
  · obtain ⟨p, body, vs, hcase, hcapture, hfirst⟩ := exists_of_position?_eq_some hposition
    have hselect := selectAt_code_of_some (hH fuel) hd hposition hcase hcapture
    have hfunction : (cases.map (caseCode optimize))[i]? = some (caseCode optimize (p, body)) := by
      rw [List.getElem?_map, hcase]
      rfl
    rw [hselect, Run.pure_bind, Option.bind_some, hfunction] at hstep
    rw [hselect, hstep, hfirst]
    refine ⟨fun j => ⟨fun hj => ?_, fun ⟨bound, hj⟩ => ?_⟩, ⟨nofun, nofun⟩, nofun, fun j hj => ?_⟩
    · obtain rfl := Option.some.inj hj
      exact ⟨_, rfl⟩
    · cases hj
      rfl
    · obtain rfl := Option.some.inj hj
      refine ⟨p, body, _, _, _, hcase, hfunction, ?_, rfl, rfl, rfl, rfl, fun supply =>
        ⟨_, compile_eq optimize _, caseCode_rewrites optimize hcapture body supply⟩⟩
      rw [Pattern.match?_eq, hcapture]
      rfl

/-- The first case fails at its literal.  The second binds `x` twice, and the later value is the
    one that the reducer's function takes. -/
theorem case_selection_agrees_repeated :
    let two : Term := .app (.app (.ctor "Cons") (.lit (.int 2))) (.ctor "Nil")
    let d : Term := .app (.app (.ctor "Cons") (.lit (.int 1))) two
    let cases : List (Pattern × Term) :=
      [(.ctor "Cons" [.var "x", .ctor "Cons" [.lit (.int 3), .var "y"]], .var "x"),
        (.ctor "Cons" [.var "x", .ctor "Cons" [.var "x", .var "y"]],
          .app (.app (.ctor "Pair") (.var "x")) (.var "y"))]
    d.isData ∧ d.position? cases = some 1 ∧ ∃ code next,
      (select d cases).compile true = .ok code ∧ headNormal 2 code 0 = headNormal 1 next 1 ∧
      ReflTransGen Rewrites next
        (Code.apply (.const (.ctor "Pair")) [.const (.lit (.int 2)), .const (.ctor "Nil")]) := by
  intro two d cases
  have hd : d.isData := rfl
  have hposition : d.position? cases = some 1 := rfl
  obtain ⟨shapes, subject, functions, code, -, -, -, hcompile, -, -, h⟩ :=
    case_selection_agrees true cases hd
  obtain ⟨-, -, -, -, hselected⟩ := h 0 0
  obtain ⟨p, body, bindings, function, bound, -, -, -, hfirst, -, -, hreduces, hbody⟩ :=
    hselected 1 hposition
  have hmatch : d.firstMatch cases =
      some (.ofList [("x", .lit (.int 1)), ("x", .lit (.int 2)), ("y", .ctor "Nil")],
        .app (.app (.ctor "Pair") (.var "x")) (.var "y")) := rfl
  obtain ⟨rfl, rfl⟩ := Prod.mk.inj (Option.some.inj (hmatch.symm.trans hfirst))
  obtain ⟨target, htarget, hrewrites⟩ := hbody ⟨0⟩
  rw [compile_eq, code_substMany] at htarget
  obtain rfl := Except.ok.inj htarget
  exact ⟨hd, hposition, code, _, hcompile, hreduces, hrewrites⟩

end Term

end CoreCalculus
