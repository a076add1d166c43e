/-
  CoreCalculus/Proofs/Capture.lean
  ================================
  **What a pattern captures**, by position.

  Matching collects bindings by name; a later binding of a name replaces an earlier
  one.  Here the values are listed in the order of the variables of the pattern, names
  and all, so nothing is lost: the bindings are the list, read by name
  (`Pattern.match?_eq`).

  Matching looks at a value through its spine only, and at an argument only when all
  arguments before it have been taken.  `Pattern.tests` lists what is looked at: each
  literal or constructor pattern with the value it is tested against.
-/
import CoreCalculus.Matching

namespace CoreCalculus

theorem Table.insertAll_append {κ α : Type} [DecidableEq κ] (t : Table κ α)
    (first rest : List (κ × α)) :
    t.insertAll (first ++ rest) = (t.insertAll first).insertAll rest := by
  rw [insertAll, List.foldl_append]
  rfl

namespace Pattern

mutual

/-- The values of the variables of a pattern, from left to right, when it takes the value. -/
def capture? : Pattern → Term → Option (List Term)
  | .var _, value => some [value]
  | .lit l, value => if value.literal? = some l then some [] else none
  | .ctor name subs, value =>
    if value.spine.1 = .ctor name ∧ value.spine.2.length = subs.length then
      captureAll? subs value.spine.2
    else none

def captureAll? : List Pattern → List Term → Option (List Term)
  | sub :: subs, arg :: args => do
    return (← sub.capture? arg) ++ (← captureAll? subs args)
  | _, _ => some []

end

mutual

/-- Each literal or constructor pattern in turn, with the value it is tested against, up to
    the first test that fails. -/
def tests : Pattern → Term → List (Pattern × Term)
  | .var _, _ => []
  | .lit l, value => [(.lit l, value)]
  | .ctor name subs, value =>
    (.ctor name subs, value) ::
      if value.spine.1 = .ctor name ∧ value.spine.2.length = subs.length then
        testsAll subs value.spine.2
      else []

def testsAll : List Pattern → List Term → List (Pattern × Term)
  | sub :: subs, arg :: args =>
    sub.tests arg ++ if (sub.capture? arg).isSome then testsAll subs args else []
  | _, _ => []

end

theorem captureAll?_cons_eq_some_iff {p : Pattern} {ps : List Pattern} {v : Term} {vs : List Term}
    {captured : List Term} :
    captureAll? (p :: ps) (v :: vs) = some captured ↔ ∃ first rest, p.capture? v = some first ∧
      captureAll? ps vs = some rest ∧ captured = first ++ rest := by
  simp only [captureAll?, Option.pure_def, Option.bind_eq_bind, Option.bind_eq_some_iff,
    Option.some.injEq]
  constructor
  · rintro ⟨first, hfirst, rest, hrest, rfl⟩
    exact ⟨first, rest, hfirst, hrest, rfl⟩
  · rintro ⟨first, rest, hfirst, hrest, rfl⟩
    exact ⟨first, hfirst, rest, hrest, rfl⟩

theorem captureAll?_cons_eq_none_iff {p : Pattern} {ps : List Pattern} {v : Term}
    {vs : List Term} :
    captureAll? (p :: ps) (v :: vs) = none ↔
      p.capture? v = none ∨ ((p.capture? v).isSome ∧ captureAll? ps vs = none) := by
  rcases hp : p.capture? v with _ | first
  · simp [captureAll?, hp]
  · rcases hps : captureAll? ps vs with _ | rest <;> simp [captureAll?, hp, hps]

/-- Matching into a table adds what is captured, a later value of a name replacing an earlier
    one. -/
def Captures (p : Pattern) : Prop :=
  ∀ (bindings : Table String Term) (v : Term),
    (∀ vs, p.capture? v = some vs → vs.length = p.vars.length ∧
      p.matchInto bindings v = (true, bindings.insertAll (p.vars.zip vs))) ∧
    (p.capture? v = none → (p.matchInto bindings v).1 = false)

theorem matchAll_captures {ps : List Pattern} (ih : ∀ p ∈ ps, p.Captures)
    (bindings : Table String Term) {vs : List Term} (hlength : vs.length = ps.length) :
    (∀ captured, captureAll? ps vs = some captured → captured.length = (varsAll ps).length ∧
      matchAll bindings ps vs = (true, bindings.insertAll ((varsAll ps).zip captured))) ∧
    (captureAll? ps vs = none → (matchAll bindings ps vs).1 = false) := by
  induction ps generalizing bindings vs with
  | nil =>
    obtain rfl := List.length_eq_zero_iff.1 hlength
    refine ⟨fun captured h => ?_, fun h => by cases h⟩
    cases h
    exact ⟨rfl, rfl⟩
  | cons p ps ihs =>
    cases vs with
    | nil => cases hlength
    | cons v vs =>
      rw [List.forall_mem_cons] at ih
      obtain ⟨hsome, hnone⟩ := ih.1 bindings v
      refine ⟨fun captured h => ?_, fun h => ?_⟩
      · obtain ⟨first, rest, hfirst, hrest, rfl⟩ := captureAll?_cons_eq_some_iff.1 h
        obtain ⟨hlen, hmatch⟩ := hsome first hfirst
        obtain ⟨hlens, hmatches⟩ := (ihs ih.2 (bindings.insertAll (p.vars.zip first))
          (Nat.succ.inj hlength)).1 rest hrest
        rw [varsAll, List.length_append, List.length_append, hlen, hlens, matchAll, hmatch,
          List.zip_append hlen.symm, Table.insertAll_append]
        exact ⟨rfl, hmatches⟩
      · rw [matchAll]
        rcases captureAll?_cons_eq_none_iff.1 h with hp | ⟨hp, hps⟩
        · have hfalse := hnone hp
          rcases hmatch : p.matchInto bindings v with ⟨_ | _, bindings'⟩
          · rfl
          · rw [hmatch] at hfalse
            cases hfalse
        · obtain ⟨first, hfirst⟩ := Option.isSome_iff_exists.1 hp
          rw [(hsome first hfirst).2]
          exact (ihs ih.2 _ (Nat.succ.inj hlength)).2 hps

theorem matchInto_captures (p : Pattern) : p.Captures := by
  induction p using Pattern.induct with
  | var x =>
    intro bindings v
    refine ⟨fun vs h => ?_, fun h => by cases h⟩
    cases h
    exact ⟨rfl, rfl⟩
  | lit l =>
    intro bindings v
    rw [capture?, matchInto]
    refine ⟨fun vs h => ?_, fun h => ?_⟩
    · split at h
      · rename_i hl
        cases h
        rw [hl]
        exact ⟨rfl, by simp [vars, Table.insertAll]⟩
      · cases h
    · split at h
      · cases h
      · rename_i hl
        simpa using hl
  | ctor name subs ih =>
    intro bindings v
    rw [capture?, matchInto, vars]
    dsimp only
    split
    · rename_i hspine
      exact matchAll_captures ih bindings hspine.2
    · exact ⟨fun vs h => (by cases h), fun _ => rfl⟩

/-- The bindings of a match are what is captured, by name. -/
theorem match?_eq (p : Pattern) (v : Term) :
    p.match? v = (p.capture? v).map fun vs => Table.ofList (p.vars.zip vs) := by
  obtain ⟨hsome, hnone⟩ := p.matchInto_captures .empty v
  rw [match?]
  rcases hcapture : p.capture? v with _ | vs
  · have hfalse := hnone hcapture
    rcases hmatch : p.matchInto .empty v with ⟨_ | _, bindings⟩
    · rfl
    · rw [hmatch] at hfalse
      cases hfalse
  · rw [(hsome vs hcapture).2]
    rfl

theorem length_of_capture? {p : Pattern} {v : Term} {vs : List Term}
    (h : p.capture? v = some vs) : vs.length = p.vars.length :=
  ((p.matchInto_captures .empty v).1 vs h).1

/-- What is captured is the value, or among the arguments of what is captured or looked at: it
    has the properties that pass from a value to its arguments. -/
theorem forall_of_capture? {P : Term → Prop} (hP : ∀ v, P v → ∀ a ∈ v.spine.2, P a) {p : Pattern}
    {v : Term} {vs : List Term} (h : p.capture? v = some vs) (hv : P v) : ∀ w ∈ vs, P w := by
  induction p using Pattern.induct generalizing v vs with
  | var y =>
    cases h
    simpa using hv
  | lit l =>
    rw [capture?] at h
    split at h <;> cases h
    simp
  | ctor name subs ih =>
    rw [capture?] at h
    split at h
    · rename_i hspine
      clear hspine
      have hargs := hP v hv
      generalize v.spine.2 = args at h hargs
      induction subs generalizing args vs with
      | nil =>
        cases h
        simp
      | cons p ps ihs =>
        rw [List.forall_mem_cons] at ih
        cases args with
        | nil =>
          cases h
          simp
        | cons a args =>
          rw [List.forall_mem_cons] at hargs
          obtain ⟨first, rest, hfirst, hrest, rfl⟩ := captureAll?_cons_eq_some_iff.1 h
          rw [List.forall_mem_append]
          exact ⟨ih.1 hfirst hargs.1, ihs ih.2 args hrest hargs.2⟩
    · cases h

/-- What is tested is the value, or among the arguments of what is tested. -/
theorem forall_of_tests {P : Term → Prop} (hP : ∀ v, P v → ∀ a ∈ v.spine.2, P a) {p : Pattern}
    {v : Term} (hv : P v) : ∀ e ∈ p.tests v, P e.2 := by
  induction p using Pattern.induct generalizing v with
  | var x => exact List.forall_mem_nil _
  | lit l =>
    rw [tests, List.forall_mem_singleton]
    exact hv
  | ctor name subs ih =>
    rw [tests, List.forall_mem_cons]
    refine ⟨hv, ?_⟩
    split
    · rename_i hspine
      clear hspine
      have hargs := hP v hv
      generalize v.spine.2 = args at hargs
      induction subs generalizing args with
      | nil => exact List.forall_mem_nil _
      | cons p ps ihs =>
        rw [List.forall_mem_cons] at ih
        cases args with
        | nil => exact List.forall_mem_nil _
        | cons a args =>
          rw [List.forall_mem_cons] at hargs
          rw [testsAll, List.forall_mem_append]
          refine ⟨ih.1 hargs.1, ?_⟩
          split
          · exact ihs ih.2 args hargs.2
          · exact List.forall_mem_nil _
    · exact List.forall_mem_nil _

end Pattern

namespace Term

/-- The tests of the cases in turn, up to the first case that takes the value. -/
def testsOfCases (value : Term) : List (Pattern × Term) → List (Pattern × Term)
  | [] => []
  | (p, _) :: cases =>
    p.tests value ++ if (p.capture? value).isSome then [] else testsOfCases value cases

end Term

end CoreCalculus
