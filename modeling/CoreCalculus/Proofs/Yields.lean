/-
  CoreCalculus/Proofs/Yields.lean
  ===============================
  **What a reduction yields**, apart from fuel and from the number of contractions.

  A family of runs, one for each amount of fuel, is *regular* when more fuel only adds
  answers, and when the counter is only ever counted up: what it starts from plays no
  part in the answer.  Sequences of regular families are regular, so the reducer is.  The
  recursion is closed on fuel; cut off at a bound, it is closed on the bound too, and that
  is what the induction is on (`regular_upTo`).

  A regular family yields at most one answer, and a sequence yields what its parts do
  (`yields_bind_iff`).
-/
import CoreCalculus.Code.Reduction
import CoreCalculus.Proofs.Fuel

namespace CoreCalculus

/-! ### Regular families -/

/-- What the counter starts from is added to what it ends with, and has no other part. -/
def Counts {α : Type} (m : Reduction α) : Prop :=
  ∀ k, m k = (m 0).map fun e => (e.1, e.2 + k)

/-- More fuel only adds answers, and the counter only counts. -/
structure Regular {α : Type} (m : Nat → Reduction α) : Prop where
  le : ∀ n, (m n).Le (m (n + 1))
  counts : ∀ n, Counts (m n)

namespace Regular

variable {α β : Type} {m : Nat → Reduction α} {f : Nat → α → Reduction β}

theorem pure (a : α) : Regular fun _ => (Pure.pure a : Reduction α) :=
  ⟨fun _ => .refl _, fun _ k => by simp⟩

theorem fail (e : ReduceError) : Regular fun _ => (Run.fail e : Reduction α) :=
  ⟨fun _ => .refl _, fun _ k => by simp⟩

theorem ofExcept (r : Except ReduceError α) : Regular fun _ => (Run.ofExcept r : Reduction α) := by
  cases r with
  | ok a => exact pure a
  | error e => exact fail e

theorem outOfFuel : Regular fun _ => (Run.outOfFuel : Reduction α) :=
  ⟨fun _ => .refl _, fun _ _ => rfl⟩

theorem count : Regular fun _ => (Run.update fun steps => ((), steps + 1) : Reduction Unit) :=
  ⟨fun _ => .refl _, fun _ k => by simp [Nat.add_comm]⟩

theorem bind (hm : Regular m) (hf : ∀ a, Regular fun n => f n a) :
    Regular fun n => m n >>= f n := by
  refine ⟨fun n => (hm.le n).bind fun a => (hf a).le n, fun n k => ?_⟩
  rw [Run.bind_apply, Run.bind_apply, hm.counts n k]
  rcases m n 0 with _ | ⟨_ | a, s⟩
  · rfl
  · rfl
  · simp only [Option.map_some]
    rw [(hf a).counts n (s + k), (hf a).counts n s, Option.map_map]
    simp only [Function.comp_def, Nat.add_assoc]

/-- One unit of fuel is spent first. -/
theorem delay (hm : Regular m) : Regular fun
    | 0 => Run.outOfFuel
    | n + 1 => m n := by
  refine ⟨fun n => ?_, fun n => ?_⟩
  · cases n with
    | zero => exact Run.outOfFuel_le _
    | succ n => exact hm.le n
  · cases n with
    | zero => exact outOfFuel.counts 0
    | succ n => exact hm.counts n

theorem le_of_le (hm : Regular m) {n n' : Nat} (h : n ≤ n') : (m n).Le (m n') := by
  induction n', h using Nat.le_induction with
  | base => exact .refl _
  | succ n' _ ih => exact fun s r hr => hm.le n' s r (ih s r hr)

end Regular

/-! ### The reducer is regular -/

/-- What head reduction does after a step: it goes on, or the spine is the answer. -/
def Step.proceed (headNormal : Code → Reduction Code) : Step → Reduction Code
  | .contracted next => do
    Run.update fun steps => ((), steps + 1)
    headNormal next
  | .stuck rebuilt => pure rebuilt

namespace Code

section

variable {H N : Nat → Code → Reduction Code}

theorem regular_applyPrim (hH : ∀ c, Regular fun n => H n c) (hN : ∀ c, Regular fun n => N n c)
    (op : Primitive) (args : List Code) : Regular fun n => applyPrim (H n) (N n) op args := by
  cases op with
  | cond =>
    rcases args with _ | ⟨test, _ | ⟨yes, _ | ⟨no, rest⟩⟩⟩
    · exact .pure _
    · exact .pure _
    · exact .pure _
    · refine .bind (hH test) fun test => ?_
      split <;> exact .pure _
  | not =>
    rcases args with _ | ⟨operand, rest⟩
    · exact .pure _
    · refine .bind (hH operand) fun operand => ?_
      split <;> exact .pure _
  | binary op =>
    rcases args with _ | ⟨left, _ | ⟨right, rest⟩⟩
    · exact .pure _
    · exact .pure _
    · have hforce : ∀ c, Regular fun n => (if op = .eq then N n else H n) c := by
        intro c
        split
        · exact hN c
        · exact hH c
      refine .bind (hforce left) fun left => .bind (hforce right) fun right =>
        .bind (.ofExcept _) fun l => ?_
      cases l <;> exact .pure _

theorem regular_matchShapes_of {subs : List Shape}
    (h : ∀ shape ∈ subs, ∀ c, Regular fun n => matchShape (H n) shape c) (args : List Code) :
    Regular fun n => matchShapes (H n) subs args := by
  induction subs generalizing args with
  | nil => exact .pure _
  | cons sub subs ih =>
    rw [List.forall_mem_cons] at h
    cases args with
    | nil => exact .pure _
    | cons arg args =>
      refine .bind (h.1 arg) fun r => ?_
      cases r with
      | matched bindings =>
        refine .bind (ih h.2 args) fun r => ?_
        cases r <;> exact .pure _
      | failed => exact .pure _
      | stuck => exact .pure _

theorem regular_matchShape (hH : ∀ c, Regular fun n => H n c) (shape : Shape) (c : Code) :
    Regular fun n => matchShape (H n) shape c := by
  induction shape using Shape.induct generalizing c with
  | bind => exact .pure _
  | lit l =>
    refine .bind (hH c) fun c => ?_
    dsimp only
    split <;> exact .pure _
  | ctor name subs ih =>
    refine .bind (hH c) fun c => ?_
    dsimp only
    split
    · split
      · exact regular_matchShapes_of ih _
      · exact .pure _
    · exact .pure _
    · exact .pure _

theorem regular_matchShapes (hH : ∀ c, Regular fun n => H n c) (subs : List Shape)
    (args : List Code) : Regular fun n => matchShapes (H n) subs args :=
  regular_matchShapes_of (fun shape _ c => regular_matchShape hH shape c) args

theorem regular_selectCase (hH : ∀ c, Regular fun n => H n c) (subject : Code)
    (shapes : List Shape) (functions : List Code) :
    Regular fun n => selectCase (H n) subject shapes functions := by
  induction shapes generalizing functions with
  | nil => exact .fail _
  | cons shape shapes ih =>
    cases functions with
    | nil => exact .fail _
    | cons function functions =>
      refine .bind (regular_matchShape hH shape subject) fun r => ?_
      cases r with
      | matched bindings => exact .pure _
      | failed => exact ih functions
      | stuck => exact .pure _

theorem regular_applyCase (hH : ∀ c, Regular fun n => H n c) (shapes : List Shape)
    (args : List Code) : Regular fun n => applyCase (H n) shapes args := by
  cases args with
  | nil => exact .pure _
  | cons subject args =>
    simp only [applyCase]
    split
    · exact .pure _
    · refine .bind (hH subject) fun subject =>
        .bind (regular_selectCase hH subject shapes args) fun r => ?_
      cases r <;> exact .pure _

theorem regular_step (hH : ∀ c, Regular fun n => H n c) (hN : ∀ c, Regular fun n => N n c)
    (head : Code) (args : List Code) : Regular fun n => step (H n) (N n) head args := by
  unfold step
  split
  · exact .pure _
  · exact regular_applyPrim hH hN _ args
  · exact regular_applyCase hH _ args
  · exact .pure _

theorem regular_proceed (hH : ∀ c, Regular fun n => H n c) (s : Step) :
    Regular fun n => s.proceed (H n) := by
  cases s with
  | contracted next => exact .bind .count fun _ => hH next
  | stuck rebuilt => exact .pure rebuilt

theorem regular_normalizeArgs (hN : ∀ c, Regular fun n => N n c) (head : Code)
    (args : List Code) : Regular fun n => normalizeArgs (N n) head args := by
  induction args generalizing head with
  | nil => exact .pure _
  | cons arg args ih => exact .bind (hN arg) fun arg => ih _

end

/-- The reductions, with no more fuel than a bound. -/
theorem regular_upTo (bound : Nat) : (∀ c, Regular fun n => headNormal (min n bound) c) ∧
    ∀ c, Regular fun n => normalize (min n bound) c := by
  induction bound with
  | zero =>
    simp only [Nat.min_zero]
    exact ⟨fun _ => .outOfFuel, fun _ => .outOfFuel⟩
  | succ bound ih =>
    obtain ⟨hH, hN⟩ := ih
    refine ⟨fun c => ?_, fun c => ?_⟩
    · have hbody := Regular.bind (regular_step hH hN c.spine.1 c.spine.2) (regular_proceed hH)
      convert hbody.delay using 2 with n
      cases n with
      | zero => rfl
      | succ n => rw [Nat.succ_min_succ]; rfl
    · have hbody := Regular.bind (hH c)
        (f := fun n w => normalizeArgs (normalize (min n bound)) w.spine.1 w.spine.2)
        fun w => regular_normalizeArgs hN _ _
      convert hbody.delay using 2 with n
      cases n with
      | zero => rfl
      | succ n => rw [Nat.succ_min_succ]; rfl

theorem regular_headNormal (c : Code) : Regular fun n => headNormal n c := by
  refine ⟨fun n => ?_, fun n => ?_⟩
  · simpa using ((regular_upTo (n + 1)).1 c).le n
  · simpa using ((regular_upTo n).1 c).counts n

theorem regular_normalize (c : Code) : Regular fun n => normalize n c := by
  refine ⟨fun n => ?_, fun n => ?_⟩
  · simpa using ((regular_upTo (n + 1)).2 c).le n
  · simpa using ((regular_upTo n).2 c).counts n

end Code

/-! ### Answers -/

/-- With enough fuel the answer is `r`, after some number of contractions. -/
def Yields {α : Type} (m : Nat → Reduction α) (r : Except ReduceError α) : Prop :=
  ∃ n k, m n 0 = some (r, k)

section

variable {α β : Type} {m : Nat → Reduction α} {f : Nat → α → Reduction β}

theorem Regular.yields_unique (hm : Regular m) {r r' : Except ReduceError α} (h : Yields m r)
    (h' : Yields m r') : r = r' := by
  obtain ⟨n, k, hn⟩ := h
  obtain ⟨n', k', hn'⟩ := h'
  have hmax := hm.le_of_le (Nat.le_max_left n n') _ _ hn
  rw [hm.le_of_le (Nat.le_max_right n n') _ _ hn'] at hmax
  cases hmax
  rfl

/-- A run that starts from any count answers what a run from zero does. -/
theorem Regular.yields_of_run (hm : Regular m) {r : Except ReduceError α} {n k k' : Nat}
    (h : m n k = some (r, k')) : Yields m r := by
  rw [hm.counts n k, Option.map_eq_some_iff] at h
  obtain ⟨⟨r, k₀⟩, h, heq⟩ := h
  cases heq
  exact ⟨n, k₀, h⟩

theorem Regular.settles (hm : Regular m) {r : Except ReduceError α} (h : Yields m r) (k : Nat) :
    ∃ k', Settles (fun n => m n k) (r, k') := by
  obtain ⟨n, k₀, h⟩ := h
  refine ⟨k₀ + k, Settles.of_mono (n := n) (fun n e he => hm.le n k e he) ?_⟩
  rw [hm.counts n k, h]
  rfl

theorem yields_pure_iff {a : α} {r : Except ReduceError α} :
    Yields (fun _ => (pure a : Reduction α)) r ↔ r = .ok a := by
  constructor
  · rintro ⟨n, k, h⟩
    cases h
    rfl
  · rintro rfl
    exact ⟨0, 0, rfl⟩

theorem yields_pure_ok_iff {a b : α} :
    Yields (fun _ => (pure a : Reduction α)) (.ok b) ↔ b = a := by
  rw [yields_pure_iff, Except.ok.injEq]

theorem yields_ofExcept_iff {a r : Except ReduceError α} :
    Yields (fun _ => (Run.ofExcept a : Reduction α)) r ↔ r = a := by
  constructor
  · rintro ⟨n, k, h⟩
    cases a <;> cases h <;> rfl
  · rintro rfl
    cases r <;> exact ⟨0, 0, rfl⟩

theorem yields_bind_iff (hm : Regular m) (hf : ∀ a, Regular fun n => f n a)
    {r : Except ReduceError β} : Yields (fun n => m n >>= f n) r ↔
      (∃ e, Yields m (.error e) ∧ r = .error e) ∨
        ∃ a, Yields m (.ok a) ∧ Yields (fun n => f n a) r := by
  constructor
  · rintro ⟨n, k, h⟩
    change (m n >>= f n) 0 = _ at h
    rcases Run.bind_eq_some_iff.1 h with ⟨e, hn, rfl⟩ | ⟨a, s, hn, hfa⟩
    · exact .inl ⟨e, ⟨n, _, hn⟩, rfl⟩
    · rw [(hf a).counts n s, Option.map_eq_some_iff] at hfa
      obtain ⟨⟨r', k'⟩, hrun, heq⟩ := hfa
      cases heq
      exact .inr ⟨a, ⟨n, s, hn⟩, n, k', hrun⟩
  · rintro (⟨e, ⟨n, k, h⟩, rfl⟩ | ⟨a, ⟨n, s, hn⟩, n', k, hn'⟩)
    · refine ⟨n, k, ?_⟩
      change (m n >>= f n) 0 = _
      rw [Run.bind_apply, h]
    · have hmax := hm.le_of_le (Nat.le_max_left n n') _ _ hn
      have hmax' := (hf a).le_of_le (Nat.le_max_right n n') _ _ hn'
      refine ⟨max n n', k + s, ?_⟩
      change (m (max n n') >>= f (max n n')) 0 = _
      rw [Run.bind_apply, hmax]
      change f (max n n') a s = _
      rw [(hf a).counts _ s, hmax']
      rfl

theorem yields_bind_ok_iff (hm : Regular m) (hf : ∀ a, Regular fun n => f n a) {b : β} :
    Yields (fun n => m n >>= f n) (.ok b) ↔
      ∃ a, Yields m (.ok a) ∧ Yields (fun n => f n a) (.ok b) := by
  rw [yields_bind_iff hm hf]
  simp

/-- A unit of fuel that is spent first makes no difference. -/
theorem yields_succ_iff (h : ∀ s, m 0 s = none) {r : Except ReduceError α} :
    Yields (fun n => m (n + 1)) r ↔ Yields m r := by
  constructor
  · rintro ⟨n, k, hn⟩
    exact ⟨n + 1, k, hn⟩
  · rintro ⟨n, k, hn⟩
    cases n with
    | zero =>
      rw [h] at hn
      cases hn
    | succ n => exact ⟨n, k, hn⟩

end

end CoreCalculus
