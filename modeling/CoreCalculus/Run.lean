/-
  CoreCalculus/Run.lean
  =====================
  **Runs**: computations that may need more fuel than they were given, may fail,
  and carry a state that outlives a failure.

  Type checking, evaluation and reduction are all runs.  `none` means that the
  fuel ran out; an error comes with the state at the point of failure, because a
  session goes on from there.  Fuel bounds the depth of the recursion only, so it
  never changes an answer, it only decides whether there is one.
-/

namespace CoreCalculus

/-- A run over a state `σ` that fails with an `ε` or yields an `α`. -/
def Run (σ ε α : Type) := σ → Option (Except ε α × σ)

namespace Run

variable {σ ε α β : Type}

@[always_inline, inline]
protected def pure (a : α) : Run σ ε α := fun s => some (.ok a, s)

/-- Go on after success, from the state that was reached. -/
@[always_inline, inline]
protected def bind (m : Run σ ε α) (f : α → Run σ ε β) : Run σ ε β := fun s =>
  match m s with
  | none => none
  | some (.error e, s) => some (.error e, s)
  | some (.ok a, s) => f a s

@[always_inline]
instance : Monad (Run σ ε) where
  pure := Run.pure
  bind := Run.bind

def outOfFuel : Run σ ε α := fun _ => none

@[always_inline, inline]
def fail (e : ε) : Run σ ε α := fun s => some (.error e, s)

/-- Compute a value and the next state from the state. -/
@[always_inline, inline]
def update (f : σ → α × σ) : Run σ ε α := fun s => some (.ok (f s).1, (f s).2)

/-- Read off the state something that fuel may not suffice for. -/
@[always_inline, inline]
def read? (f : σ → Option α) : Run σ ε α := fun s => (f s).map fun a => (.ok a, s)

def ofExcept : Except ε α → Run σ ε α
  | .ok a => Run.pure a
  | .error e => fail e

/-! ### What each operation answers -/

@[simp] theorem pure_apply (a : α) (s : σ) : (pure a : Run σ ε α) s = some (.ok a, s) := rfl

@[simp] theorem outOfFuel_apply (s : σ) : (outOfFuel : Run σ ε α) s = none := rfl

@[simp] theorem fail_apply (e : ε) (s : σ) : (fail e : Run σ ε α) s = some (.error e, s) := rfl

@[simp] theorem update_apply (f : σ → α × σ) (s : σ) :
    (update f : Run σ ε α) s = some (.ok (f s).1, (f s).2) := rfl

theorem bind_apply (m : Run σ ε α) (f : α → Run σ ε β) (s : σ) :
    (m >>= f) s = match m s with
      | none => none
      | some (.error e, s) => some (.error e, s)
      | some (.ok a, s) => f a s := rfl

theorem pure_bind (a : α) (f : α → Run σ ε β) : pure a >>= f = f a := rfl

theorem bind_assoc {γ : Type} (m : Run σ ε α) (f : α → Run σ ε β) (g : β → Run σ ε γ) :
    m >>= f >>= g = m >>= fun a => f a >>= g := by
  funext s
  simp only [bind_apply]
  rcases m s with _ | ⟨_ | a, s'⟩ <;> rfl

theorem bind_eq_ok_iff {m : Run σ ε α} {f : α → Run σ ε β} {s s'' : σ} {b : β} :
    (m >>= f) s = some (.ok b, s'') ↔
      ∃ a s', m s = some (.ok a, s') ∧ f a s' = some (.ok b, s'') := by
  rw [bind_apply]
  rcases m s with _ | ⟨_ | a, s'⟩
  · simp
  · simp
  · exact ⟨fun h => ⟨a, s', rfl, h⟩, fun ⟨_, _, h, h'⟩ => by cases h; exact h'⟩

theorem bind_eq_error_iff {m : Run σ ε α} {f : α → Run σ ε β} {s s'' : σ} {e : ε} :
    (m >>= f) s = some (.error e, s'') ↔
      m s = some (.error e, s'') ∨
        ∃ a s', m s = some (.ok a, s') ∧ f a s' = some (.error e, s'') := by
  rw [bind_apply]
  rcases m s with _ | ⟨_ | a, s'⟩
  · simp
  · simp
  · exact ⟨fun h => .inr ⟨a, s', rfl, h⟩, fun
      | .inl h => by simp at h
      | .inr ⟨_, _, h, h'⟩ => by cases h; exact h'⟩

theorem bind_eq_some_iff {m : Run σ ε α} {f : α → Run σ ε β} {s s'' : σ} {r : Except ε β} :
    (m >>= f) s = some (r, s'') ↔
      (∃ e, m s = some (.error e, s'') ∧ r = .error e) ∨
        ∃ a s', m s = some (.ok a, s') ∧ f a s' = some (r, s'') := by
  cases r with
  | error e =>
    rw [bind_eq_error_iff]
    refine or_congr_left ⟨fun h => ⟨e, h, rfl⟩, fun ⟨_, h, heq⟩ => ?_⟩
    cases heq
    exact h
  | ok b =>
    rw [bind_eq_ok_iff]
    exact ⟨.inr, fun
      | .inl ⟨_, _, h⟩ => by cases h
      | .inr h => h⟩

theorem bind_eq_none_iff {m : Run σ ε α} {f : α → Run σ ε β} {s : σ} :
    (m >>= f) s = none ↔
      m s = none ∨ ∃ a s', m s = some (.ok a, s') ∧ f a s' = none := by
  rw [bind_apply]
  rcases m s with _ | ⟨_ | a, s'⟩
  · simp
  · simp
  · exact ⟨fun h => .inr ⟨a, s', rfl, h⟩, fun
      | .inl h => by simp at h
      | .inr ⟨_, _, h, h'⟩ => by cases h; exact h'⟩

end Run

end CoreCalculus
