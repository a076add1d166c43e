/-
  CoreCalculus/Proofs/Fuel.lean
  =============================
  **Fuel only decides whether there is an answer.**

  `m ⊑ m'` (`Run.Le`): wherever `m` answers, `m'` answers the same.  The order
  passes through `bind`, so an engine that is monotone at its leaves is monotone
  as a whole.  A function of fuel *settles* on `a` when it answers `a` from some
  amount on.  It settles on at most one answer, and a monotone one settles on
  whatever it ever answers.
-/
import Mathlib.Order.Filter.AtTopBot.Basic
import CoreCalculus.Run

namespace CoreCalculus

open Filter

/-! ### Settling -/

/-- From some amount of fuel on, the answer is `a`. -/
def Settles {α : Type} (f : Nat → Option α) (a : α) : Prop := ∀ᶠ n in atTop, f n = some a

namespace Settles

variable {α : Type} {f g : Nat → Option α} {a b : α}

theorem of_forall (h : ∀ n, f n = some a) : Settles f a := Eventually.of_forall h

theorem unique (ha : Settles f a) (hb : Settles f b) : a = b := by
  obtain ⟨n, hna, hnb⟩ := (ha.and hb).exists
  exact Option.some.inj (hna.symm.trans hnb)

theorem congr (h : ∀ n, f n = g n) (hg : Settles g a) : Settles f a := by
  have hfg : f = g := funext h
  rwa [hfg]

/-- One unit of fuel more or less does not matter. -/
theorem of_succ (h : Settles (fun n => f (n + 1)) a) : Settles f a := by
  obtain ⟨n, hn⟩ := eventually_atTop.1 h
  refine eventually_atTop.2 ⟨n + 1, fun m hm => ?_⟩
  cases m with
  | zero => omega
  | succ m => exact hn m (by omega)

theorem exists_eq (h : Settles f a) : ∃ n, f n = some a := h.exists

/-- A function that keeps its answers settles on each of them. -/
theorem of_mono (hmono : ∀ n a, f n = some a → f (n + 1) = some a) {n : Nat}
    (hn : f n = some a) : Settles f a := by
  refine eventually_atTop.2 ⟨n, fun m hm => ?_⟩
  induction m, hm using Nat.le_induction with
  | base => exact hn
  | succ m _ ih => exact hmono m a ih

end Settles

namespace Run

variable {σ ε α β : Type}

/-! ### The order of approximation -/

/-- Wherever `m` answers, `m'` answers the same. -/
def Le (m m' : Run σ ε α) : Prop := ∀ s r, m s = some r → m' s = some r

theorem Le.refl (m : Run σ ε α) : m.Le m := fun _ _ h => h

theorem outOfFuel_le (m : Run σ ε α) : (outOfFuel : Run σ ε α).Le m := by
  intro s r h
  simp at h

theorem Le.bind {m m' : Run σ ε α} {f f' : α → Run σ ε β} (hm : m.Le m')
    (hf : ∀ a, (f a).Le (f' a)) : (m >>= f).Le (m' >>= f') := by
  rintro s ⟨r, s''⟩ h
  refine bind_eq_some_iff.2 ?_
  rcases bind_eq_some_iff.1 h with ⟨e, hs, rfl⟩ | ⟨a, s', hs, h⟩
  · exact .inl ⟨e, hm _ _ hs, rfl⟩
  · exact .inr ⟨a, s', hm _ _ hs, hf a s' _ h⟩

theorem read?_le {f f' : σ → Option α} (h : ∀ s a, f s = some a → f' s = some a) :
    (read? f : Run σ ε α).Le (read? f') := by
  intro s r hr
  obtain ⟨a, ha, rfl⟩ := Option.map_eq_some_iff.1 hr
  exact Option.map_eq_some_iff.2 ⟨a, h s a ha, rfl⟩

/-! ### Settling of a sequence -/

variable {m : Nat → Run σ ε α} {f : Nat → α → Run σ ε β} {s s' : σ}

theorem settles_bind {a : α} {r : Except ε β × σ}
    (hm : Settles (fun n => m n s) (.ok a, s')) (hf : Settles (fun n => f n a s') r) :
    Settles (fun n => (m n >>= f n) s) r := by
  filter_upwards [hm, hf] with n hmn hfn
  rw [bind_apply, hmn]
  exact hfn

theorem settles_bind_error {e : ε} (hm : Settles (fun n => m n s) (.error e, s')) :
    Settles (fun n => (m n >>= f n) s) (.error e, s') := by
  filter_upwards [hm] with n hmn
  rw [bind_apply, hmn]

end Run

end CoreCalculus
