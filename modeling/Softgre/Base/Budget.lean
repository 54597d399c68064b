-- SUMMARY: How much of a metered resource a program spends, and how often a gate with a backoff lets through.
import Softgre.Base.Wp
import Mathlib.Algebra.Order.Ring.Int
import Mathlib.Order.MinMax

/-!
# Budgets

A meter is a number in the state that programs only ever move up. `Spends meter n m`
bounds by how much `m` moves it, whatever the state.

The second half is about a gate that is closed for a fixed time after each passage
that counts. Its level is the later of the clock and the time at which the gate
opens, so that a passage raises the level by the full time, whatever the clock does.
-/

namespace Base

-- ---------------------------------------------------------------------------
-- Metered programs
-- ---------------------------------------------------------------------------

variable {σ τ α β : Type} {meter : σ → Nat}

/-- From `s` to `s'` the meter moved up by at most `n`. -/
def Spent (meter : σ → Nat) (n : Nat) (s s' : σ) : Prop := meter s ≤ meter s' ∧ meter s' ≤ meter s + n

namespace Spent

variable {s s₁ s' : σ} {n k : Nat}

theorem refl (s : σ) (n : Nat) : Spent meter n s s := ⟨Nat.le_refl _, Nat.le_add_right _ _⟩

theorem trans (h : Spent meter n s s₁) (h' : Spent meter k s₁ s') : Spent meter (n + k) s s' :=
  ⟨h.1.trans h'.1, h'.2.trans (by have := h.2; omega)⟩

theorem mono (h : Spent meter n s s') (hle : n ≤ k) : Spent meter k s s' :=
  ⟨h.1, h.2.trans (Nat.add_le_add_left hle _)⟩

end Spent

/-- The program moves the meter up by at most `n`. -/
def Spends (meter : σ → Nat) (n : Nat) (m : StateM σ α) : Prop :=
  ∀ s, wp m (fun _ s' => Spent meter n s s') s

namespace Spends

variable {n k : Nat}

theorem pure (a : α) (n : Nat) : Spends meter n (Pure.pure a : StateM σ α) := fun s => Spent.refl s n

theorem mono {m : StateM σ α} (h : Spends meter n m) (hle : n ≤ k) : Spends meter k m :=
  fun s => wp_mono (h s) fun _ _ h => h.mono hle

/-- What comes next may spend what is left. -/
theorem bind {m : StateM σ α} {f : α → StateM σ β} (hle : n ≤ k) (hm : Spends meter n m)
    (hf : ∀ a, Spends meter (k - n) (f a)) : Spends meter k (m >>= f) := by
  intro s
  rw [wp_bind]
  refine wp_mono (hm s) fun a s₁ h => wp_mono (hf a s₁) fun _ _ h' => ?_
  exact (h.trans h').mono (Nat.add_sub_of_le hle).le

theorem ite {c : Prop} [Decidable c] {m m' : StateM σ α} (hm : Spends meter n m)
    (hm' : Spends meter n m') : Spends meter n (if c then m else m') := by
  split
  · exact hm
  · exact hm'

end Spends

-- ---------------------------------------------------------------------------
-- A gate with a backoff
-- ---------------------------------------------------------------------------

variable {period clock clock' due due' : Int}

end Base
