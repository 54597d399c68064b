-- SUMMARY: Recognisers that may fault: rules that walk through their tests one by one.
import Mathlib.Logic.Basic

/-!
# Recognisers

A recogniser runs in `Except ε (Option α)`: an error is a fault of the program,
`none` is a rejected input. `Decides x P` says that `x` runs without a fault and
returns exactly the value that satisfies `P`. The rules follow the shape of the
program, so that every test leaves the obligation that a rejected input has no
value, and the end of the program leaves the obligation that the returned value
is the only one.
-/

namespace Base

variable {ε α β : Type} {P Q : α → Prop}

theorem bind_eq_ok_iff {x : Except ε α} {f : α → Except ε β} {b : β} :
    (x >>= f) = .ok b ↔ ∃ a, x = .ok a ∧ f a = .ok b := by
  cases x with
  | error e =>
    refine ⟨fun h => (by cases h), ?_⟩
    rintro ⟨_, ha, -⟩
    cases ha
  | ok a =>
    refine ⟨fun h => ⟨a, rfl, h⟩, ?_⟩
    rintro ⟨_, ha, h⟩
    cases ha
    exact h

def Decides (x : Except ε (Option α)) (P : α → Prop) : Prop :=
  ∃ r, x = .ok r ∧ ∀ a, r = some a ↔ P a

namespace Decides

theorem reject (h : ∀ a, ¬ P a) : Decides (.ok none : Except ε (Option α)) P :=
  ⟨none, rfl, fun a => by simp [h a]⟩

theorem accept {a : α} (h : ∀ b, P b ↔ b = a) :
    Decides (.ok (some a) : Except ε (Option α)) P :=
  ⟨some a, rfl, fun b => by rw [h b, Option.some.injEq, eq_comm]⟩

/-- A test that rejects. -/
theorem guard {c : Prop} [Decidable c] {x : Except ε (Option α)} (hreject : c → ∀ a, ¬ P a)
    (h : ¬ c → Decides x P) : Decides (if c then pure none else x) P := by
  by_cases hc : c
  · rw [if_pos hc]
    exact reject (hreject hc)
  · rw [if_neg hc]
    exact h hc

/-- A step that does not fault. -/
theorem bind {x : Except ε β} {f : β → Except ε (Option α)} {b : β} (hx : x = .ok b)
    (h : Decides (f b) P) : Decides (x >>= f) P := by
  rw [hx]
  exact h

theorem congr {x : Except ε (Option α)} (h : Decides x P) (hPQ : ∀ a, P a ↔ Q a) :
    Decides x Q := by
  obtain ⟨r, hx, hr⟩ := h
  exact ⟨r, hx, fun a => (hr a).trans (hPQ a)⟩

end Decides

end Base
