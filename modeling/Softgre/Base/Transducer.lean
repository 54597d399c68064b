-- SUMMARY: Machines that answer each input: runs, and equal answers from a simulation.
import Mathlib.Init

/-!
# Machines with answers

A machine is a transition function that returns an answer next to the new
state. `answers` is what an observer sees of a run. Two machines related by a
simulation show the same answers to every sequence of inputs.
-/

namespace Base

variable {σ τ I O : Type}

def answers (step : σ → I → σ × O) : σ → List I → List O
  | _, [] => []
  | s, i :: rest => (step s i).2 :: answers step (step s i).1 rest

/-- `R` relates states that answer alike and step to related states. -/
structure Simulates (f : σ → I → σ × O) (g : τ → I → τ × O) (R : σ → τ → Prop) : Prop where
  step : ∀ {s t}, R s t → ∀ i, R (f s i).1 (g t i).1
  answer : ∀ {s t}, R s t → ∀ i, (f s i).2 = (g t i).2

theorem Simulates.answers_eq {f : σ → I → σ × O} {g : τ → I → τ × O} {R : σ → τ → Prop}
    (h : Simulates f g R) {s : σ} {t : τ} (hst : R s t) (inputs : List I) :
    answers f s inputs = answers g t inputs := by
  induction inputs generalizing s t with
  | nil => rfl
  | cons i rest ih => rw [answers, answers, h.answer hst i, ih (h.step hst i)]

end Base
