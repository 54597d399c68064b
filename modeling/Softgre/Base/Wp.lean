-- SUMMARY: Weakest preconditions for deterministic state-passing programs.
import Mathlib.Logic.Basic

/-!
# Weakest preconditions for `StateM`

`wp m Q s` says that running `m` from `s` ends in a result and a state that
satisfy `Q`. A `StateM` program is a total function, so the rules below are
equations: a program is taken apart at its binds, and the specification of each
part is applied with `wp_mono`.
-/

namespace Base

variable {σ τ α β : Type}

def wp (m : StateM σ α) (Q : α → σ → Prop) (s : σ) : Prop := Q (m.run s).1 (m.run s).2

theorem wp_mono {m : StateM σ α} {P Q : α → σ → Prop} {s : σ} (h : wp m P s)
    (hPQ : ∀ a s', P a s' → Q a s') : wp m Q s := hPQ _ _ h

theorem wp_and {m : StateM σ α} {P Q : α → σ → Prop} {s : σ} (hP : wp m P s) (hQ : wp m Q s) :
    wp m (fun a s' => P a s' ∧ Q a s') s := ⟨hP, hQ⟩

@[simp] theorem wp_pure {a : α} {Q : α → σ → Prop} {s : σ} :
    wp (pure a : StateM σ α) Q s = Q a s := rfl

@[simp] theorem wp_bind {m : StateM σ α} {f : α → StateM σ β} {Q : β → σ → Prop} {s : σ} :
    wp (m >>= f) Q s = wp m (fun a s' => wp (f a) Q s') s := rfl

@[simp] theorem wp_get {Q : σ → σ → Prop} {s : σ} : wp (get : StateM σ σ) Q s = Q s s := rfl

@[simp] theorem wp_modify {f : σ → σ} {Q : PUnit → σ → Prop} {s : σ} :
    wp (modify f : StateM σ PUnit) Q s = Q ⟨⟩ (f s) := rfl

@[simp] theorem wp_discard {m : StateM σ α} {Q : Unit → σ → Prop} {s : σ} :
    wp (discard m) Q s = wp m (fun _ s' => Q () s') s := rfl

theorem wp_ite {c : Prop} [Decidable c] {m n : StateM σ α} {Q : α → σ → Prop} {s : σ}
    (ht : c → wp m Q s) (he : ¬ c → wp n Q s) : wp (if c then m else n) Q s := by
  split
  · next h => exact ht h
  · next h => exact he h

/-- Run a program on a part of the state. -/
def zoom (view : σ → τ) (put : τ → σ → σ) (m : StateM τ α) : StateM σ α := fun s =>
  ((m.run (view s)).1, put (m.run (view s)).2 s)

@[simp] theorem wp_zoom {view : σ → τ} {put : τ → σ → σ} {m : StateM τ α} {Q : α → σ → Prop}
    {s : σ} : wp (zoom view put m) Q s = wp m (fun a t => Q a (put t s)) (view s) := rfl

/-- The program leaves the state as it is. -/
def ReadOnly (m : StateM σ α) : Prop := ∀ s, wp m (fun _ s' => s' = s) s

theorem ReadOnly.pure (a : α) : ReadOnly (Pure.pure a : StateM σ α) := fun _ => rfl

theorem ReadOnly.get : ReadOnly (MonadState.get : StateM σ σ) := fun _ => rfl

theorem ReadOnly.bind {m : StateM σ α} {f : α → StateM σ β} (hm : ReadOnly m)
    (hf : ∀ a, ReadOnly (f a)) : ReadOnly (m >>= f) := by
  intro s
  rw [wp_bind]
  refine wp_mono (hm s) fun a s' hs' => ?_
  rw [hs']
  exact hf a s

/-- The program keeps an invariant of the state. -/
def Keeps (I : σ → Prop) (m : StateM σ α) : Prop := ∀ s, I s → wp m (fun _ s' => I s') s

namespace Keeps

variable {I : σ → Prop}

theorem pure (a : α) : Keeps I (Pure.pure a : StateM σ α) := fun _ hs => hs

theorem get : Keeps I (MonadState.get : StateM σ σ) := fun _ hs => hs

theorem modifies {f : σ → σ} (hf : ∀ s, I s → I (f s)) :
    Keeps I (modify f : StateM σ PUnit) := hf

theorem bind {m : StateM σ α} {f : α → StateM σ β} (hm : Keeps I m) (hf : ∀ a, Keeps I (f a)) :
    Keeps I (m >>= f) := by
  intro s hs
  rw [wp_bind]
  exact wp_mono (hm s hs) fun a s' hs' => hf a s' hs'

end Keeps

end Base
