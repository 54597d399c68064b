-- SUMMARY: Resources kept in variables, against the history of how they were acquired and released.
import Mathlib.Logic.Function.Basic

/-!
# Held resources

A program keeps each of its resources in a variable of its own, which says whether
the resource is held. The history of acquisitions and releases tells the same; the
two agree as long as nothing is acquired twice or released without being held.
-/

namespace Base

variable {H : Type} [DecidableEq H]

inductive Use (H : Type) where
  | acquire (h : H)
  | release (h : H)
deriving DecidableEq

/-- Whether `h` is held after a history, newest first. There is no answer once it was
    acquired while it was held, or released while it was not. -/
def heldAfter (h : H) : List (Use H) → Option Bool
  | [] => some false
  | .acquire x :: older =>
    if x = h then (if heldAfter h older = some false then some true else none)
    else heldAfter h older
  | .release x :: older =>
    if x = h then (if heldAfter h older = some true then some false else none)
    else heldAfter h older

/-- The variables say what the history says. -/
def Accounts (held : H → Bool) (uses : List (Use H)) : Prop :=
  ∀ h, heldAfter h uses = some (held h)

namespace Accounts

variable {held : H → Bool} {uses : List (Use H)} {x : H}

theorem nil : Accounts (fun _ : H => false) [] := fun _ => rfl

theorem acquire (h : Accounts held uses) (hfree : held x = false) :
    Accounts (Function.update held x true) (.acquire x :: uses) := by
  intro y
  rw [heldAfter, Function.update_apply]
  by_cases hxy : x = y
  · subst hxy
    rw [if_pos rfl, if_pos rfl, h x, hfree, if_pos rfl]
  · rw [if_neg hxy, if_neg (Ne.symm hxy), h y]

theorem release (h : Accounts held uses) (hheld : held x = true) :
    Accounts (Function.update held x false) (.release x :: uses) := by
  intro y
  rw [heldAfter, Function.update_apply]
  by_cases hxy : x = y
  · subst hxy
    rw [if_pos rfl, if_pos rfl, h x, hheld, if_pos rfl]
  · rw [if_neg hxy, if_neg (Ne.symm hxy), h y]

end Accounts

end Base
