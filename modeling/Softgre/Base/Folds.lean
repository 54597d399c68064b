-- SUMMARY: The invariant rule for loops that may stop with a failure.
import Mathlib.Data.List.Basic

/-!
# Loops that may fail
-/

namespace Base

variable {α β : Type}

/-- What holds at the start and is kept by every round that goes through holds at the
    end, of everything the loop has gone over. -/
theorem foldlM_invariant {f : β → α → Option β} {P : List α → β → Prop} {b b' : β}
    (l : List α) (hstart : P [] b)
    (hstep : ∀ done a acc acc', P done acc → f acc a = some acc' → P (done ++ [a]) acc')
    (h : l.foldlM f b = some b') : P l b' := by
  suffices hgeneral : ∀ rest done acc, P done acc → rest.foldlM f acc = some b' →
      P (done ++ rest) b' from hgeneral l [] b hstart h
  intro rest
  induction rest with
  | nil =>
    intro done acc hacc hrest
    cases hrest
    rwa [List.append_nil]
  | cons a rest ih =>
    intro done acc hacc hrest
    obtain ⟨acc', hround, hrest⟩ := Option.bind_eq_some_iff.mp hrest
    have hnext := ih (done ++ [a]) acc' (hstep done a acc acc' hacc hround) hrest
    rwa [List.append_assoc, List.singleton_append] at hnext

end Base
