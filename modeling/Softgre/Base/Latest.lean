-- SUMMARY: The latest element of a history that sets a value, as a history grows.
import Mathlib.Data.List.Basic

/-!
# Latest settings

A history is a list that grows at its end. An element sets a value, depending on
what came before it, or leaves it alone. `Latest` is the value that is in force:
that of the last element that sets one.
-/

namespace Base

variable {α β : Type} {P : List α → α → β → Prop}

/-- The element at `i` sets `b`. -/
def SetsAt (P : List α → α → β → Prop) (l : List α) (i : Nat) (b : β) : Prop :=
  ∃ x, l[i]? = some x ∧ P (l.take i) x b

/-- The last element that sets a value sets this one, or none does. -/
def Latest (P : List α → α → β → Prop) (l : List α) : Option β → Prop
  | some b => ∃ i, SetsAt P l i b ∧ ∀ j > i, ∀ b', ¬ SetsAt P l j b'
  | none => ∀ i b, ¬ SetsAt P l i b

theorem not_setsAt_of_length_le {l : List α} {i : Nat} (hi : l.length ≤ i) (b : β) :
    ¬ SetsAt P l i b := by
  rintro ⟨x, hx, -⟩
  rw [List.getElem?_eq_none hi] at hx
  cases hx

theorem setsAt_append_singleton {l : List α} {x : α} {i : Nat} {b : β} :
    SetsAt P (l ++ [x]) i b ↔ SetsAt P l i b ∨ (i = l.length ∧ P l x b) := by
  rcases Nat.lt_trichotomy i l.length with hi | rfl | hi
  · simp [SetsAt, List.getElem?_append_left hi, List.take_append_of_le_length (Nat.le_of_lt hi),
      Nat.ne_of_lt hi]
  · simp [SetsAt]
  · have hlength : (l ++ [x]).length ≤ i := by
      rw [List.length_append]
      exact hi
    refine iff_of_false (not_setsAt_of_length_le hlength b) ?_
    rintro (h | ⟨rfl, -⟩)
    · exact not_setsAt_of_length_le (Nat.le_of_lt hi) b h
    · exact Nat.lt_irrefl _ hi

namespace Latest

theorem nil : Latest P [] none := fun i b => not_setsAt_of_length_le (Nat.zero_le i) b

/-- The newest element sets a value. -/
theorem set {l : List α} {x : α} {b : β} (h : P l x b) : Latest P (l ++ [x]) (some b) := by
  refine ⟨l.length, setsAt_append_singleton.mpr (.inr ⟨rfl, h⟩), fun j hj b' => ?_⟩
  refine not_setsAt_of_length_le ?_ b'
  rw [List.length_append]
  exact hj

/-- The newest element leaves the value alone. -/
theorem skip {l : List α} {x : α} {r : Option β} (h : ∀ b, ¬ P l x b) (hl : Latest P l r) :
    Latest P (l ++ [x]) r := by
  have hiff : ∀ i b, SetsAt P (l ++ [x]) i b ↔ SetsAt P l i b := by
    intro i b
    rw [setsAt_append_singleton, or_iff_left]
    exact fun hx => h b hx.2
  cases r with
  | none => exact fun i b => (hiff i b).not.mpr (hl i b)
  | some b =>
    obtain ⟨i, hi, hlast⟩ := hl
    exact ⟨i, (hiff i b).mpr hi, fun j hj b' => (hiff j b').not.mpr (hlast j hj b')⟩

/-- If an element sets at most one value, so does a history. -/
theorem unique {l : List α} {r r' : Option β} (h : Latest P l r) (h' : Latest P l r')
    (hP : ∀ l x b b', P l x b → P l x b' → b = b') : r = r' := by
  cases r with
  | none =>
    cases r' with
    | none => rfl
    | some b' =>
      obtain ⟨i, hi, -⟩ := h'
      exact absurd hi (h i b')
  | some b =>
    obtain ⟨i, hi, hlast⟩ := h
    cases r' with
    | none => exact absurd hi (h' i b)
    | some b' =>
      obtain ⟨j, hj, hlast'⟩ := h'
      rcases Nat.lt_trichotomy i j with hij | rfl | hij
      · exact absurd hj (hlast j hij b')
      · obtain ⟨x, hx, hb⟩ := hi
        obtain ⟨x', hx', hb'⟩ := hj
        rw [hx] at hx'
        cases hx'
        rw [hP _ _ _ _ hb hb']
      · exact absurd hi (hlast' i hij b)

end Latest

end Base
