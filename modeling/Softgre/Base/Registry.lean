-- SUMMARY: Items that go to whoever claims them first, and why one claimant cannot influence the others.
import Mathlib.Data.Finset.Card
import Mathlib.Logic.Function.Basic

/-!
# First come, first served

A registry gives every item to the first one who claims it, up to a limit for each
holder. Whoever claims only items that nobody else claims leaves the others as they
are.
-/

namespace Base

/-- The items of everyone who has made a claim. -/
abbrev Registry (R M : Type) := R → Option (Finset M)

namespace Registry

variable {R M : Type} [DecidableEq R] [DecidableEq M]

def Held (reg : Registry R M) (m : M) : Prop := ∃ r items, reg r = some items ∧ m ∈ items

open Classical in
/-- The claim of `r` to `m`. It makes `r` a holder even if the limit is reached. -/
noncomputable def claim (limit : Nat) (reg : Registry R M) (c : R × M) : Registry R M :=
  if reg.Held c.2 then reg
  else
    Function.update reg c.1 (some
      (if ((reg c.1).getD ∅).card < limit then insert c.2 ((reg c.1).getD ∅) else (reg c.1).getD ∅))

variable {limit : Nat} {reg reg' : Registry R M} {r A : R} {m : M}

theorem claim_of_held (h : reg.Held m) : reg.claim limit (r, m) = reg := if_pos h

theorem claim_of_not_held (h : ¬ reg.Held m) : reg.claim limit (r, m) =
    Function.update reg r (some
      (if ((reg r).getD ∅).card < limit then insert m ((reg r).getD ∅) else (reg r).getD ∅)) :=
  if_neg h

theorem claim_of_ne {B : R} (hB : B ≠ r) : reg.claim limit (r, m) B = reg B := by
  rw [claim]
  split
  · rfl
  · exact Function.update_of_ne hB _ _

/-- Becoming a holder first makes no difference to the claim. -/
theorem claim_update (hr : reg r = none) (hm : ¬ reg.Held m) :
    Registry.claim limit (Function.update reg r (some ∅)) (r, m) = reg.claim limit (r, m) := by
  have hm' : ¬ Registry.Held (Function.update reg r (some ∅)) m := by
    rintro ⟨B, items, hB, hmem⟩
    by_cases hBr : B = r
    · rw [hBr, Function.update_self] at hB
      cases hB
      exact Finset.notMem_empty m hmem
    · rw [Function.update_of_ne hBr] at hB
      exact hm ⟨B, items, hB, hmem⟩
  rw [claim_of_not_held hm, claim_of_not_held hm', Function.update_self, Function.update_idem, hr]
  rfl

theorem mem_of_claim {items : Finset M} {m' : M} (h : reg.claim limit (r, m) r = some items)
    (hm' : m' ∈ items) : m' = m ∨ ∃ items, reg r = some items ∧ m' ∈ items := by
  have hold : m' ∈ (reg r).getD ∅ → ∃ items, reg r = some items ∧ m' ∈ items := by
    intro hmem
    cases hreg : reg r with
    | none =>
      rw [hreg] at hmem
      exact absurd hmem (Finset.notMem_empty m')
    | some old =>
      rw [hreg] at hmem
      exact ⟨old, rfl, hmem⟩
  by_cases hheld : reg.Held m
  · rw [claim_of_held hheld] at h
    exact .inr ⟨items, h, hm'⟩
  · rw [claim_of_not_held hheld, Function.update_self] at h
    cases h
    split at hm'
    · exact (Finset.mem_insert.mp hm').imp_right hold
    · exact .inr (hold hm')

/-- The second registry is the first one with what `A` got on top, all of it
    in `S`. -/
structure Beside (A : R) (S : Set M) (reg reg' : Registry R M) : Prop where
  others : ∀ B, B ≠ A → reg' B = reg B
  absent : reg A = none
  own : ∀ items, reg' A = some items → ∀ m ∈ items, m ∈ S

variable {S : Set M}

omit [DecidableEq R] [DecidableEq M] in
theorem Beside.held_iff (h : Beside A S reg reg') (hm : m ∉ S) : reg'.Held m ↔ reg.Held m := by
  constructor
  · rintro ⟨B, items, hB, hmem⟩
    have hne : B ≠ A := by
      rintro rfl
      exact hm (h.own items hB m hmem)
    exact ⟨B, items, h.others B hne ▸ hB, hmem⟩
  · rintro ⟨B, items, hB, hmem⟩
    have hne : B ≠ A := by
      rintro rfl
      rw [h.absent] at hB
      cases hB
    exact ⟨B, items, (h.others B hne).trans hB, hmem⟩

/-- Someone else claims what is none of `A`'s. -/
theorem Beside.claim_both (h : Beside A S reg reg') (hr : r ≠ A) (hm : m ∉ S) :
    Beside A S (reg.claim limit (r, m)) (reg'.claim limit (r, m)) where
  others B hB := by
    by_cases hheld : reg.Held m
    · rw [claim_of_held hheld, claim_of_held ((h.held_iff hm).mpr hheld), h.others B hB]
    · rw [claim_of_not_held hheld, claim_of_not_held (mt (h.held_iff hm).mp hheld),
        h.others r hr, Function.update_apply, Function.update_apply, h.others B hB]
  absent := by rw [claim_of_ne hr.symm, h.absent]
  own items hitems := by
    rw [claim_of_ne hr.symm] at hitems
    exact h.own items hitems

theorem Beside.claim_own (h : Beside A S reg reg') (hm : m ∈ S) :
    Beside A S reg (reg'.claim limit (A, m)) where
  others B hB := by rw [claim_of_ne hB, h.others B hB]
  absent := h.absent
  own items hitems m' hm' := by
    rcases mem_of_claim hitems hm' with rfl | ⟨old, hold, hmem⟩
    · exact hm
    · exact h.own old hold m' hmem

/-- The claims of `A` to items that nobody else claims do not show in what the others
    get. -/
theorem foldl_claim_beside (limit : Nat) (claims : List (R × M)) (hS : ∀ c ∈ claims, c.2 ∈ S ↔ c.1 = A)
    (h : Beside A S reg reg') :
    Beside A S ((claims.filter fun c => c.1 ≠ A).foldl (claim limit) reg)
      (claims.foldl (claim limit) reg') := by
  induction claims generalizing reg reg' with
  | nil => exact h
  | cons c claims ih =>
    obtain ⟨r, m⟩ := c
    obtain ⟨hc, hclaims⟩ := List.forall_mem_cons.mp hS
    by_cases hr : r = A
    · rw [List.filter_cons_of_neg (by simpa using hr), List.foldl_cons]
      refine ih hclaims ?_
      rw [hr]
      exact h.claim_own (hc.mpr hr)
    · rw [List.filter_cons_of_pos (by simpa using hr), List.foldl_cons, List.foldl_cons]
      exact ih hclaims (h.claim_both hr (mt hc.mp hr))

end Registry

end Base
