-- SUMMARY: Labelled transition systems: trails with restricted labels and the invariant rule.
import Mathlib.Logic.Relation

/-!
# Trails of a labelled transition system

`Trail step P s s'` says that `s'` is reached from `s` by finitely many steps
whose labels all satisfy `P`. An invariant is proved once for a single step and
carried over a whole trail by `Trail.invariant`.
-/

namespace Base

variable {σ L : Type} {step : L → σ → σ → Prop}

def Trail (step : L → σ → σ → Prop) (P : L → Prop) : σ → σ → Prop :=
  Relation.ReflTransGen fun s s' => ∃ l, P l ∧ step l s s'

namespace Trail

variable {P Q : L → Prop} {s s' s'' : σ}

theorem refl : Trail step P s s := Relation.ReflTransGen.refl

theorem of_eq (h : s = s') : Trail step P s s' := h ▸ refl

theorem single {l : L} (hl : P l) (h : step l s s') : Trail step P s s' :=
  Relation.ReflTransGen.single ⟨l, hl, h⟩

theorem trans (h₁ : Trail step P s s') (h₂ : Trail step P s' s'') : Trail step P s s'' :=
  Relation.ReflTransGen.trans h₁ h₂

theorem tail {l : L} (h : Trail step P s s') (hl : P l) (hs : step l s' s'') : Trail step P s s'' :=
  h.trans (single hl hs)

theorem mono (hPQ : ∀ l, P l → Q l) (h : Trail step P s s') : Trail step Q s s' :=
  Relation.ReflTransGen.mono (fun _ _ hs => hs.imp fun l hl => ⟨hPQ l hl.1, hl.2⟩) _ _ h

/-- What every step with an allowed label preserves, a trail preserves. -/
theorem invariant {I : σ → Prop} (hstep : ∀ l s s', P l → step l s s' → I s → I s')
    (h : Trail step P s s') (hs : I s) : I s' := by
  induction h with
  | refl => exact hs
  | tail _ hlast ih =>
    obtain ⟨l, hl, hst⟩ := hlast
    exact hstep l _ _ hl hst ih

/-- A step-wise transitive relation between the ends of a trail. -/
theorem relates {R : σ → σ → Prop} (hrefl : ∀ s, R s s)
    (htrans : ∀ a b c, R a b → R b c → R a c) (hstep : ∀ l s s', P l → step l s s' → R s s')
    (h : Trail step P s s') : R s s' := by
  induction h with
  | refl => exact hrefl _
  | tail _ hlast ih =>
    obtain ⟨l, hl, hst⟩ := hlast
    exact htrans _ _ _ ih (hstep l _ _ hl hst)

end Trail

end Base
