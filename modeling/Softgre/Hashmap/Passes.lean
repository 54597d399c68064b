-- SUMMARY: Passes over a hash map that remove entries on the way: what they visit and what they leave.
import Softgre.Hashmap.Refinement

/-!
# Passes with removal

A pass calls `hashmap_iter_next` again and again, and after each entry decides
whether to call `hashmap_iter_remove`. The decision may depend on everything the
pass has seen. In slot order, a pass reads off the live entries from the next
slot of its iterator on, and a removal takes one entry out in front of it.
-/

namespace Softgre

variable {K V : Type}

/-- What a pass leaves behind: the table, the entries it visited with the latest
    first, the entries it handed to the destructors, and whether it came to the
    end of the table. -/
structure Pass (K V : Type) where
  table : Table K V
  visited : List (K × V)
  freed : List (K × V)
  finished : Bool
deriving DecidableEq, Repr

namespace Table

end Table

-- ---------------------------------------------------------------------------
-- Entries in slot order
-- ---------------------------------------------------------------------------

/-- The live entries of an array of slots. -/
def live (slots : List (Slot K V)) : List (K × V) := slots.filterMap Slot.entry

theorem live_append (l l' : List (Slot K V)) : live (l ++ l') = live l ++ live l' :=
  List.filterMap_append

/-- Writing one slot replaces what it contributed. -/
theorem live_set {slots : List (Slot K V)} {i : Nat} (hi : i < slots.length) (s : Slot K V) :
    live (slots.set i s) =
      live (slots.take i) ++ (s.entry.toList ++ live (slots.drop (i + 1))) := by
  rw [List.set_eq_take_append_cons_drop, if_pos hi, live_append]
  congr 1
  cases s <;> rfl

theorem live_eq {slots : List (Slot K V)} {i : Nat} (hi : i < slots.length) :
    live slots =
      live (slots.take i) ++ ((slotAt slots i).entry.toList ++ live (slots.drop (i + 1))) := by
  have hslot : slotAt slots i = slots[i] := by
    simp [slotAt, List.getD_eq_getElem?_getD, List.getElem?_eq_getElem hi]
  rw [← live_set hi, hslot, List.set_getElem_self]

/-- What `hashmap_iter_next` does: nothing is left, or it stops at the first live
    slot from its position on. -/
theorem Table.iterNext_spec (t : Table K V) (it : Iter) :
    (live (t.slots.drop it.slot) = [] ∧ ∃ it', t.iterNext it = (none, it')) ∨
    ∃ i k v h, t.slot i = .occupied k v h ∧ t.iterNext it = (some (k, v), ⟨i + 1, i, true⟩) ∧
      live (t.slots.take i) = live (t.slots.take it.slot) ∧
      live (t.slots.drop it.slot) = (k, v) :: live (t.slots.drop (i + 1)) := by
  rcases Hashmap.nextOccupied_spec (t.slots.drop it.slot) it.slot with
    ⟨hnil, hnone⟩ | ⟨n, k, v, h, hsome, hs, hrest⟩
  · exact .inl ⟨hnil, _, by simp only [iterNext, hnone]; rfl⟩
  · have hslot : t.slot (it.slot + n) = .occupied k v h := by
      simpa [slot, slotAt, List.getD_eq_getElem?_getD] using hs
    have hlt : it.slot + n < t.slots.length :=
      slotAt_lt (by rw [slot] at hslot; rw [hslot]; simp)
    rw [List.drop_drop, ← Nat.add_assoc] at hrest
    refine .inr ⟨it.slot + n, k, v, h, hslot, by simp only [iterNext, hsome], ?_, hrest⟩
    -- both sides are followed by the same entries
    have hsplit := live_eq hlt
    rw [slot] at hslot
    rw [hslot] at hsplit
    nth_rewrite 1 [← List.take_append_drop it.slot t.slots] at hsplit
    rw [live_append, live, live, hrest] at hsplit
    exact (List.append_cancel_right hsplit).symm

-- ---------------------------------------------------------------------------
-- What a pass does
-- ---------------------------------------------------------------------------

namespace Pass

/-- The entries of a walk over `entries` that are removed, and those that are kept. -/
def split (choose : List (K × V) → Bool) :
    List (K × V) → List (K × V) → List (K × V) × List (K × V)
  | _, [] => ([], [])
  | visited, entry :: rest =>
    let (chosen, kept) := split choose (entry :: visited) rest
    if choose (entry :: visited) then (entry :: chosen, kept) else (chosen, entry :: kept)

/-- The entries a pass over `entries` removes. -/
def chosen (choose : List (K × V) → Bool) (entries : List (K × V)) : List (K × V) :=
  (split choose [] entries).1

def kept (choose : List (K × V) → Bool) (entries : List (K × V)) : List (K × V) :=
  (split choose [] entries).2

/-- `p` is what `limit` rounds leave of a pass with the entries `before` behind it
    and `rest` in front. -/
structure Walks (ops : KeyOps K) (choose : List (K × V) → Bool) (limit cap : Nat)
    (before rest visited : List (K × V)) (p : Pass K V) : Prop where
  inv : p.table.Inv ops
  cap_eq : p.table.cap = cap
  visited_eq : p.visited = (rest.take limit).reverse ++ visited
  finished_eq : p.finished = decide (rest.length < limit)
  freed_eq : p.freed = (split choose visited (rest.take limit)).1
  entries_eq : p.table.entries =
    before ++ ((split choose visited (rest.take limit)).2 ++ rest.drop limit)

variable {ops : KeyOps K} {choose : List (K × V) → Bool} {limit cap : Nat}
  {before rest visited : List (K × V)} {entry : K × V} {p : Pass K V}

theorem Walks.keeps (h : Walks ops choose limit cap (before ++ [entry]) rest (entry :: visited) p)
    (hchoose : choose (entry :: visited) = false) :
    Walks ops choose (limit + 1) cap before (entry :: rest) visited p where
  inv := h.inv
  cap_eq := h.cap_eq
  visited_eq := by simp [h.visited_eq]
  finished_eq := by simp [h.finished_eq]
  freed_eq := by simp [h.freed_eq, split, hchoose]
  entries_eq := by simp [h.entries_eq, split, hchoose]

end Pass

variable {ops : KeyOps K}

end Softgre
