-- SUMMARY: Hash maps bundled with their invariant: finite-map laws, key sets and iteration.
import Softgre.Hashmap.Map
import Mathlib.Data.Finset.Card

/-!
# Hash maps

`Hashmap ops V` is a table together with its invariant, so that every law below
holds without side conditions. Iteration is read as a walk over `rest`, the
live entries an iterator has not visited yet.
-/

namespace Softgre

variable {K V : Type}

structure Hashmap (ops : KeyOps K) (V : Type) where
  table : Table K V
  inv : table.Inv ops

/-- Callbacks for keys that are compared by plain equality. -/
def KeyOps.ofHash [DecidableEq K] (hash : K → UInt32) : KeyOps K where
  hash := hash
  equal a b := decide (a = b)
  equal_refl := by simp
  equal_symm := by simp [eq_comm]
  equal_trans := by simp +contextual
  hash_congr := by simp +contextual

namespace Hashmap

variable {ops : KeyOps K}

def new : Hashmap ops V := ⟨Table.new, Table.new_inv ops⟩

def lookup (m : Hashmap ops V) (key : K) : Option V := m.table.lookup ops key

def contains (m : Hashmap ops V) (key : K) : Bool := m.table.contains ops key

def insert (m : Hashmap ops V) (key : K) (value : V) : Hashmap ops V × Option V :=
  (⟨(m.table.insert ops key value).1, Table.insert_inv m.inv key value⟩,
    (m.table.insert ops key value).2)

def remove (m : Hashmap ops V) (key : K) : Hashmap ops V × Option (K × V) :=
  (⟨(m.table.remove ops key).1, Table.remove_inv m.inv key⟩, (m.table.remove ops key).2)

def removeAll (m : Hashmap ops V) : Hashmap ops V × List (K × V) := (new, m.table.removeAll.2)

def size (m : Hashmap ops V) : Nat := m.table.size

def cap (m : Hashmap ops V) : Nat := m.table.cap

def entries (m : Hashmap ops V) : List (K × V) := m.table.entries

def keys (m : Hashmap ops V) : List K := m.table.keys

def iterNext (m : Hashmap ops V) (it : Iter) : Option (K × V) × Iter := m.table.iterNext it

/-- Remove the entry returned last. The source requires that it is still there,
    so an iterator that points at no live entry removes nothing. -/
def iterRemove (m : Hashmap ops V) (it : Iter) : Hashmap ops V × Iter × Option (K × V) :=
  match h : m.table.slot it.current with
  | .occupied .. =>
    (⟨(m.table.iterRemove it).1, Table.iterRemove_inv m.inv h⟩, (m.table.iterRemove it).2)
  | _ => (m, it, none)

/-! ## Finite-map laws -/

theorem lookup_new (key : K) : (new : Hashmap ops V).lookup key = none := by
  by_contra hne
  obtain ⟨v, hv⟩ := Option.ne_none_iff_exists'.mp hne
  obtain ⟨i, k, h, hs, _⟩ := (Table.new_inv ops).lookup_eq_some_iff.mp hv
  rw [Table.slot_new] at hs
  cases hs

theorem contains_eq (m : Hashmap ops V) (key : K) : m.contains key = (m.lookup key).isSome :=
  m.inv.contains_eq key

theorem lookup_insert (m : Hashmap ops V) (key : K) (value : V) (key' : K) :
    (m.insert key value).1.lookup key' =
      if ops.equal key key' = true then some value else m.lookup key' :=
  Table.lookup_insert m.inv key value key'

theorem lookup_remove (m : Hashmap ops V) (key key' : K) :
    (m.remove key).1.lookup key' =
      if ops.equal key key' = true then none else m.lookup key' :=
  Table.lookup_remove m.inv key key'

/-- The destructors receive the value an insertion replaces. -/
theorem insert_snd (m : Hashmap ops V) (key : K) (value : V) :
    (m.insert key value).2 = m.lookup key := by
  obtain ⟨-, -, -, hmem⟩ := Table.reserve_spec m.inv
  rcases Table.insert_cases m.inv key value with
    ⟨i, k, v, h, hs, hk, heq⟩ | ⟨habsent, D, -, -, -, heq⟩
  · obtain ⟨j, hj⟩ := (hmem k v h).mp ⟨i, hs⟩
    simp only [insert, heq, lookup]
    exact (m.inv.lookup_eq_some_iff.mpr ⟨j, k, h, hj, hk⟩).symm
  · simp only [insert, heq, lookup]
    by_contra hne
    obtain ⟨v, hv⟩ := Option.ne_none_iff_exists'.mp (Ne.symm hne)
    obtain ⟨i, k, h, hs, hk⟩ := m.inv.lookup_eq_some_iff.mp hv
    obtain ⟨j, hj⟩ := (hmem k v h).mpr ⟨i, hs⟩
    have := habsent hj
    rw [hk] at this
    cases this

/-- The destructors receive the entry a removal drops. -/
theorem remove_snd (m : Hashmap ops V) (key : K) :
    (m.remove key).2.map Prod.snd = m.lookup key := by
  rw [lookup, Table.lookup_eq_stored, ← Table.remove_snd m.inv]
  rfl

theorem lookup_of_mem_entries {m : Hashmap ops V} {k : K} {v : V} (h : (k, v) ∈ m.entries) :
    m.lookup k = some v := by
  obtain ⟨i, hash, hs⟩ := Table.mem_entries_iff.mp h
  exact m.inv.lookup_eq_some_iff.mpr ⟨i, k, hash, hs, ops.equal_refl k⟩

theorem mem_entries_of_lookup {m : Hashmap ops V} {key : K} {v : V} (h : m.lookup key = some v) :
    ∃ k, ops.equal k key = true ∧ (k, v) ∈ m.entries := by
  obtain ⟨i, k, hash, hs, hk⟩ := m.inv.lookup_eq_some_iff.mp h
  exact ⟨k, hk, Table.mem_entries_iff.mpr ⟨i, hash, hs⟩⟩

theorem size_eq_length (m : Hashmap ops V) : m.size = m.entries.length := by
  rw [size, Table.size, m.inv.count_eq, entries, Table.length_entries]

/-- Live entries have pairwise distinct keys. -/
theorem pairwise_entries (m : Hashmap ops V) :
    m.entries.Pairwise fun a b => ops.equal a.1 b.1 = false := by
  rw [entries, Table.entries, List.pairwise_filterMap, List.pairwise_iff_getElem]
  intro i j hi hj hij a ha b hb
  have hslot : ∀ (n : Nat) (hn : n < m.table.slots.length),
      slotAt m.table.slots n = m.table.slots[n] := by
    intro n hn
    simp [slotAt, List.getD_eq_getElem?_getD, List.getElem?_eq_getElem hn]
  rw [← hslot i hi] at ha
  rw [← hslot j hj] at hb
  cases hsi : slotAt m.table.slots i with
  | empty => rw [hsi] at ha; cases ha
  | deleted => rw [hsi] at ha; cases ha
  | occupied k v h =>
    cases hsj : slotAt m.table.slots j with
    | empty => rw [hsj] at hb; cases hb
    | deleted => rw [hsj] at hb; cases hb
    | occupied k' v' h' =>
      rw [hsi] at ha
      rw [hsj] at hb
      cases ha
      cases hb
      by_contra hne
      have := m.inv.probed.distinct hsi hsj (by simpa using hne)
      omega

/-! ## Iteration -/

/-- The live entries from the iterator's next slot on. -/
def rest (m : Hashmap ops V) (it : Iter) : List (K × V) :=
  (m.table.slots.drop it.slot).filterMap Slot.entry

theorem rest_init (m : Hashmap ops V) : m.rest Table.iterInit = m.entries := rfl

theorem length_rest_le (m : Hashmap ops V) (it : Iter) : (m.rest it).length ≤ m.cap :=
  (List.length_filterMap_le _ _).trans (by simp [cap, Table.cap])

theorem nextOccupied_spec (slots : List (Slot K V)) (i : Nat) :
    (slots.filterMap Slot.entry = [] ∧ Table.nextOccupied slots i = none) ∨
    ∃ n k v h, Table.nextOccupied slots i = some (i + n, k, v) ∧ slotAt slots n = .occupied k v h ∧
      slots.filterMap Slot.entry = (k, v) :: (slots.drop (n + 1)).filterMap Slot.entry := by
  induction slots generalizing i with
  | nil => exact .inl ⟨rfl, rfl⟩
  | cons s slots ih =>
    cases s with
    | occupied k v h => exact .inr ⟨0, k, v, h, rfl, rfl, by simp⟩
    | empty =>
      rcases ih (i + 1) with ⟨hnil, hnone⟩ | ⟨n, k, v, h, hsome, hs, hrest⟩
      · exact .inl ⟨by simpa [List.filterMap_cons] using hnil, hnone⟩
      · refine .inr ⟨n + 1, k, v, h, ?_, hs, by simpa [List.filterMap_cons] using hrest⟩
        rw [Table.nextOccupied, hsome, Nat.add_assoc, Nat.add_comm 1 n]
        simp
    | deleted =>
      rcases ih (i + 1) with ⟨hnil, hnone⟩ | ⟨n, k, v, h, hsome, hs, hrest⟩
      · exact .inl ⟨by simpa [List.filterMap_cons] using hnil, hnone⟩
      · refine .inr ⟨n + 1, k, v, h, ?_, hs, by simpa [List.filterMap_cons] using hrest⟩
        rw [Table.nextOccupied, hsome, Nat.add_assoc, Nat.add_comm 1 n]
        simp

/-- The iterator points at the live entry `(k, v)` it returned last. -/
def AtEntry (m : Hashmap ops V) (it : Iter) (k : K) (v : V) : Prop :=
  it.valid = true ∧ it.slot = it.current + 1 ∧ ∃ h, m.table.slot it.current = .occupied k v h

/-- Advancing an iterator either finds nothing left, or returns the head of the
    entries that are left and points at it. -/
theorem iterNext_cases (m : Hashmap ops V) (it : Iter) :
    (m.rest it = [] ∧ ∃ it', m.iterNext it = (none, it')) ∨
    ∃ k v it', m.iterNext it = (some (k, v), it') ∧ m.rest it = (k, v) :: m.rest it' ∧
      m.AtEntry it' k v := by
  rcases nextOccupied_spec (m.table.slots.drop it.slot) it.slot with
    ⟨hnil, hnone⟩ | ⟨n, k, v, h, hsome, hs, hrest⟩
  · exact .inl ⟨hnil, _, by simp only [iterNext, Table.iterNext, hnone]; rfl⟩
  · refine .inr ⟨k, v, ⟨it.slot + n + 1, it.slot + n, true⟩, ?_, ?_, rfl, rfl, h, ?_⟩
    · simp only [iterNext, Table.iterNext, hsome]
    · rw [rest, hrest, rest, List.drop_drop]
      simp [Nat.add_assoc]
    · simpa [Table.slot, slotAt, List.getD_eq_getElem?_getD] using hs

/-- Removing the entry just returned leaves the unvisited entries alone. -/
theorem rest_iterRemove {m : Hashmap ops V} {it : Iter} {k : K} {v : V} (h : m.AtEntry it k v) :
    (m.iterRemove it).1.rest (m.iterRemove it).2.1 = m.rest it := by
  obtain ⟨hvalid, hslot, hash, hs⟩ := h
  rw [iterRemove]
  split
  · simp only [Table.iterRemove, hvalid, if_true, rest, hslot]
    rw [List.drop_set_of_lt (by omega)]
  · rfl

theorem lookup_iterRemove {m : Hashmap ops V} {it : Iter} {k : K} {v : V} (h : m.AtEntry it k v)
    (key : K) : (m.iterRemove it).1.lookup key =
      if ops.equal k key = true then none else m.lookup key := by
  obtain ⟨hvalid, hslot, hash, hs⟩ := h
  rw [iterRemove]
  split
  · next k' v' hash' heq =>
    simp only [Table.iterRemove, hvalid, if_true, lookup]
    rw [heq] at hs
    cases hs
    exact m.inv.lookup_set_deleted heq key
  · next hno => exact absurd hs (hno k v hash)

/-! ## Keys compared by equality -/

section Lawful

variable [DecidableEq K] {hash : K → UInt32}

@[simp] theorem ofHash_equal (a b : K) : ((KeyOps.ofHash hash).equal a b = true) = (a = b) := by
  simp [KeyOps.ofHash]

theorem lookup_insert_eq (m : Hashmap (KeyOps.ofHash hash) V) (key : K) (value : V) (key' : K) :
    (m.insert key value).1.lookup key' = if key' = key then some value else m.lookup key' := by
  simp only [lookup_insert, ofHash_equal, @eq_comm _ key' key]

theorem lookup_remove_eq (m : Hashmap (KeyOps.ofHash hash) V) (key key' : K) :
    (m.remove key).1.lookup key' = if key' = key then none else m.lookup key' := by
  simp only [lookup_remove, ofHash_equal, @eq_comm _ key' key]

theorem mem_entries_iff_lookup {m : Hashmap (KeyOps.ofHash hash) V} {k : K} {v : V} :
    (k, v) ∈ m.entries ↔ m.lookup k = some v := by
  refine ⟨lookup_of_mem_entries, fun h => ?_⟩
  obtain ⟨k', hk, hmem⟩ := mem_entries_of_lookup h
  rw [ofHash_equal] at hk
  exact hk ▸ hmem

/-- The stored keys as a set. -/
def keySet (m : Hashmap (KeyOps.ofHash hash) V) : Finset K := m.keys.toFinset

theorem mem_keySet_iff_isSome {m : Hashmap (KeyOps.ofHash hash) V} {k : K} :
    k ∈ m.keySet ↔ (m.lookup k).isSome := by
  simp only [keySet, keys, Table.keys, List.mem_toFinset, List.mem_map, Prod.exists,
    exists_and_right, exists_eq_right, Option.isSome_iff_exists]
  exact exists_congr fun v => mem_entries_iff_lookup

theorem mem_keySet {m : Hashmap (KeyOps.ofHash hash) V} {k : K} :
    k ∈ m.keySet ↔ m.contains k = true := by
  rw [mem_keySet_iff_isSome, contains_eq]

theorem nodup_keys (m : Hashmap (KeyOps.ofHash hash) V) : m.keys.Nodup := by
  rw [keys, Table.keys, List.Nodup, List.pairwise_map]
  refine (pairwise_entries m).imp fun h => ?_
  simpa [KeyOps.ofHash] using h

theorem nodup_rest (m : Hashmap (KeyOps.ofHash hash) V) (it : Iter) :
    ((m.rest it).map Prod.fst).Nodup := by
  refine (nodup_keys m).sublist (List.Sublist.map _ ?_)
  exact (List.drop_sublist _ _).filterMap _

theorem card_keySet (m : Hashmap (KeyOps.ofHash hash) V) : m.keySet.card = m.size := by
  rw [keySet, List.toFinset_card_of_nodup (nodup_keys m), keys, Table.keys, List.length_map,
    size_eq_length, entries]

theorem keySet_new : (new : Hashmap (KeyOps.ofHash hash) V).keySet = ∅ := by
  ext k
  simp [mem_keySet_iff_isSome, lookup_new]

theorem keySet_insert (m : Hashmap (KeyOps.ofHash hash) V) (key : K) (value : V) :
    (m.insert key value).1.keySet = Insert.insert key m.keySet := by
  ext k
  simp only [Finset.mem_insert, mem_keySet_iff_isSome, lookup_insert, ofHash_equal]
  by_cases hk : k = key
  · simp [hk]
  · simp [hk, Ne.symm hk]

theorem keySet_iterRemove {m : Hashmap (KeyOps.ofHash hash) V} {it : Iter} {k : K} {v : V}
    (h : m.AtEntry it k v) : (m.iterRemove it).1.keySet = m.keySet.erase k := by
  ext k'
  simp only [Finset.mem_erase, mem_keySet_iff_isSome, lookup_iterRemove h, ofHash_equal]
  by_cases hk : k' = k
  · simp [hk]
  · simp [hk, Ne.symm hk]

end Lawful

end Hashmap

end Softgre
