-- SUMMARY: The open-addressing hash map of `hashmap.c`: slots, probing, rehashing, iteration.
import Mathlib.Data.List.Basic

/-!
# The hash table

A table is an array of slots together with the two counters that drive the
load factor. Probing is linear and wraps around through a power-of-two mask.
Removal leaves a tombstone behind, insertion reuses the first tombstone it
passed, and a rehash drops all of them.

Keys and values are plain Lean values here. An operation that hands something
to a destructor in the source returns it next to the new table.
-/

namespace Softgre

/-- The `hash` and `equal` callbacks of a map, with the contract a caller of
    `hashmap_new` owes: `equal` is an equivalence and equal keys hash alike. -/
structure KeyOps (K : Type) where
  hash : K → UInt32
  equal : K → K → Bool
  equal_refl : ∀ k, equal k k = true
  equal_symm : ∀ {a b}, equal a b = true → equal b a = true
  equal_trans : ∀ {a b c}, equal a b = true → equal b c = true → equal a c = true
  hash_congr : ∀ {a b}, equal a b = true → hash a = hash b

/-- One slot. The state byte of the source is the constructor. -/
inductive Slot (K V : Type) where
  | empty
  | deleted
  | occupied (key : K) (value : V) (hash : UInt32)
deriving DecidableEq, Repr

namespace Slot

variable {K V : Type}

def isOccupied : Slot K V → Bool
  | .occupied .. => true
  | _ => false

def isEmpty : Slot K V → Bool
  | .empty => true
  | _ => false

def entry : Slot K V → Option (K × V)
  | .occupied k v _ => some (k, v)
  | _ => none

@[simp] theorem isOccupied_empty : (empty : Slot K V).isOccupied = false := rfl
@[simp] theorem isOccupied_deleted : (deleted : Slot K V).isOccupied = false := rfl
@[simp] theorem isOccupied_occupied (k : K) (v : V) (h : UInt32) :
    (occupied k v h).isOccupied = true := rfl
@[simp] theorem isEmpty_empty : (empty : Slot K V).isEmpty = true := rfl
@[simp] theorem isEmpty_deleted : (deleted : Slot K V).isEmpty = false := rfl
@[simp] theorem isEmpty_occupied (k : K) (v : V) (h : UInt32) :
    (occupied k v h).isEmpty = false := rfl
@[simp] theorem entry_empty : (empty : Slot K V).entry = none := rfl
@[simp] theorem entry_deleted : (deleted : Slot K V).entry = none := rfl
@[simp] theorem entry_occupied (k : K) (v : V) (h : UInt32) :
    (occupied k v h).entry = some (k, v) := rfl

end Slot

/-- `struct hashmap`: `cap` is the length of `slots`, `count` the number of
    live entries and `occupied` the number of live entries and tombstones. -/
structure Table (K V : Type) where
  slots : List (Slot K V)
  count : Nat
  occupied : Nat
deriving DecidableEq, Repr

/-- `struct hashmap_iter`: the next slot to look at and the one returned last. -/
structure Iter where
  slot : Nat
  current : Nat
  valid : Bool
deriving DecidableEq, Repr

/-- The slot at an index, reading an index past the end as empty. -/
def slotAt {K V : Type} (slots : List (Slot K V)) (i : Nat) : Slot K V := slots.getD i .empty

namespace Table

variable {K V : Type} (ops : KeyOps K)

def minCap : Nat := 16

def new : Table K V := ⟨List.replicate minCap .empty, 0, 0⟩

def cap (t : Table K V) : Nat := t.slots.length

def slot (t : Table K V) (i : Nat) : Slot K V := slotAt t.slots i

/-! ## Probing -/

/-- The loop of `find`. The first component is the slot that holds `key`, the
    second one the slot an insertion would take, which the source reports only
    when the key is absent. -/
def findFrom (slots : List (Slot K V)) (key : K) (hash : UInt32) :
    Nat → Nat → Option Nat → Option Nat × Option Nat
  | 0, _, reusable => (none, reusable)
  | probes + 1, i, reusable =>
    match slotAt slots i with
    | .empty => (none, some (reusable.getD i))
    | .deleted =>
      findFrom slots key hash probes ((i + 1) &&& (slots.length - 1)) (some (reusable.getD i))
    | .occupied k _ h =>
      if h = hash ∧ ops.equal k key = true then (some i, none)
      else findFrom slots key hash probes ((i + 1) &&& (slots.length - 1)) reusable

def find (t : Table K V) (key : K) (hash : UInt32) : Option Nat × Option Nat :=
  findFrom ops t.slots key hash t.cap (hash.toNat &&& (t.cap - 1)) none

/-! ## Rehashing -/

/-- The inner loop of `resize`: walk to a slot that is not occupied. -/
def placeFrom (slots : List (Slot K V)) : Nat → Nat → Nat
  | 0, j => j
  | n + 1, j =>
    if (slotAt slots j).isOccupied then placeFrom slots n ((j + 1) &&& (slots.length - 1))
    else j

def place (slots : List (Slot K V)) (s : Slot K V) : List (Slot K V) :=
  match s with
  | .occupied _ _ h =>
    slots.set (placeFrom slots slots.length (h.toNat &&& (slots.length - 1))) s
  | _ => slots

def resize (t : Table K V) (newCap : Nat) : Table K V :=
  { slots := t.slots.foldl place (List.replicate newCap .empty)
    count := t.count
    occupied := t.count }

/-! ## Operations -/

def lookup (t : Table K V) (key : K) : Option V :=
  match (t.find ops key (ops.hash key)).1 with
  | none => none
  | some i => (t.slot i).entry.map Prod.snd

def contains (t : Table K V) (key : K) : Bool :=
  (t.find ops key (ops.hash key)).1.isSome

/-- The rehash that `hashmap_insert` runs before it probes: at the same size
    when the load is mostly tombstones, at double the size otherwise. -/
def reserve (t : Table K V) : Table K V :=
  if (t.occupied + 1) * 4 ≥ t.cap * 3 then
    t.resize (if (t.count + 1) * 2 > t.cap then t.cap * 2 else t.cap)
  else t

/-- Insert or replace. On replacement the stored key stays; the new key and
    the returned old value go to the destructors. -/
def insert (t : Table K V) (key : K) (value : V) : Table K V × Option V :=
  let t := t.reserve
  let hash := ops.hash key
  match t.find ops key hash with
  | (some found, _) =>
    match t.slot found with
    | .occupied k v h => ({ t with slots := t.slots.set found (.occupied k value h) }, some v)
    | _ => (t, none)
  | (none, none) => (t, none)
  | (none, some insertAt) =>
    ({ slots := t.slots.set insertAt (.occupied key value hash)
       count := t.count + 1
       occupied := if (t.slot insertAt).isEmpty then t.occupied + 1 else t.occupied }, none)

/-- Remove the entry of `key`. The returned entry goes to the destructors, and
    the source returns whether there was one. -/
def remove (t : Table K V) (key : K) : Table K V × Option (K × V) :=
  match (t.find ops key (ops.hash key)).1 with
  | none => (t, none)
  | some i =>
    ({ t with slots := t.slots.set i .deleted, count := t.count - 1 }, (t.slot i).entry)

/-- The live entries in slot order. -/
def entries (t : Table K V) : List (K × V) := t.slots.filterMap Slot.entry

/-- Drop everything, shrinking back to the initial capacity. Every live entry
    goes to the destructors. -/
def removeAll (t : Table K V) : Table K V × List (K × V) := (new, t.entries)

def size (t : Table K V) : Nat := t.count

def keys (t : Table K V) : List K := t.entries.map Prod.fst

/-! ## Iteration -/

def iterInit : Iter := ⟨0, 0, false⟩

/-- The loop of `hashmap_iter_next` over the slots that are left. -/
def nextOccupied : List (Slot K V) → Nat → Option (Nat × K × V)
  | [], _ => none
  | .occupied k v _ :: _, i => some (i, k, v)
  | _ :: rest, i => nextOccupied rest (i + 1)

/-- Advance to the next live entry. Past the last one the iterator is spent. -/
def iterNext (t : Table K V) (it : Iter) : Option (K × V) × Iter :=
  match nextOccupied (t.slots.drop it.slot) it.slot with
  | some (i, k, v) => (some (k, v), ⟨i + 1, i, true⟩)
  | none => (none, ⟨max it.slot t.cap, it.current, false⟩)

/-- Remove the entry returned last. It goes to the destructors. -/
def iterRemove (t : Table K V) (it : Iter) : Table K V × Iter × Option (K × V) :=
  if it.valid then
    ({ t with slots := t.slots.set it.current .deleted, count := t.count - 1 },
      { it with valid := false }, (t.slot it.current).entry)
  else (t, it, none)

end Table

end Softgre
