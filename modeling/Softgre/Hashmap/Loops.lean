-- SUMMARY: Every sequence of calls to the hash map keeps its invariant, and every loop of the map ends in bounds.
import Softgre.Hashmap.Passes

/-!
# The loops of the hash map

Calls come in any order here, with any number of iterators among them. Removal
through an iterator is for the entry it has just returned: `held` is that entry,
for as long as nothing is inserted and the entry is not removed otherwise.

The loops that `Table` writes with a bound have none in the source, or write to
memory: `seek` may not end, and `fillKeys` may leave the array.
-/

namespace Softgre

variable {K V : Type}

-- ---------------------------------------------------------------------------
-- Calls in any order
-- ---------------------------------------------------------------------------

/-- The calls of `hashmap.h`. Iterators are numbered. -/
inductive MapStep (K V : Type) where
  | call (c : MapCall K V)
  | capacity
  | iterInit (i : Nat)
  | iterNext (i : Nat)
  | iterRemove (i : Nat)

/-- A map with the iterators over it. -/
structure MapState (K V : Type) where
  table : Table K V
  iters : Nat → Iter
  /-- The key of the entry that an iterator has just returned. -/
  held : Nat → Option K

/-- Whether a call leaves the entry of `key` where it is. -/
def MapCall.keeps (ops : KeyOps K) : MapCall K V → K → Bool
  | .insert .. | .removeAll => fun _ => false
  | .remove key => fun k => !ops.equal k key
  | .lookup _ | .contains _ | .size | .keys => fun _ => true

namespace MapState

def new : MapState K V := ⟨.new, fun _ => Table.iterInit, fun _ => none⟩

def step (ops : KeyOps K) (s : MapState K V) : MapStep K V → MapState K V
  | .call c =>
    { s with table := (s.table.call ops c).1, held := fun i => (s.held i).filter (c.keeps ops) }
  | .capacity => s
  | .iterInit i =>
    { s with
      iters := Function.update s.iters i Table.iterInit
      held := Function.update s.held i none }
  | .iterNext i =>
    let (entry, it) := s.table.iterNext (s.iters i)
    { s with
      iters := Function.update s.iters i it
      held := Function.update s.held i (entry.map Prod.fst) }
  | .iterRemove i =>
    let (t, it, _) := s.table.iterRemove (s.iters i)
    { table := t
      iters := Function.update s.iters i it
      held := fun j => (s.held j).filter fun k => (s.held i).all fun key => !ops.equal k key }

def run (ops : KeyOps K) (steps : List (MapStep K V)) : MapState K V := steps.foldl (step ops) new

/-- What `hashmap.h` asks of a call: an iterator removes the entry it holds. -/
def allows (s : MapState K V) : MapStep K V → Bool
  | .iterRemove i => !(s.iters i).valid || (s.held i).isSome
  | _ => true

/-- Calls that keep to that, each in the state it is made in. -/
def proper (ops : KeyOps K) : MapState K V → List (MapStep K V) → Bool
  | _, [] => true
  | s, c :: rest => s.allows c && proper ops (s.step ops c) rest

end MapState

variable {ops : KeyOps K}

/-- The table is in order, and what an iterator holds is in the slot it returned last. -/
structure MapState.Ok (ops : KeyOps K) (s : MapState K V) : Prop where
  inv : s.table.Inv ops
  held : ∀ {i key}, s.held i = some key →
    ∃ v h, s.table.slot (s.iters i).current = .occupied key v h

namespace Table

/-- A tombstone leaves alone what has another key. -/
theorem slot_set_deleted {t : Table K V} {i j : Nat} {k key : K} {v v' : V} {h h' : UInt32}
    (hs : t.slot i = .occupied k v h) (hother : ops.equal key k = false)
    (hkey : t.slot j = .occupied key v' h') :
    slotAt (t.slots.set i .deleted) j = .occupied key v' h' := by
  rw [slot] at hs hkey
  have hne : j ≠ i := by
    rintro rfl
    rw [hs] at hkey
    cases hkey
    rw [ops.equal_refl] at hother
    cases hother
  rw [slotAt_set (slotAt_lt (by rw [hs]; simp)), if_neg hne, hkey]

/-- An entry that a call keeps stays in its slot. -/
theorem slot_call {t : Table K V} (hi : t.Inv ops) {c : MapCall K V} {j : Nat} {key : K} {v : V}
    {h : UInt32} (hkeeps : c.keeps ops key = true) (hs : t.slot j = .occupied key v h) :
    (t.call ops c).1.slot j = .occupied key v h := by
  cases c with
  | insert | removeAll => cases hkeeps
  | lookup | contains | size | keys => exact hs
  | remove key' =>
    have hother : ops.equal key key' = false := by simpa [MapCall.keeps] using hkeeps
    rw [call]
    rcases remove_cases hi key' with ⟨-, heq⟩ | ⟨i, k, v', h', hremoved, hk, heq⟩
    · rw [heq]
      exact hs
    · have hne : ops.equal key k = false := by
        rw [Bool.eq_false_iff]
        intro hkk
        rw [ops.equal_trans hkk hk] at hother
        cases hother
      rw [heq]
      exact slot_set_deleted hremoved hne hs

theorem call_inv {t : Table K V} (hi : t.Inv ops) (c : MapCall K V) : (t.call ops c).1.Inv ops := by
  cases c with
  | insert key value => exact insert_inv hi key value
  | remove key => exact remove_inv hi key
  | removeAll => exact new_inv ops
  | lookup | contains | size | keys => exact hi

end Table

namespace MapState

variable {s : MapState K V}

theorem Ok.new (ops : KeyOps K) : (new : MapState K V).Ok ops :=
  ⟨Table.new_inv ops, fun h => by cases h⟩

theorem Ok.call (h : s.Ok ops) (c : MapCall K V) : (s.step ops (.call c)).Ok ops where
  inv := Table.call_inv h.inv c
  held {i key} hheld := by
    obtain ⟨hold, hkeeps⟩ := Option.filter_eq_some_iff.mp hheld
    obtain ⟨v, hash, hs⟩ := h.held hold
    exact ⟨v, hash, Table.slot_call h.inv hkeeps hs⟩

/-- A step of one iterator does not move the others. -/
theorem Ok.update (h : s.Ok ops) {i : Nat} {it : Iter} {entry : Option K}
    (hentry : ∀ key, entry = some key → ∃ v hash, s.table.slot it.current = .occupied key v hash) :
    Ok ops { s with
      iters := Function.update s.iters i it
      held := Function.update s.held i entry } where
  inv := h.inv
  held {j key} hheld := by
    by_cases hj : j = i
    · subst hj
      simp only [Function.update_self] at hheld ⊢
      exact hentry key hheld
    · simp only [Function.update_of_ne hj] at hheld ⊢
      exact h.held hheld

theorem Ok.iterNext (h : s.Ok ops) (i : Nat) : (s.step ops (.iterNext i)).Ok ops := by
  rw [MapState.step]
  rcases s.table.iterNext_spec (s.iters i) with ⟨-, it, hnext⟩ | ⟨j, k, v, hash, hs, hnext, -⟩
  · rw [hnext]
    exact h.update fun key hkey => by cases hkey
  · rw [hnext]
    refine h.update fun key hkey => ?_
    cases hkey
    exact ⟨v, hash, hs⟩

/-- The position of an iterator stays, whatever is removed through it. -/
theorem current_update (t : Table K V) (iters : Nat → Iter) (i j : Nat) :
    (Function.update iters i (t.iterRemove (iters i)).2.1 j).current = (iters j).current := by
  by_cases hj : j = i
  · subst hj
    rw [Function.update_self, Table.iterRemove]
    split
    · rfl
    · rfl
  · rw [Function.update_of_ne hj]

/-- What a removal through an iterator does, when it is one the header allows. -/
theorem Ok.iterRemove_cases (h : s.Ok ops) {i : Nat} (hallows : s.allows (.iterRemove i) = true) :
    s.table.iterRemove (s.iters i) = (s.table, s.iters i, none) ∨
    ∃ k v hash, s.held i = some k ∧ s.table.slot (s.iters i).current = .occupied k v hash ∧
      s.table.iterRemove (s.iters i) =
        ({ s.table with
            slots := s.table.slots.set (s.iters i).current .deleted
            count := s.table.count - 1 },
          { s.iters i with valid := false }, some (k, v)) := by
  by_cases hvalid : (s.iters i).valid = true
  · obtain ⟨k, hheld⟩ : ∃ key, s.held i = some key := by
      rw [allows, hvalid] at hallows
      exact Option.isSome_iff_exists.mp (by simpa using hallows)
    obtain ⟨v, hash, hs⟩ := h.held hheld
    exact .inr ⟨k, v, hash, hheld, hs, by rw [Table.iterRemove, if_pos hvalid, hs]; rfl⟩
  · exact .inl (by rw [Table.iterRemove, if_neg hvalid])

theorem Ok.iterRemove (h : s.Ok ops) {i : Nat} (hallows : s.allows (.iterRemove i) = true) :
    (s.step ops (.iterRemove i)).Ok ops := by
  have hcurrent := current_update s.table s.iters i
  simp only [MapState.step]
  rcases h.iterRemove_cases hallows with hsame | ⟨k, v, hash, hremoved, hs, hremove⟩
  · refine ⟨by rw [hsame]; exact h.inv, fun {j key} hheld => ?_⟩
    rw [hcurrent, hsame]
    exact h.held (Option.filter_eq_some_iff.mp hheld).1
  · refine ⟨by rw [hremove]; exact h.inv.set_deleted hs, fun {j key} hheld => ?_⟩
    obtain ⟨hold, hother⟩ := Option.filter_eq_some_iff.mp hheld
    obtain ⟨v', hash', hs'⟩ := h.held hold
    rw [hremoved] at hother
    refine ⟨v', hash', ?_⟩
    rw [hcurrent, hremove]
    exact Table.slot_set_deleted hs (by simpa using hother) hs'

theorem Ok.step (h : s.Ok ops) {c : MapStep K V} (hallows : s.allows c = true) :
    (s.step ops c).Ok ops := by
  cases c with
  | call c => exact h.call c
  | capacity => exact h
  | iterInit i => exact h.update fun key hkey => by cases hkey
  | iterNext i => exact h.iterNext i
  | iterRemove i => exact h.iterRemove hallows

theorem Ok.run (h : s.Ok ops) {steps : List (MapStep K V)} (hproper : proper ops s steps = true) :
    (steps.foldl (MapState.step ops) s).Ok ops := by
  induction steps generalizing s with
  | nil => exact h
  | cons c rest ih =>
    rw [proper, Bool.and_eq_true] at hproper
    exact ih (h.step hproper.1) hproper.2

end MapState

-- ---------------------------------------------------------------------------
-- Probing
-- ---------------------------------------------------------------------------

namespace Table

/-- `find` stops at the first slot on the path of a key that is empty or holds it.
    When the key is absent, the slot reported for an insertion is one of the table,
    and free. -/
def FindEnds (ops : KeyOps K) (t : Table K V) (key : K) : Prop :=
  ∃ D < t.cap,
    (∀ d < D, t.slot (pos t.slots (ops.hash key) d) ≠ .empty ∧
      ¬ Matches ops t.slots key (ops.hash key) (pos t.slots (ops.hash key) d)) ∧
    ((Matches ops t.slots key (ops.hash key) (pos t.slots (ops.hash key) D) ∧
      (t.find ops key (ops.hash key)).1 = some (pos t.slots (ops.hash key) D)) ∨
    (t.slot (pos t.slots (ops.hash key) D) = .empty ∧ ∃ insertAt < t.cap,
      t.find ops key (ops.hash key) = (none, some insertAt) ∧
      (t.slot insertAt).isOccupied = false))

theorem Inv.findEnds {t : Table K V} (hi : t.Inv ops) (key : K) : t.FindEnds ops key := by
  classical
  -- the first distance at which the path comes to an end
  have hend : ∃ D, t.slot (pos t.slots (ops.hash key) D) = .empty ∨
      Matches ops t.slots key (ops.hash key) (pos t.slots (ops.hash key) D) := by
    obtain ⟨i, hlt, hempty⟩ := hi.exists_empty
    obtain ⟨d, -, rfl⟩ := exists_pos_eq (ops.hash key) hlt
    exact ⟨d, .inl hempty⟩
  have hbefore := fun d (hd : d < Nat.find hend) => not_or.mp (Nat.find_min hend hd)
  have hD : Nat.find hend < t.cap := by
    obtain ⟨i, hlt, hempty⟩ := hi.exists_empty
    obtain ⟨d, hd, rfl⟩ := exists_pos_eq (ops.hash key) hlt
    exact Nat.lt_of_le_of_lt (Nat.find_min' hend (.inl hempty)) hd
  refine ⟨Nat.find hend, hD, hbefore, ?_⟩
  rcases hi.probed.find_spec hi.exists_empty key with
    ⟨i, insertAt, hfind, k, v, hs, hk⟩ | ⟨habsent, D, -, hfind, hfree, -⟩
  · -- no slot is empty on the way to the key
    have hmatch : Matches ops t.slots key (ops.hash key)
        (pos t.slots (ops.hash key) (Nat.find hend)) := by
      obtain ⟨D, -, hpos, hpath⟩ := hi.probed.trail hs
      have hle : Nat.find hend ≤ D := Nat.find_min' hend (.inr ⟨k, v, by rw [hpos, hs], hk⟩)
      refine (Nat.find_spec hend).resolve_left fun hempty => ?_
      rcases Nat.lt_or_eq_of_le hle with hlt | heq
      · exact hpath _ hlt hempty
      · rw [heq, hpos, slot, hs] at hempty
        cases hempty
    obtain ⟨k', v', hs', hk'⟩ := hmatch
    have hi' : i = pos t.slots (ops.hash key) (Nat.find hend) :=
      hi.probed.distinct hs hs' (ops.equal_trans hk (ops.equal_symm hk'))
    refine .inl ⟨⟨k', v', hs', hk'⟩, ?_⟩
    rw [find, cap, hfind, hi']
  · have hempty : t.slot (pos t.slots (ops.hash key) (Nat.find hend)) = .empty := by
      rcases Nat.find_spec hend with hempty | ⟨k, v, hs, hk⟩
      · exact hempty
      · rw [habsent hs] at hk
        cases hk
    exact .inr ⟨hempty, _, pos_lt hi.probed.length_pos _ _, hfind, hfree⟩

end Table

-- ---------------------------------------------------------------------------
-- Rehashing
-- ---------------------------------------------------------------------------

namespace Table

/-- The inner loop of `resize`, if it ends within `fuel` rounds. -/
def seek (slots : List (Slot K V)) : Nat → Nat → Option Nat
  | 0, _ => none
  | fuel + 1, j =>
    if (slotAt slots j).isOccupied then seek slots fuel ((j + 1) &&& (slots.length - 1))
    else some j

def placeWithin (fuel : Nat) (slots : List (Slot K V)) (s : Slot K V) :
    Option (List (Slot K V)) :=
  match s with
  | .occupied _ _ h => do
    let j ← seek slots fuel (h.toNat &&& (slots.length - 1))
    return slots.set j s
  | _ => some slots

/-- The slots after `resize`, if none of its inner loops takes more than `fuel` rounds. -/
def resizeWithin (fuel : Nat) (t : Table K V) (newCap : Nat) : Option (List (Slot K V)) :=
  t.slots.foldlM (placeWithin fuel) (List.replicate newCap .empty)

theorem seek_eq {slots : List (Slot K V)} {n fuel j : Nat} (hfuel : n < fuel)
    (hfree : (slotAt slots (placeFrom slots n j)).isOccupied = false) :
    seek slots fuel j = some (placeFrom slots n j) := by
  induction n generalizing fuel j with
  | zero =>
    obtain ⟨fuel, rfl⟩ : ∃ k, fuel = k + 1 := ⟨fuel - 1, by omega⟩
    rw [placeFrom] at hfree ⊢
    rw [seek, hfree]
    rfl
  | succ n ih =>
    obtain ⟨fuel, rfl⟩ : ∃ k, fuel = k + 1 := ⟨fuel - 1, by omega⟩
    rw [placeFrom] at hfree ⊢
    rw [seek]
    by_cases hocc : (slotAt slots j).isOccupied = true
    · rw [if_pos hocc] at hfree
      rw [if_pos hocc, if_pos hocc]
      exact ih (by omega) hfree
    · rw [if_neg hocc, if_neg hocc]

theorem placeWithin_eq {slots : List (Slot K V)} {fuel : Nat} (hp : Probed ops slots)
    (hfuel : slots.length < fuel) (s : Slot K V)
    (hroom : s.isOccupied = true → slots.countP Slot.isOccupied < slots.length) :
    placeWithin fuel slots s = some (place slots s) := by
  cases s with
  | empty | deleted => rfl
  | occupied k v h =>
    obtain ⟨D, -, hrun, -, hfree⟩ := hp.placeFrom_free (hroom rfl) h
    rw [placeWithin, seek_eq hfuel (by rw [hrun]; exact hfree)]
    rfl

end Table

/-- With room for every live slot, the loops of a rehash end. -/
theorem Rehashed.foldlM {visited rest slots : List (Slot K V)} {fuel : Nat}
    (hr : Rehashed ops visited slots) (hp : Probed ops (visited ++ rest))
    (hroom : (visited ++ rest).countP Slot.isOccupied < slots.length + 1)
    (hfuel : slots.length < fuel) :
    rest.foldlM (Table.placeWithin fuel) slots = some (rest.foldl Table.place slots) := by
  induction rest generalizing visited slots with
  | nil => rfl
  | cons s rest ih =>
    have hplace : Table.placeWithin fuel slots s = some (Table.place slots s) := by
      refine Table.placeWithin_eq hr.probed hfuel s fun hocc => ?_
      have hcount := hr.count_eq
      simp only [List.countP_append, List.countP_cons, hocc, if_true] at hroom
      omega
    obtain ⟨hstep, hlen⟩ := hr.step hp hroom
    rw [List.append_cons] at hp hroom
    rw [List.foldlM_cons, hplace]
    exact ih hstep hp (by rwa [hlen]) (by rwa [hlen])

namespace Table

/-- At the size it has and at twice that, a rehash of a table ends. -/
theorem Inv.resizeWithin_eq {t : Table K V} (hi : t.Inv ops) {newCap fuel : Nat}
    (hcap : newCap = t.cap ∨ newCap = t.cap * 2) (hfuel : newCap < fuel) :
    t.resizeWithin fuel newCap = some (t.resize newCap).slots := by
  obtain ⟨n, hpow⟩ := hi.probed.pow
  obtain ⟨m, rfl⟩ : ∃ m, newCap = 2 ^ m := by
    rcases hcap with rfl | rfl
    · exact ⟨n, hpow⟩
    · exact ⟨n + 1, by rw [cap, hpow, Nat.pow_succ]⟩
  have hroom : ([] ++ t.slots).countP Slot.isOccupied <
      (List.replicate (2 ^ m) (Slot.empty : Slot K V)).length + 1 := by
    have hle : t.slots.countP Slot.isOccupied ≤ t.slots.length := List.countP_le_length
    rw [List.nil_append, List.length_replicate]
    rw [cap] at hcap
    omega
  exact (Rehashed.replicate ops m).foldlM hi.probed hroom (by rwa [List.length_replicate])

end Table

-- ---------------------------------------------------------------------------
-- The array of keys
-- ---------------------------------------------------------------------------

namespace Table

/-- The loop of `hashmap_keys` over the slots that are left. There is no result if it
    writes past the end of the array. -/
def fillKeys : List (Slot K V) → List (Option K) → Nat → Option (List (Option K) × Nat)
  | [], array, n => some (array, n)
  | .occupied k _ _ :: rest, array, n =>
    if n < array.length then fillKeys rest (array.set n (some k)) (n + 1) else none
  | _ :: rest, array, n => fillKeys rest array n

/-- `hashmap_keys`: an array of `count` cells, of one at least, and the number it reports. -/
def keysArray (t : Table K V) : Option (List (Option K) × Nat) :=
  fillKeys t.slots (List.replicate (if t.count ≠ 0 then t.count else 1) none) 0

theorem fillKeys_eq {slots : List (Slot K V)} {written : List (Option K)} {room : Nat}
    (hroom : (live slots).length ≤ room) :
    fillKeys slots (written ++ List.replicate room none) written.length =
      some (written ++ (live slots).map (fun e => some e.1) ++
        List.replicate (room - (live slots).length) none, written.length + (live slots).length) := by
  induction slots generalizing written room with
  | nil => simp [fillKeys, live]
  | cons s rest ih =>
    cases s with
    | empty | deleted => exact ih hroom
    | occupied k v h =>
      have hlive : live (.occupied k v h :: rest) = (k, v) :: live rest := rfl
      rw [hlive, List.length_cons] at hroom ⊢
      obtain ⟨room, rfl⟩ : ∃ m, room = m + 1 := ⟨room - 1, by omega⟩
      have hwrite : (written ++ List.replicate (room + 1) none).set written.length (some k) =
          (written ++ [some k]) ++ List.replicate room none := by
        simp [List.replicate_succ]
      have hrest : fillKeys rest ((written ++ [some k]) ++ List.replicate room none)
          (written ++ [some k]).length = _ := ih (by omega)
      rw [List.length_append, List.length_singleton] at hrest
      rw [fillKeys, if_pos (by simp), hwrite, hrest]
      simp [Nat.add_assoc, Nat.add_comm 1]

theorem Inv.keysArray_eq {t : Table K V} (hi : t.Inv ops) :
    t.keysArray =
      some (t.keys.map some ++ List.replicate (if t.count ≠ 0 then 0 else 1) none, t.count) := by
  have hcount : (live t.slots).length = t.count := (Hashmap.size_eq_length ⟨t, hi⟩).symm
  have hkeys : (live t.slots).map (fun e => some e.1) = t.keys.map some := (List.map_map).symm
  generalize hsize : (if t.count ≠ 0 then t.count else 1) = size
  have hroom : (live t.slots).length ≤ size ∧
      size - t.count = if t.count ≠ 0 then 0 else 1 := by
    rw [hcount, ← hsize]
    split
    · omega
    · omega
  have hfill : fillKeys t.slots ([] ++ List.replicate size none) 0 = _ := fillKeys_eq hroom.1
  rw [List.nil_append] at hfill
  rw [keysArray, hsize, hfill, hkeys, hcount, hroom.2]
  simp

end Table

-- ---------------------------------------------------------------------------
-- Every sequence of calls
-- ---------------------------------------------------------------------------

/-- After any calls the table has its invariant, so that an empty slot is left, a
    probe ends at one or at its key, an insertion finds a slot of the table, a rehash
    comes to its end and the array of keys is large enough. -/
theorem hashmap_invariant_and_loops (ops : KeyOps K) (steps : List (MapStep K V))
    (hproper : MapState.proper ops .new steps = true) :
    let t := (MapState.run ops steps).table
    t.Inv ops ∧ (∃ i < t.cap, t.slot i = .empty) ∧
      (∀ key, t.FindEnds ops key ∧ t.reserve.FindEnds ops key) ∧
      (∀ newCap, newCap = t.cap ∨ newCap = t.cap * 2 → ∀ fuel > newCap,
        t.resizeWithin fuel newCap = some (t.resize newCap).slots) ∧
      t.keysArray =
        some (t.keys.map some ++ List.replicate (if t.count ≠ 0 then 0 else 1) none, t.count) := by
  intro t
  have hi : t.Inv ops := ((MapState.Ok.new ops).run hproper).inv
  obtain ⟨hr, -⟩ := Table.reserve_spec hi
  exact ⟨hi, hi.exists_empty, fun key => ⟨hi.findEnds key, hr.findEnds key⟩,
    fun newCap hcap fuel hfuel => hi.resizeWithin_eq hcap hfuel, hi.keysArray_eq⟩

/-- All keys have the same hash. One is removed through an iterator, another one while
    the iterator is on its way. -/
def Sample.collisions : List (MapStep Nat Nat) :=
  [.call (.insert 1 10), .call (.insert 2 20), .call (.insert 3 30), .iterInit 0, .iterNext 0,
    .call (.remove 2), .iterRemove 0, .iterRemove 0, .iterNext 0, .call .keys, .call (.insert 4 40)]

theorem hashmap_invariant_and_loops_collisions :
    ((MapState.run (.ofHash fun _ => 0) Sample.collisions).table.keysArray =
      some ([some 4, some 3], 2)) ∧
      (MapState.run (.ofHash fun _ => 0) Sample.collisions).table.Inv (.ofHash fun _ => 0) :=
  ⟨by decide +kernel,
    (hashmap_invariant_and_loops (.ofHash fun _ => 0) Sample.collisions (by decide +kernel)).1⟩

/-- An iterator removes the entry it has returned after `hashmap_remove` has done so. -/
def Sample.removedTwice : List (MapStep Nat Nat) :=
  [.call (.insert 1 10), .call (.insert 2 20), .call (.insert 3 30), .iterInit 0, .iterNext 0,
    .call (.remove 1), .iterRemove 0]

/-- `hashmap_iter_remove` looks at `valid` only, so the entry is counted down twice, and
    `hashmap_keys` writes two keys into an array of one. -/
theorem not_hashmap_invariant_removedTwice :
    let t := (MapState.run (.ofHash fun _ => 0) Sample.removedTwice).table
    t.count = 1 ∧ t.keys = [2, 3] ∧ ¬ t.Inv (.ofHash fun _ => 0) ∧ t.keysArray = none := by
  refine ⟨by decide +kernel, by decide +kernel, fun hi => ?_, by decide +kernel⟩
  have hcount := hi.count_eq
  revert hcount
  decide +kernel

end Softgre
