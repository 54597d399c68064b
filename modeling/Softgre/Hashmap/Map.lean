-- SUMMARY: The hash map as a finite map: the operations bundled with the invariant, and their laws.
import Softgre.Hashmap.Rehash

/-!
# The hash map as a finite map

`Hashmap ops V` is a table together with its invariant. The laws below read
every operation as an operation on the finite map `lookup`, and iteration as a
walk over `entries`. Nothing above this module looks at slots again.
-/

namespace Softgre

variable {K V : Type} {ops : KeyOps K}

/-! ## Tables -/

namespace Table

/-- `find` returns a slot exactly when that slot holds the key. -/
theorem Inv.find_fst_eq_some_iff {t : Table K V} (hi : t.Inv ops) {key : K} {i : Nat} :
    (t.find ops key (ops.hash key)).1 = some i ↔
      ∃ k v h, t.slot i = .occupied k v h ∧ ops.equal k key = true := by
  rcases hi.probed.find_spec hi.exists_empty key with
    ⟨j, insertAt, hfind, k, v, hs, heq⟩ | ⟨habsent, D, _, hfind, _⟩
  · simp only [find, cap, hfind, Option.some.injEq]
    constructor
    · rintro rfl
      exact ⟨k, v, _, hs, heq⟩
    · rintro ⟨k', v', h', hs', heq'⟩
      exact hi.probed.distinct hs hs' (ops.equal_trans heq (ops.equal_symm heq'))
  · simp only [find, cap, hfind, reduceCtorEq, false_iff]
    rintro ⟨k, v, h, hs, heq⟩
    rw [habsent hs] at heq
    cases heq

/-- The entry of `key`, with the key as it is stored. -/
def stored (ops : KeyOps K) (t : Table K V) (key : K) : Option (K × V) :=
  (t.find ops key (ops.hash key)).1.bind fun i => (t.slot i).entry

theorem lookup_eq_stored (t : Table K V) (key : K) :
    t.lookup ops key = (t.stored ops key).map Prod.snd := by
  rw [lookup, stored]
  cases (t.find ops key (ops.hash key)).1 <;> rfl

/-- The entry of a key is the one live slot with an equal key. -/
theorem Inv.stored_eq_some_iff {t : Table K V} (hi : t.Inv ops) {key k : K} {v : V} :
    t.stored ops key = some (k, v) ↔
      ∃ i h, t.slot i = .occupied k v h ∧ ops.equal k key = true := by
  rw [stored, Option.bind_eq_some_iff]
  constructor
  · rintro ⟨i, hfind, hentry⟩
    obtain ⟨k', v', h, hs, heq⟩ := hi.find_fst_eq_some_iff.mp hfind
    rw [hs] at hentry
    cases hentry
    exact ⟨i, h, hs, heq⟩
  · rintro ⟨i, h, hs, heq⟩
    exact ⟨i, hi.find_fst_eq_some_iff.mpr ⟨k, v, h, hs, heq⟩, by rw [hs]; rfl⟩

/-- A lookup returns the value of the one live slot with an equal key. -/
theorem Inv.lookup_eq_some_iff {t : Table K V} (hi : t.Inv ops) {key : K} {v : V} :
    t.lookup ops key = some v ↔
      ∃ i k h, t.slot i = .occupied k v h ∧ ops.equal k key = true := by
  rw [lookup_eq_stored, Option.map_eq_some_iff]
  constructor
  · rintro ⟨⟨k, v⟩, hstored, rfl⟩
    obtain ⟨i, h, hs, heq⟩ := hi.stored_eq_some_iff.mp hstored
    exact ⟨i, k, h, hs, heq⟩
  · rintro ⟨i, k, h, hs, heq⟩
    exact ⟨(k, v), hi.stored_eq_some_iff.mpr ⟨i, h, hs, heq⟩, rfl⟩

theorem Inv.contains_eq {t : Table K V} (hi : t.Inv ops) (key : K) :
    t.contains ops key = (t.lookup ops key).isSome := by
  rw [contains, lookup]
  cases hfind : (t.find ops key (ops.hash key)).1 with
  | none => rfl
  | some i =>
    obtain ⟨k, v, h, hs, _⟩ := hi.find_fst_eq_some_iff.mp hfind
    simp [hs]

theorem new_inv (ops : KeyOps K) : (new : Table K V).Inv ops := by
  refine ⟨Probed.replicate_empty ops 4, le_refl _, ?_, ?_, ?_⟩
  · simp [new, List.countP_replicate]
  · simp [new, List.countP_replicate]
  · simp [new, cap, minCap]

theorem slot_new (i : Nat) : (new : Table K V).slot i = .empty := by
  simp only [slot, slotAt, new, List.getD_eq_getElem?_getD, List.getElem?_replicate]
  split <;> rfl

/-- Everything an insertion can do after the rehash: it replaces the value of the
    slot that holds the key, or it writes a fresh entry into a free slot. -/
theorem insert_cases {t : Table K V} (hi : t.Inv ops) (key : K) (value : V) :
    (∃ i k v h, t.reserve.slot i = .occupied k v h ∧ ops.equal k key = true ∧
      t.insert ops key value =
        ({ t.reserve with slots := t.reserve.slots.set i (.occupied k value h) }, some v)) ∨
    (Absent ops t.reserve.slots key ∧ ∃ D < t.reserve.slots.length,
      (slotAt t.reserve.slots (pos t.reserve.slots (ops.hash key) D)).isOccupied = false ∧
      (∀ d < D, slotAt t.reserve.slots (pos t.reserve.slots (ops.hash key) d) ≠ .empty) ∧
      t.insert ops key value =
        ({ slots := t.reserve.slots.set (pos t.reserve.slots (ops.hash key) D)
              (.occupied key value (ops.hash key))
           count := t.reserve.count + 1
           occupied :=
             if (slotAt t.reserve.slots (pos t.reserve.slots (ops.hash key) D)).isEmpty then
               t.reserve.occupied + 1
             else t.reserve.occupied }, none)) := by
  obtain ⟨hr, _⟩ := reserve_spec hi
  rcases hr.probed.find_spec hr.exists_empty key with
    ⟨i, insertAt, hfind, k, v, hs, heq⟩ | ⟨habsent, D, hD, hfind, hfree, hpath⟩
  · exact .inl ⟨i, k, v, _, hs, heq, by simp only [insert, find, cap, slot, hfind, hs]⟩
  · exact .inr ⟨habsent, D, hD, hfree, hpath, by simp only [insert, find, cap, slot, hfind]; rfl⟩

theorem insert_inv {t : Table K V} (hi : t.Inv ops) (key : K) (value : V) :
    (t.insert ops key value).1.Inv ops := by
  obtain ⟨hr, hroom, -, -⟩ := reserve_spec hi
  rcases insert_cases hi key value with
    ⟨i, k, v, h, hs, -, heq⟩ | ⟨habsent, D, hD, hfree, hpath, heq⟩
  · have hlt : i < t.reserve.slots.length := slotAt_lt (by rw [slot] at hs; rw [hs]; simp)
    have hc := countP_set_slot hlt Slot.isOccupied (.occupied k value h)
    have ho := countP_set_slot hlt (fun s => !s.isEmpty) (.occupied k value h)
    rw [slot] at hs
    simp only [hs, Slot.isOccupied_occupied, Slot.isEmpty_occupied] at hc ho
    rw [heq]
    refine ⟨hr.probed.set_value hs, by simpa [cap] using hr.minCap_le, ?_, ?_,
      by simpa [cap] using hr.load⟩
    · simpa [hr.count_eq] using (Nat.add_right_cancel hc).symm
    · simpa [hr.occupied_eq] using (Nat.add_right_cancel ho).symm
  · have hlt := pos_lt hr.probed.length_pos (ops.hash key) D
    have hc := countP_set_slot hlt Slot.isOccupied (.occupied key value (ops.hash key))
    have ho := countP_set_slot hlt (fun s => !s.isEmpty) (.occupied key value (ops.hash key))
    have hcount := hr.count_eq
    have hocc := hr.occupied_eq
    simp only [hfree, Slot.isOccupied_occupied, Slot.isEmpty_occupied] at hc ho
    rw [heq]
    refine ⟨hr.probed.set_occupied hD hpath habsent, by simpa [cap] using hr.minCap_le, ?_, ?_, ?_⟩
    · simp at hc ⊢; omega
    · simp at ho ⊢
      split <;> simp_all
    · simp only [cap, List.length_set] at hroom ⊢
      split <;> omega

/-- Writing slot `i`, the only one that holds or will hold a key equal to `key`,
    changes the entries of the keys equal to `key` and no others. -/
theorem Inv.stored_set {t t' : Table K V} (hi : t.Inv ops) (hi' : t'.Inv ops) {i : Nat}
    {s : Slot K V} (hlt : i < t.slots.length) (hslots : t'.slots = t.slots.set i s) {key : K}
    (hold : ∀ {k v h}, t.slot i = .occupied k v h → ops.equal k key = true)
    (hnew : ∀ {k v h}, s = .occupied k v h → ops.equal k key = true)
    (hother : ∀ {j k v h}, t.slot j = .occupied k v h → ops.equal k key = true → j = i)
    (key' : K) :
    t'.stored ops key' = if ops.equal key key' = true then s.entry else t.stored ops key' := by
  apply Option.ext
  rintro ⟨k', v'⟩
  rw [hi'.stored_eq_some_iff]
  simp only [slot, hslots, slotAt_set hlt]
  split
  · next hkey =>
    constructor
    · rintro ⟨j, h', hj, hk'⟩
      split at hj
      · rw [hj]; rfl
      · next hne => exact absurd (hother hj (ops.equal_trans hk' (ops.equal_symm hkey))) hne
    · intro hentry
      cases s with
      | empty => cases hentry
      | deleted => cases hentry
      | occupied k v h =>
        cases hentry
        exact ⟨i, h, by rw [if_pos rfl], ops.equal_trans (hnew rfl) hkey⟩
  · next hkey =>
    rw [hi.stored_eq_some_iff]
    constructor
    · rintro ⟨j, h', hj, hk'⟩
      split at hj
      · exact absurd (ops.equal_trans (ops.equal_symm (hnew hj)) hk') hkey
      · exact ⟨j, h', hj, hk'⟩
    · rintro ⟨j, h', hj, hk'⟩
      refine ⟨j, h', ?_, hk'⟩
      rw [if_neg]
      · exact hj
      · rintro rfl
        exact hkey (ops.equal_trans (ops.equal_symm (hold hj)) hk')

theorem stored_reserve {t : Table K V} (hi : t.Inv ops) (key : K) :
    t.reserve.stored ops key = t.stored ops key := by
  obtain ⟨hr, -, -, hmem⟩ := reserve_spec hi
  apply Option.ext
  rintro ⟨k, v⟩
  rw [hr.stored_eq_some_iff, hi.stored_eq_some_iff]
  constructor
  · rintro ⟨i, h, hs, heq⟩
    obtain ⟨j, hj⟩ := (hmem k v h).mp ⟨i, hs⟩
    exact ⟨j, h, hj, heq⟩
  · rintro ⟨i, h, hs, heq⟩
    obtain ⟨j, hj⟩ := (hmem k v h).mpr ⟨i, hs⟩
    exact ⟨j, h, hj, heq⟩

/-- An insertion under a present key keeps the stored key. -/
theorem stored_insert {t : Table K V} (hi : t.Inv ops) (key : K) (value : V) (key' : K) :
    (t.insert ops key value).1.stored ops key' =
      if ops.equal key key' = true then
        some (((t.stored ops key).map Prod.fst).getD key, value)
      else t.stored ops key' := by
  obtain ⟨hr, -, -, -⟩ := reserve_spec hi
  have hinv := insert_inv hi key value
  rw [← stored_reserve hi key, ← stored_reserve hi key']
  rcases insert_cases hi key value with
    ⟨i, k, v, h, hs, hk, heq⟩ | ⟨habsent, D, hD, hfree, -, heq⟩
  · rw [heq] at hinv ⊢
    rw [hr.stored_eq_some_iff.mpr ⟨i, h, hs, hk⟩]
    refine hr.stored_set hinv (slotAt_lt (by rw [slot] at hs; rw [hs]; simp)) rfl ?_ ?_ ?_ key'
    · intro k' v' h' hs'
      rw [hs] at hs'
      cases hs'
      exact hk
    · intro k' v' h' hs'
      cases hs'
      exact hk
    · intro j k' v' h' hs' hk'
      exact hr.probed.distinct hs' hs (ops.equal_trans hk' (ops.equal_symm hk))
  · have hnone : t.reserve.stored ops key = none := by
      rw [Option.eq_none_iff_forall_ne_some]
      rintro ⟨k, v⟩ hsome
      obtain ⟨i, h, hs, hk⟩ := hr.stored_eq_some_iff.mp hsome
      rw [habsent hs] at hk
      cases hk
    rw [heq] at hinv ⊢
    rw [hnone]
    refine hr.stored_set hinv (pos_lt hr.probed.length_pos _ _) rfl ?_ ?_ ?_ key'
    · intro k' v' h' hs'
      rw [slot] at hs'
      rw [hs'] at hfree
      cases hfree
    · intro k' v' h' hs'
      cases hs'
      exact ops.equal_refl key
    · intro j k' v' h' hs' hk'
      rw [habsent hs'] at hk'
      cases hk'

theorem lookup_insert {t : Table K V} (hi : t.Inv ops) (key : K) (value : V) (key' : K) :
    (t.insert ops key value).1.lookup ops key' =
      if ops.equal key key' = true then some value else t.lookup ops key' := by
  rw [lookup_eq_stored, stored_insert hi, lookup_eq_stored]
  split <;> rfl

/-- Turning a live slot into a tombstone keeps the invariant. -/
theorem Inv.set_deleted {t : Table K V} (hi : t.Inv ops) {i : Nat} {k : K} {v : V} {h : UInt32}
    (hs : t.slot i = .occupied k v h) :
    ({ t with slots := t.slots.set i .deleted, count := t.count - 1 } : Table K V).Inv ops := by
  rw [slot] at hs
  have hlt : i < t.slots.length := slotAt_lt (by rw [hs]; simp)
  have hc := countP_set_slot hlt Slot.isOccupied (.deleted : Slot K V)
  have ho := countP_set_slot hlt (fun s => !s.isEmpty) (.deleted : Slot K V)
  have hcount := hi.count_eq
  have hocc := hi.occupied_eq
  simp only [hs, Slot.isOccupied_occupied, Slot.isOccupied_deleted, Slot.isEmpty_occupied,
    Slot.isEmpty_deleted] at hc ho
  refine ⟨hi.probed.set_deleted hlt, by simpa [cap] using hi.minCap_le, ?_, ?_,
    by simpa [cap] using hi.load⟩
  · simp at hc ⊢; omega
  · simp at ho ⊢; omega

theorem iterRemove_inv {t : Table K V} (hi : t.Inv ops) {it : Iter} {k : K} {v : V} {h : UInt32}
    (hs : t.slot it.current = .occupied k v h) : (t.iterRemove it).1.Inv ops := by
  rw [iterRemove]
  split
  · exact hi.set_deleted hs
  · exact hi

/-- A tombstone over the entry of `k` removes exactly the keys equal to `k`. -/
theorem Inv.stored_set_deleted {t : Table K V} (hi : t.Inv ops) {i : Nat} {k : K} {v : V}
    {h : UInt32} (hs : t.slot i = .occupied k v h) (key : K) :
    ({ t with slots := t.slots.set i .deleted, count := t.count - 1 } : Table K V).stored ops key =
      if ops.equal k key = true then none else t.stored ops key := by
  refine hi.stored_set (hi.set_deleted hs) (slotAt_lt (by rw [slot] at hs; rw [hs]; simp)) rfl
    ?_ ?_ ?_ key
  · intro k' v' h' hs'
    rw [hs] at hs'
    cases hs'
    exact ops.equal_refl k
  · intro k' v' h' hs'
    cases hs'
  · intro j k' v' h' hs' hk'
    exact hi.probed.distinct hs' hs hk'

theorem Inv.lookup_set_deleted {t : Table K V} (hi : t.Inv ops) {i : Nat} {k : K} {v : V}
    {h : UInt32} (hs : t.slot i = .occupied k v h) (key : K) :
    ({ t with slots := t.slots.set i .deleted, count := t.count - 1 } : Table K V).lookup ops key =
      if ops.equal k key = true then none else t.lookup ops key := by
  rw [lookup_eq_stored, hi.stored_set_deleted hs, lookup_eq_stored]
  split <;> rfl

/-- What a removal does. -/
theorem remove_cases {t : Table K V} (hi : t.Inv ops) (key : K) :
    (t.stored ops key = none ∧ t.remove ops key = (t, none)) ∨
    ∃ i k v h, t.slot i = .occupied k v h ∧ ops.equal k key = true ∧
      t.remove ops key =
        ({ t with slots := t.slots.set i .deleted, count := t.count - 1 }, some (k, v)) := by
  cases hfind : (t.find ops key (ops.hash key)).1 with
  | none => exact .inl ⟨by simp only [stored, hfind]; rfl, by simp only [remove, hfind]⟩
  | some i =>
    obtain ⟨k, v, h, hs, heq⟩ := hi.find_fst_eq_some_iff.mp hfind
    exact .inr ⟨i, k, v, h, hs, heq, by simp [remove, hfind, hs]⟩

theorem remove_inv {t : Table K V} (hi : t.Inv ops) (key : K) : (t.remove ops key).1.Inv ops := by
  rcases remove_cases hi key with ⟨-, heq⟩ | ⟨i, k, v, h, hs, -, heq⟩
  · rw [heq]; exact hi
  · rw [heq]; exact hi.set_deleted hs

/-- The destructors receive the entry a removal drops. -/
theorem remove_snd {t : Table K V} (hi : t.Inv ops) (key : K) :
    (t.remove ops key).2 = t.stored ops key := by
  rcases remove_cases hi key with ⟨hnone, heq⟩ | ⟨i, k, v, h, hs, hk, heq⟩
  · rw [heq, hnone]
  · rw [heq, hi.stored_eq_some_iff.mpr ⟨i, h, hs, hk⟩]

theorem Inv.stored_congr {t : Table K V} (hi : t.Inv ops) {key key' : K}
    (h : ops.equal key key' = true) : t.stored ops key = t.stored ops key' := by
  apply Option.ext
  rintro ⟨k, v⟩
  rw [hi.stored_eq_some_iff, hi.stored_eq_some_iff]
  have hiff : ops.equal k key = true ↔ ops.equal k key' = true :=
    ⟨fun hk => ops.equal_trans hk h, fun hk => ops.equal_trans hk (ops.equal_symm h)⟩
  simp only [hiff]

theorem stored_remove {t : Table K V} (hi : t.Inv ops) (key key' : K) :
    (t.remove ops key).1.stored ops key' =
      if ops.equal key key' = true then none else t.stored ops key' := by
  rcases remove_cases hi key with ⟨hnone, heq⟩ | ⟨i, k, v, h, hs, hk, heq⟩
  · rw [heq]
    split
    · next hkey => rw [← hi.stored_congr hkey, hnone]
    · rfl
  · rw [heq, hi.stored_set_deleted hs]
    have hiff : ops.equal k key' = true ↔ ops.equal key key' = true :=
      ⟨ops.equal_trans (ops.equal_symm hk), ops.equal_trans hk⟩
    simp only [hiff]

theorem lookup_remove {t : Table K V} (hi : t.Inv ops) (key key' : K) :
    (t.remove ops key).1.lookup ops key' =
      if ops.equal key key' = true then none else t.lookup ops key' := by
  rw [lookup_eq_stored, stored_remove hi, lookup_eq_stored]
  split <;> rfl

theorem mem_entries_iff {t : Table K V} {k : K} {v : V} :
    (k, v) ∈ t.entries ↔ ∃ i h, t.slot i = .occupied k v h := by
  simp only [entries, List.mem_filterMap]
  constructor
  · rintro ⟨s, hs, hentry⟩
    obtain ⟨i, _, rfl⟩ := exists_slotAt_of_mem hs
    cases hsi : slotAt t.slots i with
    | empty => rw [hsi] at hentry; cases hentry
    | deleted => rw [hsi] at hentry; cases hentry
    | occupied k' v' h =>
      rw [hsi] at hentry
      cases hentry
      exact ⟨i, h, hsi⟩
  · rintro ⟨i, h, hs⟩
    exact ⟨_, slotAt_mem (by rw [slot] at hs; rw [hs]; simp), by rw [slot] at hs; rw [hs]; rfl⟩

theorem length_entries (t : Table K V) : t.entries.length = t.slots.countP Slot.isOccupied := by
  rw [entries]
  generalize t.slots = slots
  induction slots with
  | nil => rfl
  | cons s slots ih => cases s <;> simp [List.filterMap_cons, List.countP_cons, ih]

end Table

end Softgre
