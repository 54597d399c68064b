-- SUMMARY: The counters of the hash table, and the correctness of rehashing.
import Softgre.Hashmap.Invariant

/-!
# Counters and rehashing

`Table.Inv` is the whole representation invariant. The load bound leaves an
empty slot in every table, which is what ends a probe.

A rehash walks over the old slots and places every live one in a fresh array.
`Rehashed` relates the array built so far to the old slots visited so far.
-/

namespace Softgre

variable {K V : Type} {ops : KeyOps K}

/-- The representation invariant of a table. -/
structure Table.Inv (ops : KeyOps K) (t : Table K V) : Prop where
  probed : Probed ops t.slots
  minCap_le : Table.minCap ≤ t.cap
  count_eq : t.count = t.slots.countP Slot.isOccupied
  occupied_eq : t.occupied = t.slots.countP (fun s => !s.isEmpty)
  load : 4 * t.occupied < 3 * t.cap

/-- If fewer slots than there are satisfy `p`, some slot does not. -/
theorem exists_slotAt_not {slots : List (Slot K V)} {p : Slot K V → Bool}
    (h : slots.countP p < slots.length) : ∃ i < slots.length, p (slotAt slots i) = false := by
  by_contra hall
  have hevery : ∀ s ∈ slots, p s = true := by
    intro s hs
    obtain ⟨i, hi, rfl⟩ := exists_slotAt_of_mem hs
    by_contra hp
    exact hall ⟨i, hi, by simpa using hp⟩
  rw [List.countP_eq_length.mpr hevery] at h
  exact absurd h (Nat.lt_irrefl _)

theorem Table.Inv.exists_empty {t : Table K V} (hi : t.Inv ops) :
    ∃ i < t.slots.length, slotAt t.slots i = .empty := by
  have hcount : t.slots.countP (fun s => !s.isEmpty) < t.slots.length := by
    have h1 := hi.occupied_eq
    have h2 := hi.load
    have h3 := hi.minCap_le
    simp only [Table.cap, Table.minCap] at h2 h3
    omega
  obtain ⟨i, hlt, hempty⟩ := exists_slotAt_not hcount
  refine ⟨i, hlt, ?_⟩
  cases hs : slotAt t.slots i with
  | empty => rfl
  | deleted => rw [hs] at hempty; cases hempty
  | occupied k v h => rw [hs] at hempty; cases hempty

/-- There are never more live slots than slots in use. -/
theorem countP_isOccupied_le (slots : List (Slot K V)) :
    slots.countP Slot.isOccupied ≤ slots.countP (fun s => !s.isEmpty) := by
  apply List.countP_mono_left
  intro s _ hs
  cases s <;> simp_all

/-- How writing a slot changes a count. -/
theorem countP_set_slot {slots : List (Slot K V)} {i : Nat} (hi : i < slots.length)
    (p : Slot K V → Bool) (s : Slot K V) :
    (slots.set i s).countP p + (if p (slotAt slots i) then 1 else 0) =
      slots.countP p + (if p s then 1 else 0) := by
  have hslot : slotAt slots i = slots[i] := by
    simp [slotAt, List.getD_eq_getElem?_getD, List.getElem?_eq_getElem hi]
  rw [List.countP_set hi, hslot]
  have hle : (if p slots[i] = true then 1 else 0) ≤ slots.countP p := by
    split
    · next hp => exact List.countP_pos_iff.mpr ⟨_, List.getElem_mem hi, hp⟩
    · exact Nat.zero_le _
  omega

/-! ## Placing one entry -/

theorem placeFrom_spec {slots : List (Slot K V)} {n : Nat} (hpow : slots.length = 2 ^ n)
    (hash : UInt32) (steps d : Nat) :
    ∃ D, d ≤ D ∧ D ≤ d + steps ∧
      Table.placeFrom slots steps (pos slots hash d) = pos slots hash D ∧
      (∀ e, d ≤ e → e < D → (slotAt slots (pos slots hash e)).isOccupied = true) ∧
      (D < d + steps → (slotAt slots (pos slots hash D)).isOccupied = false) := by
  induction steps generalizing d with
  | zero => exact ⟨d, le_refl d, le_refl d, rfl, fun e h1 h2 => absurd h1 (by omega), by omega⟩
  | succ steps ih =>
    simp only [Table.placeFrom]
    split
    · next hocc =>
      obtain ⟨D, h1, h2, hrun, hbefore, hstop⟩ := ih (d + 1)
      refine ⟨D, by omega, by omega, by rw [next_pos hpow, hrun], fun e he1 he2 => ?_, fun h => ?_⟩
      · by_cases he : e = d
        · subst he; exact hocc
        · exact hbefore e (by omega) he2
      · exact hstop (by omega)
    · next hfree =>
      exact ⟨d, le_refl d, by omega, rfl, fun e h1 h2 => absurd h1 (by omega),
        fun _ => by simpa using hfree⟩

/-- With a slot left, the inner loop of `resize` comes to one that is free. -/
theorem Probed.placeFrom_free {slots : List (Slot K V)} (hp : Probed ops slots)
    (hroom : slots.countP Slot.isOccupied < slots.length) (hash : UInt32) :
    ∃ D < slots.length,
      Table.placeFrom slots slots.length (hash.toNat &&& (slots.length - 1)) = pos slots hash D ∧
      (∀ d < D, (slotAt slots (pos slots hash d)).isOccupied = true) ∧
      (slotAt slots (pos slots hash D)).isOccupied = false := by
  obtain ⟨n, hpow⟩ := hp.pow
  obtain ⟨D, _, hD, hrun, hbefore, hstop⟩ := placeFrom_spec hpow hash slots.length 0
  have hlt : D < slots.length := by
    by_contra hge
    -- every slot would be occupied
    obtain ⟨i, hi, hfree⟩ := exists_slotAt_not hroom
    obtain ⟨d, hd, rfl⟩ := exists_pos_eq hash hi
    rw [hbefore d (Nat.zero_le d) (by omega)] at hfree
    cases hfree
  exact ⟨D, hlt, by rw [home_eq_pos hpow, hrun], fun d hd => hbefore d (Nat.zero_le d) hd,
    hstop (by omega)⟩

/-- Placing a fresh entry in a table with a slot left. -/
theorem Probed.place {slots : List (Slot K V)} (hp : Probed ops slots) {key : K} {v : V}
    (hroom : slots.countP Slot.isOccupied < slots.length) (habsent : Absent ops slots key) :
    ∃ j < slots.length, (slotAt slots j).isOccupied = false ∧
      Table.place slots (.occupied key v (ops.hash key)) =
        slots.set j (.occupied key v (ops.hash key)) ∧
      Probed ops (slots.set j (.occupied key v (ops.hash key))) := by
  obtain ⟨D, hlt, hrun, hbefore, hfree⟩ := hp.placeFrom_free hroom (ops.hash key)
  refine ⟨pos slots (ops.hash key) D, pos_lt hp.length_pos _ _, hfree, ?_, ?_⟩
  · simp only [Table.place, hrun]
  · refine hp.set_occupied hlt (fun d hd hempty => ?_) habsent
    have hocc := hbefore d hd
    rw [hempty] at hocc
    cases hocc

/-! ## Rehashing -/

/-- `slots` is the result of placing the live slots of `visited` in a fresh
    array. -/
structure Rehashed (ops : KeyOps K) (visited slots : List (Slot K V)) : Prop where
  probed : Probed ops slots
  count_eq : slots.countP Slot.isOccupied = visited.countP Slot.isOccupied
  no_deleted : ∀ i, slotAt slots i ≠ .deleted
  mem_iff : ∀ k v h, (∃ i, slotAt slots i = .occupied k v h) ↔ .occupied k v h ∈ visited

/-- A key behind a prefix of the array has no equal in that prefix. -/
theorem Probed.absent_prefix {visited rest : List (Slot K V)} {key : K} {v : V} {h : UInt32}
    (hp : Probed ops (visited ++ .occupied key v h :: rest)) {k' : K} {v' : V} {h' : UInt32}
    (hmem : .occupied k' v' h' ∈ visited) : ops.equal k' key = false := by
  obtain ⟨i, hi, hs⟩ := exists_slotAt_of_mem hmem
  by_contra hne
  have hleft : slotAt (visited ++ .occupied key v h :: rest) i = .occupied k' v' h' := by
    rw [← hs]
    simp [slotAt, List.getD_eq_getElem?_getD, List.getElem?_append_left hi]
  have hright : slotAt (visited ++ .occupied key v h :: rest) visited.length =
      .occupied key v h := by
    simp [slotAt, List.getD_eq_getElem?_getD]
  have := hp.distinct hleft hright (by simpa using hne)
  omega

theorem Rehashed.step {visited rest slots : List (Slot K V)} {s : Slot K V}
    (hr : Rehashed ops visited slots) (hp : Probed ops (visited ++ s :: rest))
    (hroom : (visited ++ s :: rest).countP Slot.isOccupied < slots.length + 1) :
    Rehashed ops (visited ++ [s]) (Table.place slots s) ∧
      (Table.place slots s).length = slots.length := by
  cases s with
  | empty =>
    exact ⟨⟨hr.probed, by simpa [Table.place] using hr.count_eq, hr.no_deleted,
      fun k v h => by simpa [Table.place] using hr.mem_iff k v h⟩, rfl⟩
  | deleted =>
    exact ⟨⟨hr.probed, by simpa [Table.place] using hr.count_eq, hr.no_deleted,
      fun k v h => by simpa [Table.place] using hr.mem_iff k v h⟩, rfl⟩
  | occupied key v h =>
    have hright : slotAt (visited ++ .occupied key v h :: rest) visited.length =
        .occupied key v h := by
      simp [slotAt, List.getD_eq_getElem?_getD]
    have hh : h = ops.hash key := hp.hash_eq hright
    subst hh
    have hcount : slots.countP Slot.isOccupied < slots.length := by
      have hc := hr.count_eq
      simp only [List.countP_append, List.countP_cons, Slot.isOccupied_occupied, if_true] at hroom
      omega
    have habsent : Absent ops slots key := by
      intro i k' v' h' hs
      exact hp.absent_prefix ((hr.mem_iff k' v' h').mp ⟨i, hs⟩)
    obtain ⟨j, hj, hfree, hplace, hprobed⟩ := hr.probed.place (v := v) hcount habsent
    rw [hplace]
    refine ⟨⟨hprobed, ?_, ?_, ?_⟩, by simp⟩
    · have hset := countP_set_slot hj Slot.isOccupied (.occupied key v (ops.hash key))
      rw [List.countP_append, ← hr.count_eq]
      simpa [hfree] using hset
    · intro i
      rw [slotAt_set hj]
      split
      · simp
      · exact hr.no_deleted i
    · intro k' v' h'
      simp only [List.mem_append, List.mem_singleton, ← hr.mem_iff]
      constructor
      · rintro ⟨i, hs⟩
        rw [slotAt_set hj] at hs
        split at hs
        · exact .inr hs.symm
        · exact .inl ⟨i, hs⟩
      · rintro (⟨i, hs⟩ | heq)
        · refine ⟨i, ?_⟩
          rw [slotAt_set hj, if_neg]
          · exact hs
          · rintro rfl; rw [hs] at hfree; cases hfree
        · exact ⟨j, by rw [slotAt_set hj, if_pos rfl, heq]⟩

theorem Rehashed.foldl {visited rest slots : List (Slot K V)} (hr : Rehashed ops visited slots)
    (hp : Probed ops (visited ++ rest))
    (hroom : (visited ++ rest).countP Slot.isOccupied < slots.length + 1) :
    Rehashed ops (visited ++ rest) (rest.foldl Table.place slots) ∧
      (rest.foldl Table.place slots).length = slots.length := by
  induction rest generalizing visited slots with
  | nil => simpa using hr
  | cons s rest ih =>
    obtain ⟨hstep, hlen⟩ := hr.step hp hroom
    have hassoc : visited ++ s :: rest = (visited ++ [s]) ++ rest := by simp
    rw [hassoc] at hp hroom ⊢
    obtain ⟨hfold, hlen'⟩ := ih hstep hp (by rwa [hlen])
    exact ⟨by simpa using hfold, by simpa using hlen'.trans hlen⟩

theorem Rehashed.replicate (ops : KeyOps K) (n : Nat) :
    Rehashed ops [] (List.replicate (2 ^ n) (Slot.empty : Slot K V)) := by
  have hempty : ∀ i, slotAt (List.replicate (2 ^ n) (Slot.empty : Slot K V)) i = .empty := by
    intro i
    simp only [slotAt, List.getD_eq_getElem?_getD, List.getElem?_replicate]
    split <;> rfl
  refine ⟨Probed.replicate_empty ops n, ?_, fun i => by rw [hempty]; simp, ?_⟩
  · simp [List.countP_replicate]
  · intro k v h
    simp [hempty]

/-- A table without tombstones uses exactly its live slots. -/
theorem countP_not_isEmpty_of_no_deleted {slots : List (Slot K V)}
    (h : ∀ i, slotAt slots i ≠ .deleted) :
    slots.countP (fun s => !s.isEmpty) = slots.countP Slot.isOccupied := by
  apply List.countP_congr
  intro s hs
  obtain ⟨i, _, rfl⟩ := exists_slotAt_of_mem hs
  cases hsi : slotAt slots i with
  | empty => simp
  | deleted => exact absurd hsi (h i)
  | occupied => simp

/-- A rehash into a large enough power of two re-establishes the invariant and
    keeps the live entries. -/
theorem Table.resize_spec {t : Table K V} (hp : Probed ops t.slots)
    (hcount : t.count = t.slots.countP Slot.isOccupied) {n : Nat} (hmin : Table.minCap ≤ 2 ^ n)
    (hload : 4 * t.count < 3 * 2 ^ n) :
    (t.resize (2 ^ n)).Inv ops ∧ (t.resize (2 ^ n)).cap = 2 ^ n ∧
      ∀ k v h, (∃ i, (t.resize (2 ^ n)).slot i = .occupied k v h) ↔
        ∃ i, t.slot i = .occupied k v h := by
  have hroom : ([] ++ t.slots).countP Slot.isOccupied <
      (List.replicate (2 ^ n) (Slot.empty : Slot K V)).length + 1 := by
    simp only [List.nil_append, List.length_replicate, ← hcount]
    omega
  have hfold := (Rehashed.replicate (V := V) ops n).foldl (by simpa using hp) hroom
  simp only [List.nil_append, List.length_replicate] at hfold
  obtain ⟨hr, hlen⟩ := hfold
  refine ⟨⟨hr.probed, ?_, ?_, ?_, ?_⟩, hlen, ?_⟩
  · simpa [Table.cap, Table.resize, hlen] using hmin
  · simp [Table.resize, hr.count_eq, hcount]
  · simp [Table.resize, countP_not_isEmpty_of_no_deleted hr.no_deleted, hr.count_eq, hcount]
  · simpa [Table.cap, Table.resize, hlen] using hload
  · intro k v h
    simp only [Table.slot, Table.resize, hr.mem_iff]
    constructor
    · intro hmem
      obtain ⟨i, _, hs⟩ := exists_slotAt_of_mem hmem
      exact ⟨i, hs⟩
    · rintro ⟨i, hs⟩
      rw [← hs]
      exact slotAt_mem (by rw [hs]; simp)

/-- The rehash before an insertion leaves room for one more entry. -/
theorem Table.reserve_spec {t : Table K V} (hi : t.Inv ops) :
    t.reserve.Inv ops ∧ 4 * (t.reserve.occupied + 1) < 3 * t.reserve.cap ∧
      t.reserve.count = t.count ∧
      ∀ k v h, (∃ i, t.reserve.slot i = .occupied k v h) ↔ ∃ i, t.slot i = .occupied k v h := by
  have hle := countP_isOccupied_le t.slots
  have hload := hi.load
  have hmin := hi.minCap_le
  have hcount := hi.count_eq
  have hocc := hi.occupied_eq
  obtain ⟨n, hpow⟩ := hi.probed.pow
  have hcap : t.cap = 2 ^ n := hpow
  have hmin' : 16 ≤ 2 ^ n := hcap ▸ hmin
  rw [hcap] at hload
  rw [Table.reserve]
  split
  · -- doubling and rehashing in place are the same step at two sizes
    have hsize : ∃ m, (if (t.count + 1) * 2 > t.cap then t.cap * 2 else t.cap) = 2 ^ m ∧
        16 ≤ 2 ^ m ∧ 4 * (t.count + 1) < 3 * 2 ^ m := by
      split
      · exact ⟨n + 1, by rw [hcap, Nat.pow_succ], by rw [Nat.pow_succ]; omega,
          by rw [Nat.pow_succ]; omega⟩
      · exact ⟨n, hcap, hmin', by omega⟩
    obtain ⟨m, hm, hmin, hroom⟩ := hsize
    rw [hm]
    obtain ⟨hinv, hcap', hmem⟩ := Table.resize_spec hi.probed hcount (n := m) hmin (by omega)
    exact ⟨hinv, by rw [hcap']; exact hroom, rfl, hmem⟩
  · exact ⟨hi, by omega, rfl, fun _ _ _ => Iff.rfl⟩

end Softgre
