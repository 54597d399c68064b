-- SUMMARY: The representation invariant of the hash table and its preservation by every operation.
import Softgre.Hashmap.Table
import Mathlib.Data.Nat.ModEq
import Mathlib.Algebra.Order.Group.Nat
import Mathlib.Tactic.Ring

/-!
# The representation invariant

`Probed` is the part of the invariant that speaks about the layout: every live
entry can be reached from its home position without crossing an empty slot, and
no two live entries have equal keys. `Table.Inv` adds the counters.

Positions are counted as probe distances: the slot at distance `d` from hash
`h` is `pos slots h d`.
-/

namespace Softgre

variable {K V : Type} {ops : KeyOps K}

/-! ## Slots and positions -/

theorem slotAt_set {slots : List (Slot K V)} {i : Nat} (hi : i < slots.length) (s : Slot K V)
    (j : Nat) : slotAt (slots.set i s) j = if j = i then s else slotAt slots j := by
  simp only [slotAt, List.getD_eq_getElem?_getD, List.getElem?_set]
  by_cases h : i = j
  · subst h; simp [hi]
  · simp [h, Ne.symm h]

theorem slotAt_lt {slots : List (Slot K V)} {i : Nat} (h : slotAt slots i ≠ .empty) :
    i < slots.length := by
  by_contra hge
  exact h (by simp [slotAt, List.getD_eq_getElem?_getD, List.getElem?_eq_none (Nat.le_of_not_lt hge)])

theorem slotAt_mem {slots : List (Slot K V)} {i : Nat} (h : slotAt slots i ≠ .empty) :
    slotAt slots i ∈ slots := by
  have hi := slotAt_lt h
  simp [slotAt, List.getD_eq_getElem?_getD, List.getElem?_eq_getElem hi]

theorem exists_slotAt_of_mem {slots : List (Slot K V)} {s : Slot K V} (h : s ∈ slots) :
    ∃ i < slots.length, slotAt slots i = s := by
  obtain ⟨i, hi, rfl⟩ := List.mem_iff_getElem.mp h
  exact ⟨i, hi, by simp [slotAt, List.getD_eq_getElem?_getD, List.getElem?_eq_getElem hi]⟩

/-- The slot index at probe distance `d` from the home position of hash `h`. -/
def pos (slots : List (Slot K V)) (h : UInt32) (d : Nat) : Nat := (h.toNat + d) % slots.length

theorem pos_set (slots : List (Slot K V)) (i : Nat) (s : Slot K V) (h : UInt32) (d : Nat) :
    pos (slots.set i s) h d = pos slots h d := by
  simp [pos]

theorem pos_lt {slots : List (Slot K V)} (hpos : 0 < slots.length) (h : UInt32) (d : Nat) :
    pos slots h d < slots.length := Nat.mod_lt _ hpos

/-- The masking of the source is reduction modulo the capacity. -/
theorem home_eq_pos {slots : List (Slot K V)} {n : Nat} (hpow : slots.length = 2 ^ n) (h : UInt32) :
    h.toNat &&& (slots.length - 1) = pos slots h 0 := by
  rw [pos, hpow, Nat.and_two_pow_sub_one_eq_mod, Nat.add_zero]

theorem next_pos {slots : List (Slot K V)} {n : Nat} (hpow : slots.length = 2 ^ n) (h : UInt32)
    (d : Nat) : (pos slots h d + 1) &&& (slots.length - 1) = pos slots h (d + 1) := by
  rw [pos, pos, hpow, Nat.and_two_pow_sub_one_eq_mod, Nat.mod_add_mod, Nat.add_assoc]

/-- Every index is at some probe distance below the capacity. -/
theorem exists_pos_eq {slots : List (Slot K V)} (h : UInt32) {i : Nat} (hi : i < slots.length) :
    ∃ d < slots.length, pos slots h d = i := by
  set c := slots.length with hc
  have hpos : 0 < c := by omega
  refine ⟨(i + (c - h.toNat % c)) % c, Nat.mod_lt _ hpos, ?_⟩
  have hmod : h.toNat % c < c := Nat.mod_lt _ hpos
  rw [pos, ← hc, Nat.add_mod_mod, ← Nat.mod_add_mod]
  have : h.toNat % c + (i + (c - h.toNat % c)) = i + c := by omega
  rw [this, Nat.add_mod_right, Nat.mod_eq_of_lt hi]

/-! ## Layout invariant -/

/-- The layout invariant of an array of slots. -/
structure Probed (ops : KeyOps K) (slots : List (Slot K V)) : Prop where
  pow : ∃ n, slots.length = 2 ^ n
  hash_eq : ∀ {i k v h}, slotAt slots i = .occupied k v h → h = ops.hash k
  trail : ∀ {i k v h}, slotAt slots i = .occupied k v h →
    ∃ D < slots.length, pos slots h D = i ∧ ∀ d < D, slotAt slots (pos slots h d) ≠ .empty
  distinct : ∀ {i j k v h k' v' h'}, slotAt slots i = .occupied k v h →
    slotAt slots j = .occupied k' v' h' → ops.equal k k' = true → i = j

/-- No live slot has a key equal to `key`. -/
def Absent (ops : KeyOps K) (slots : List (Slot K V)) (key : K) : Prop :=
  ∀ {i k v h}, slotAt slots i = .occupied k v h → ops.equal k key = false

theorem Probed.length_pos {slots : List (Slot K V)} (hp : Probed ops slots) : 0 < slots.length := by
  obtain ⟨n, hn⟩ := hp.pow
  rw [hn]
  exact Nat.two_pow_pos n

/-- Writing a fresh key into a slot that its probe path reaches keeps the
    layout invariant. This is the step that insertion and rehashing share. -/
theorem Probed.set_occupied {slots : List (Slot K V)} (hp : Probed ops slots) {key : K} {v : V}
    {D : Nat} (hD : D < slots.length)
    (hpath : ∀ d < D, slotAt slots (pos slots (ops.hash key) d) ≠ .empty)
    (habsent : Absent ops slots key) :
    Probed ops (slots.set (pos slots (ops.hash key) D) (.occupied key v (ops.hash key))) := by
  have hj : pos slots (ops.hash key) D < slots.length := pos_lt hp.length_pos _ _
  -- a slot that was not empty is not empty afterwards
  have hkeep : ∀ i, slotAt slots i ≠ .empty →
      slotAt (slots.set (pos slots (ops.hash key) D) (.occupied key v (ops.hash key))) i ≠
        .empty := by
    intro i hi
    rw [slotAt_set hj]
    split
    · simp
    · exact hi
  refine ⟨by simpa using hp.pow, ?_, ?_, ?_⟩
  · intro i k v' h hs
    rw [slotAt_set hj] at hs
    split at hs
    · cases hs; rfl
    · exact hp.hash_eq hs
  · intro i k v' h hs
    rw [slotAt_set hj] at hs
    split at hs
    · next heq =>
      cases hs
      exact ⟨D, by simpa using hD, by rw [pos_set, heq], fun d hd => by
        rw [pos_set]; exact hkeep _ (hpath d hd)⟩
    · obtain ⟨D', hD', hpos', hpath'⟩ := hp.trail hs
      exact ⟨D', by simpa using hD', by rw [pos_set, hpos'], fun d hd => by
        rw [pos_set]; exact hkeep _ (hpath' d hd)⟩
  · intro i j k v₁ h₁ k' v₂ h₂ hi hj' heq
    rw [slotAt_set hj] at hi hj'
    split at hi <;> split at hj'
    · next h1 h2 => rw [h1, h2]
    · cases hi
      have := habsent hj'
      rw [ops.equal_symm heq] at this
      cases this
    · cases hj'
      have := habsent hi
      rw [heq] at this
      cases this
    · exact hp.distinct hi hj' heq

/-- Turning a slot into a tombstone keeps the layout invariant. -/
theorem Probed.set_deleted {slots : List (Slot K V)} (hp : Probed ops slots) {i : Nat}
    (hi : i < slots.length) : Probed ops (slots.set i .deleted) := by
  have hocc : ∀ {j k v h}, slotAt (slots.set i .deleted) j = .occupied k v h →
      slotAt slots j = .occupied k v h := by
    intro j k v h hs
    rw [slotAt_set hi] at hs
    split at hs
    · cases hs
    · exact hs
  refine ⟨by simpa using hp.pow, fun hs => hp.hash_eq (hocc hs), ?_, ?_⟩
  · intro j k v h hs
    obtain ⟨D, hD, hpos, hpath⟩ := hp.trail (hocc hs)
    refine ⟨D, by simpa using hD, by rw [pos_set, hpos], fun d hd => ?_⟩
    rw [pos_set, slotAt_set hi]
    split
    · simp
    · exact hpath d hd
  · intro j j' k v h k' v' h' hs hs' heq
    exact hp.distinct (hocc hs) (hocc hs') heq

/-- Replacing the value of a live slot keeps the layout invariant. -/
theorem Probed.set_value {slots : List (Slot K V)} (hp : Probed ops slots) {i : Nat} {k : K}
    {v v' : V} {h : UInt32} (hs : slotAt slots i = .occupied k v h) :
    Probed ops (slots.set i (.occupied k v' h)) := by
  have hi : i < slots.length := slotAt_lt (by rw [hs]; simp)
  have hocc : ∀ {j k₁ v₁ h₁}, slotAt (slots.set i (.occupied k v' h)) j = .occupied k₁ v₁ h₁ →
      ∃ v₂, slotAt slots j = .occupied k₁ v₂ h₁ := by
    intro j k₁ v₁ h₁ hj
    rw [slotAt_set hi] at hj
    split at hj
    · next heq => cases hj; exact ⟨v, heq ▸ hs⟩
    · exact ⟨v₁, hj⟩
  refine ⟨by simpa using hp.pow, ?_, ?_, ?_⟩
  · intro j k₁ v₁ h₁ hj
    obtain ⟨v₂, hj⟩ := hocc hj
    exact hp.hash_eq hj
  · intro j k₁ v₁ h₁ hj
    obtain ⟨v₂, hj⟩ := hocc hj
    obtain ⟨D, hD, hpos, hpath⟩ := hp.trail hj
    refine ⟨D, by simpa using hD, by rw [pos_set, hpos], fun d hd => ?_⟩
    rw [pos_set, slotAt_set hi]
    split
    · simp
    · exact hpath d hd
  · intro j j' k₁ v₁ h₁ k₂ v₂ h₂ hj hj' heq
    obtain ⟨_, hj⟩ := hocc hj
    obtain ⟨_, hj'⟩ := hocc hj'
    exact hp.distinct hj hj' heq

theorem Probed.replicate_empty (ops : KeyOps K) (n : Nat) :
    Probed ops (List.replicate (2 ^ n) (Slot.empty : Slot K V)) := by
  have hempty : ∀ i, slotAt (List.replicate (2 ^ n) (Slot.empty : Slot K V)) i = .empty := by
    intro i
    simp only [slotAt, List.getD_eq_getElem?_getD, List.getElem?_replicate]
    split <;> rfl
  refine ⟨⟨n, by simp⟩, ?_, ?_, ?_⟩
  · intro i k v h hs; rw [hempty] at hs; cases hs
  · intro i k v h hs; rw [hempty] at hs; cases hs
  · intro i j k v h k' v' h' hs _ _; rw [hempty] at hs; cases hs

/-! ## Probing -/

/-- Slot `i` holds `key`. -/
def Matches (ops : KeyOps K) (slots : List (Slot K V)) (key : K) (hash : UInt32) (i : Nat) : Prop :=
  ∃ k v, slotAt slots i = .occupied k v hash ∧ ops.equal k key = true

/-- What a probe over the distances from `d` to `d + probes` can return: the slot
    of a matching key; or the first empty slot stopped it and the slot reported
    for insertion lies on the path up to there; or it met neither. -/
inductive FindOutcome (ops : KeyOps K) (slots : List (Slot K V)) (key : K) (hash : UInt32)
    (d probes : Nat) : Option Nat × Option Nat → Prop where
  | found (d' : Nat) (insertAt : Option Nat) (hmatch : Matches ops slots key hash (pos slots hash d')) :
      FindOutcome ops slots key hash d probes (some (pos slots hash d'), insertAt)
  | stopped (D d' : Nat) (hlo : d ≤ D) (hhi : D < d + probes)
      (hempty : slotAt slots (pos slots hash D) = .empty)
      (hbefore : ∀ e, d ≤ e → e < D → slotAt slots (pos slots hash e) ≠ .empty ∧
        ¬ Matches ops slots key hash (pos slots hash e))
      (hle : d' ≤ D) (hfree : (slotAt slots (pos slots hash d')).isOccupied = false) :
      FindOutcome ops slots key hash d probes (none, some (pos slots hash d'))
  | exhausted (insertAt : Option Nat)
      (hfull : ∀ e, d ≤ e → e < d + probes → slotAt slots (pos slots hash e) ≠ .empty) :
      FindOutcome ops slots key hash d probes (none, insertAt)

/-- A probe that continues one slot further keeps its outcome. -/
theorem FindOutcome.extend {slots : List (Slot K V)} {key : K} {hash : UInt32} {d probes : Nat}
    {r : Option Nat × Option Nat} (h : FindOutcome ops slots key hash (d + 1) probes r)
    (hne : slotAt slots (pos slots hash d) ≠ .empty)
    (hno : ¬ Matches ops slots key hash (pos slots hash d)) :
    FindOutcome ops slots key hash d (probes + 1) r := by
  cases h with
  | found d' insertAt hmatch => exact .found d' insertAt hmatch
  | stopped D d' hlo hhi hempty hbefore hle hfree =>
    refine .stopped D d' (by omega) (by omega) hempty (fun e h1 h2 => ?_) hle hfree
    by_cases he : e = d
    · subst he; exact ⟨hne, hno⟩
    · exact hbefore e (by omega) h2
  | exhausted insertAt hfull =>
    refine .exhausted insertAt (fun e h1 h2 => ?_)
    by_cases he : e = d
    · subst he; exact hne
    · exact hfull e (by omega) (by omega)

theorem findFrom_outcome {slots : List (Slot K V)} {n : Nat} (hpow : slots.length = 2 ^ n) (key : K)
    (hash : UInt32) (probes d : Nat) (reusable : Option Nat)
    (hreuse : ∀ j, reusable = some j → ∃ d' < d, pos slots hash d' = j ∧
      (slotAt slots j).isOccupied = false) :
    FindOutcome ops slots key hash d probes
      (Table.findFrom ops slots key hash probes (pos slots hash d) reusable) := by
  induction probes generalizing d reusable with
  | zero => exact .exhausted _ (fun e h1 h2 => absurd h2 (by omega))
  | succ probes ih =>
    cases hs : slotAt slots (pos slots hash d) with
    | empty =>
      simp only [Table.findFrom, hs]
      have hstop : ∀ e, d ≤ e → e < d → slotAt slots (pos slots hash e) ≠ .empty ∧
          ¬ Matches ops slots key hash (pos slots hash e) := fun e h1 h2 => absurd h1 (by omega)
      cases hr : reusable with
      | none =>
        exact .stopped d d (le_refl d) (by omega) hs hstop (le_refl d) (by rw [hs]; rfl)
      | some j =>
        obtain ⟨d', hd', rfl, hfree⟩ := hreuse j hr
        exact .stopped d d' (le_refl d) (by omega) hs hstop (by omega) hfree
    | deleted =>
      have hne : slotAt slots (pos slots hash d) ≠ .empty := by rw [hs]; simp
      have hno : ¬ Matches ops slots key hash (pos slots hash d) := by
        rintro ⟨k, v, hk, _⟩; rw [hs] at hk; cases hk
      have hfree : (slotAt slots (pos slots hash d)).isOccupied = false := by rw [hs]; rfl
      simp only [Table.findFrom, hs, next_pos hpow]
      refine (ih (d + 1) _ fun j hj => ?_).extend hne hno
      cases hr : reusable with
      | none =>
        rw [hr] at hj
        cases hj
        exact ⟨d, by omega, rfl, hfree⟩
      | some j' =>
        rw [hr] at hj
        cases hj
        obtain ⟨d', hd', h⟩ := hreuse j' hr
        exact ⟨d', by omega, h⟩
    | occupied k v h =>
      have hne : slotAt slots (pos slots hash d) ≠ .empty := by rw [hs]; simp
      by_cases hmatch : h = hash ∧ ops.equal k key = true
      · have hm : Matches ops slots key hash (pos slots hash d) :=
          ⟨k, v, by rw [hs, hmatch.1], hmatch.2⟩
        simp only [Table.findFrom, hs, if_pos hmatch]
        exact .found d none hm
      · have hno : ¬ Matches ops slots key hash (pos slots hash d) := by
          rintro ⟨k', v', hk, he⟩
          rw [hs] at hk
          cases hk
          exact hmatch ⟨rfl, he⟩
        simp only [Table.findFrom, hs, if_neg hmatch, next_pos hpow]
        refine (ih (d + 1) reusable fun j hj => ?_).extend hne hno
        obtain ⟨d', hd', h⟩ := hreuse j hj
        exact ⟨d', by omega, h⟩

/-- With the layout invariant and an empty slot somewhere, a probe over the whole
    table either returns the one slot that holds the key, or the key is absent
    and the reported slot is free and reachable. -/
theorem Probed.find_spec {slots : List (Slot K V)} (hp : Probed ops slots)
    (hroom : ∃ i < slots.length, slotAt slots i = .empty) (key : K) :
    (∃ i insertAt, Table.findFrom ops slots key (ops.hash key) slots.length
          ((ops.hash key).toNat &&& (slots.length - 1)) none = (some i, insertAt) ∧
        Matches ops slots key (ops.hash key) i) ∨
    (Absent ops slots key ∧ ∃ D < slots.length,
      Table.findFrom ops slots key (ops.hash key) slots.length
          ((ops.hash key).toNat &&& (slots.length - 1)) none =
        (none, some (pos slots (ops.hash key) D)) ∧
      (slotAt slots (pos slots (ops.hash key) D)).isOccupied = false ∧
      ∀ d < D, slotAt slots (pos slots (ops.hash key) d) ≠ .empty) := by
  obtain ⟨n, hpow⟩ := hp.pow
  rw [home_eq_pos hpow]
  have hout : FindOutcome ops slots key (ops.hash key) 0 slots.length _ :=
    findFrom_outcome hpow key (ops.hash key) slots.length 0 none (by simp)
  generalize Table.findFrom ops slots key (ops.hash key) slots.length
    (pos slots (ops.hash key) 0) none = r at hout ⊢
  cases hout with
  | found d' insertAt hmatch => exact .inl ⟨_, _, rfl, hmatch⟩
  | exhausted insertAt hfull =>
    obtain ⟨i, hi, hempty⟩ := hroom
    obtain ⟨d, hd, rfl⟩ := exists_pos_eq (ops.hash key) hi
    exact absurd hempty (hfull d (Nat.zero_le d) (by omega))
  | stopped D d' _ hhi hempty hbefore hle hfree =>
    refine .inr ⟨?_, d', by omega, rfl, hfree, fun d hd => (hbefore d (Nat.zero_le d) (by omega)).1⟩
    -- a live slot with an equal key lies before the first empty slot of its own path
    intro i k v h hs
    by_contra hne
    have heq : ops.equal k key = true := by simpa using hne
    have hh : h = ops.hash key := (hp.hash_eq hs).trans (ops.hash_congr heq)
    subst hh
    obtain ⟨D', hD', hpos, hpath⟩ := hp.trail hs
    subst hpos
    rcases Nat.lt_trichotomy D' D with hlt | heq' | hgt
    · exact (hbefore D' (Nat.zero_le D') hlt).2 ⟨k, v, hs, heq⟩
    · subst heq'; rw [hempty] at hs; cases hs
    · exact hpath D hgt hempty

end Softgre
