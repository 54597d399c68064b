-- SUMMARY: The table invariant of the ledger: maps, heap, slots and ownership agree after every step.
import Softgre.Ledger.Machine

/-!
# The tables agree

`Store.Inv` ties the four tables together. A record on the heap is exactly a
tracked tunnel, so the other clauses speak about the heap only.
-/

namespace Softgre

open Base

variable {cfg : SoftgredConfig}

structure Store.Inv (cfg : SoftgredConfig) (st : Store) : Prop where
  tracked : ∀ {r p}, st.tunnels r = some p → ∃ t, st.heap p = some t ∧ t.remote = r
  live : ∀ {p t}, st.heap p = some t → st.tunnels t.remote = some p
  owner_iff : ∀ {m p}, st.owner m = some p ↔ ∃ t, st.heap p = some t ∧ m ∈ t.macs
  slot_iff : ∀ {id}, st.slots id = true ↔ ∃ p t, st.heap p = some t ∧ t.id = id
  id_lt : ∀ {p t}, st.heap p = some t → t.id < maxSlots
  id_inj : ∀ {p q t u}, st.heap p = some t → st.heap q = some u → t.id = u.id → p = q
  card_le : ∀ {p t}, st.heap p = some t → t.macs.card ≤ maxClients
  ifgre_eq : ∀ {p t}, st.heap p = some t → t.ifgre = tunnelName cfg t.id
  hooks_lt : ∀ {p t}, st.heap p = some t → t.hooks.toNat < 8
  fresh : ∀ {p}, st.next ≤ p → st.heap p = none

namespace Store

variable {st : Store} {p q : Ptr} {t u : Tunnel} {m : CStr}

theorem heap_write (st : Store) (p : Ptr) (t : Tunnel) (q : Ptr) :
    (st.write p t).heap q = if q = p then some t else st.heap q := by
  simp only [write, Function.update_apply]

/-- A record after a write is the written one, or was there before. -/
theorem heap_write_cases (h : (st.write p t).heap q = some u) :
    (q = p ∧ u = t) ∨ (q ≠ p ∧ st.heap q = some u) := by
  rw [heap_write] at h
  split at h
  · next heq => exact .inl ⟨heq, (Option.some.inj h).symm⟩
  · next hne => exact .inr ⟨hne, h⟩

theorem heap_track_iff (hnext : st.heap st.next = none) : (st.track t).heap q = some u ↔
    (q = st.next ∧ u = t) ∨ st.heap q = some u := by
  simp only [track, Function.update_apply]
  by_cases hq : q = st.next
  · simp [hq, hnext, eq_comm]
  · simp [hq]

theorem tunnels_track (r : InAddr) : (st.track t).tunnels r =
    if r = t.remote then some st.next else st.tunnels r := by
  simp only [track, Function.update_apply]

theorem slots_track (i : Nat) :
    (st.track t).slots i = if i = t.id then true else st.slots i := by
  simp only [track, Function.update_apply]

theorem heap_untrack_iff : (st.untrack p t).heap q = some u ↔ q ≠ p ∧ st.heap q = some u := by
  simp only [untrack, Function.update_apply]
  by_cases hq : q = p
  · simp [hq]
  · simp [hq]

theorem tunnels_untrack (r : InAddr) : (st.untrack p t).tunnels r =
    if r = t.remote then none else st.tunnels r := by
  simp only [untrack, Function.update_apply]

theorem slots_untrack (i : Nat) :
    (st.untrack p t).slots i = if i = t.id then false else st.slots i := by
  simp only [untrack, Function.update_apply]

namespace Inv

theorem heap_inj (hst : st.Inv cfg) (hp : st.heap p = some t) (hq : st.heap q = some u)
    (hr : t.remote = u.remote) : p = q := by
  have h := hst.live hp
  rw [hr, hst.live hq] at h
  exact (Option.some.inj h).symm

/-- Tunnels with the same interface name are the same tunnel. -/
theorem ifgre_inj (hst : st.Inv cfg) (hp : st.heap p = some t) (hq : st.heap q = some u)
    (hname : t.ifgre = u.ifgre) : p = q := by
  rw [hst.ifgre_eq hp, hst.ifgre_eq hq] at hname
  exact hst.id_inj hp hq (tunnelName_injective cfg (hst.id_lt hp) (hst.id_lt hq) hname)

/-- Rewriting a record keeps the tables in agreement when the record keeps its
    identity and `owner` follows its addresses. -/
theorem rewrite (hst : st.Inv cfg) (hp : st.heap p = some t) (hremote : u.remote = t.remote)
    (hifgre : u.ifgre = t.ifgre) (hid : u.id = t.id) (hhooks : u.hooks.toNat < 8)
    (hcard : u.macs.card ≤ maxClients) {owner : CStr → Option Ptr}
    (howner : ∀ {m q}, owner m = some q ↔ ∃ v, (st.write p u).heap q = some v ∧ m ∈ v.macs) :
    ({ st.write p u with owner := owner } : Store).Inv cfg := by
  -- both heaps hold the same pointers, with the same identities
  have hto : ∀ {q v}, (st.write p u).heap q = some v → ∃ v', st.heap q = some v' ∧
      v.remote = v'.remote ∧ v.ifgre = v'.ifgre ∧ v.id = v'.id := by
    intro q v hv
    rcases heap_write_cases hv with ⟨rfl, rfl⟩ | ⟨-, hv⟩
    · exact ⟨t, hp, hremote, hifgre, hid⟩
    · exact ⟨v, hv, rfl, rfl, rfl⟩
  have hfrom : ∀ {q v}, st.heap q = some v → ∃ v', (st.write p u).heap q = some v' ∧
      v'.remote = v.remote ∧ v'.id = v.id := by
    intro q v hv
    by_cases hq : q = p
    · subst hq
      cases hp.symm.trans hv
      exact ⟨u, by rw [heap_write, if_pos rfl], hremote, hid⟩
    · exact ⟨v, by rw [heap_write, if_neg hq, hv], rfl, rfl⟩
  refine
    { tracked := fun h => ?_, live := fun h => ?_, owner_iff := howner,
      slot_iff := ⟨fun h => ?_, fun ⟨q, v, hv, hid⟩ => ?_⟩, id_lt := fun h => ?_,
      id_inj := fun h h' heq => ?_, card_le := fun h => ?_, ifgre_eq := fun h => ?_,
      hooks_lt := fun h => ?_, fresh := fun h => ?_ }
  · obtain ⟨v, hv, hr⟩ := hst.tracked h
    obtain ⟨v', hv', hr', -⟩ := hfrom hv
    exact ⟨v', hv', hr'.trans hr⟩
  · obtain ⟨v', hv', hr, -⟩ := hto h
    rw [hr]
    exact hst.live hv'
  · obtain ⟨q, v, hv, hid⟩ := hst.slot_iff.mp h
    obtain ⟨v', hv', -, hid'⟩ := hfrom hv
    exact ⟨q, v', hv', hid'.trans hid⟩
  · obtain ⟨v', hv', -, -, hid'⟩ := hto hv
    exact hst.slot_iff.mpr ⟨q, v', hv', hid'.symm.trans hid⟩
  · obtain ⟨v', hv', -, -, hid'⟩ := hto h
    exact hid' ▸ hst.id_lt hv'
  · obtain ⟨v, hv, -, -, hid⟩ := hto h
    obtain ⟨v', hv', -, -, hid'⟩ := hto h'
    exact hst.id_inj hv hv' (by rw [← hid, ← hid', heq])
  · rcases heap_write_cases h with ⟨-, rfl⟩ | ⟨-, hv⟩
    · exact hcard
    · exact hst.card_le hv
  · obtain ⟨v', hv', -, hname, hid'⟩ := hto h
    rw [hname, hid']
    exact hst.ifgre_eq hv'
  · rcases heap_write_cases h with ⟨-, rfl⟩ | ⟨-, hv⟩
    · exact hhooks
    · exact hst.hooks_lt hv
  · have hnone := hst.fresh h
    show (st.write p u).heap _ = none
    rw [heap_write]
    split
    · next heq => rw [heq, hp] at hnone; cases hnone
    · exact hnone

theorem write (hst : st.Inv cfg) (hp : st.heap p = some t) (hremote : u.remote = t.remote)
    (hifgre : u.ifgre = t.ifgre) (hid : u.id = t.id) (hmacs : u.macs = t.macs)
    (hhooks : u.hooks.toNat < 8) : (st.write p u).Inv cfg := by
  refine hst.rewrite hp hremote hifgre hid hhooks (hmacs ▸ hst.card_le hp) fun {m q} => ?_
  rw [hst.owner_iff, heap_write]
  by_cases hq : q = p
  · subst hq
    simp [hp, hmacs]
  · simp [hq]

theorem learn (hst : st.Inv cfg) (hp : st.heap p = some t) (hnone : st.owner m = none)
    (hroom : t.macs.card < maxClients) : (st.learn p t m).Inv cfg := by
  have hcard : (insert m t.macs).card ≤ maxClients := (Finset.card_insert_le _ _).trans hroom
  have hlt := hst.hooks_lt hp
  refine hst.rewrite (u := { t with macs := insert m t.macs }) hp rfl rfl rfl hlt hcard
    fun {m' q} => ?_
  rw [Function.update_apply, heap_write]
  have howner := hst.owner_iff (m := m') (p := q)
  by_cases hm : m' = m
  · subst hm
    rw [hnone] at howner
    by_cases hq : q = p
    · simp [hq]
    · simp only [if_true, if_neg hq, Option.some.injEq, Ne.symm hq, false_iff]
      intro h
      cases howner.mpr h
  · rw [if_neg hm, howner]
    by_cases hq : q = p
    · subst hq
      simp [hp, hm]
    · simp [hq]

theorem unlearn (hst : st.Inv cfg) (hp : st.heap p = some t) (hm : m ∈ t.macs) :
    (st.unlearn p t m).Inv cfg := by
  have hcard : (t.macs.erase m).card ≤ maxClients := Finset.card_erase_le.trans (hst.card_le hp)
  have hlt := hst.hooks_lt hp
  refine hst.rewrite (u := { t with macs := t.macs.erase m }) hp rfl rfl rfl hlt hcard
    fun {m' q} => ?_
  rw [Function.update_apply, heap_write]
  have howner := hst.owner_iff (m := m') (p := q)
  by_cases hm' : m' = m
  · subst hm'
    rw [hst.owner_iff.mpr ⟨t, hp, hm⟩] at howner
    by_cases hq : q = p
    · simp [hq]
    · simp only [if_true, if_neg hq, reduceCtorEq, false_iff]
      intro h
      exact hq (Option.some.inj (howner.mpr h)).symm
  · rw [if_neg hm', howner]
    by_cases hq : q = p
    · subst hq
      simp [hp, hm']
    · simp [hq]

theorem track (hst : st.Inv cfg) {r : InAddr} {id : Nat} (hnone : st.tunnels r = none)
    (hid : id < maxSlots) (hslot : st.slots id = false) :
    (st.track (.fresh cfg r id)).Inv cfg := by
  have hnext : st.heap st.next = none := hst.fresh (Nat.le_refl _)
  -- a record is the new one, or was there before under another remote and slot
  have hcases := fun {q v} => heap_track_iff (t := .fresh cfg r id) (q := q) (u := v) hnext
  have hne : ∀ {q v}, st.heap q = some v → v.remote ≠ r ∧ v.id ≠ id := by
    intro q v hv
    refine ⟨fun hr => ?_, fun hid => ?_⟩
    · have := hst.live hv
      rw [hr, hnone] at this
      cases this
    · have := hst.slot_iff.mpr ⟨q, v, hv, hid⟩
      rw [hslot] at this
      cases this
  refine
    { tracked := fun {r' q} h => ?_, live := fun {q v} h => ?_, owner_iff := fun {m q} => ?_,
      slot_iff := fun {i} => ?_, id_lt := fun h => ?_,
      id_inj := fun {q q' v v'} h h' heq => ?_, card_le := fun h => ?_, ifgre_eq := fun h => ?_,
      hooks_lt := fun h => ?_, fresh := fun {q} h => ?_ }
  · rw [tunnels_track] at h
    split at h
    · next hr =>
      cases h
      exact ⟨_, hcases.mpr (.inl ⟨rfl, rfl⟩), hr.symm⟩
    · obtain ⟨v, hv, hr⟩ := hst.tracked h
      exact ⟨v, hcases.mpr (.inr hv), hr⟩
  · rw [tunnels_track]
    rcases hcases.mp h with ⟨rfl, rfl⟩ | hv
    · exact if_pos rfl
    · exact (if_neg (hne hv).1).trans (hst.live hv)
  · refine hst.owner_iff.trans ⟨fun ⟨v, hv, hm⟩ => ⟨v, hcases.mpr (.inr hv), hm⟩,
      fun ⟨v, hv, hm⟩ => ?_⟩
    rcases hcases.mp hv with ⟨-, rfl⟩ | hv
    · cases hm
    · exact ⟨v, hv, hm⟩
  · rw [slots_track]
    by_cases hi : i = id
    · subst hi
      exact iff_of_true (if_pos rfl) ⟨st.next, .fresh cfg r i, hcases.mpr (.inl ⟨rfl, rfl⟩), rfl⟩
    · rw [if_neg (show i ≠ (Tunnel.fresh cfg r id).id from hi), hst.slot_iff]
      refine ⟨fun ⟨q, v, hv, hid⟩ => ⟨q, v, hcases.mpr (.inr hv), hid⟩, fun ⟨q, v, hv, hid'⟩ => ?_⟩
      rcases hcases.mp hv with ⟨-, rfl⟩ | hv
      · exact absurd hid'.symm hi
      · exact ⟨q, v, hv, hid'⟩
  · rcases hcases.mp h with ⟨-, rfl⟩ | hv
    · exact hid
    · exact hst.id_lt hv
  · rcases hcases.mp h with ⟨rfl, rfl⟩ | hv <;> rcases hcases.mp h' with ⟨rfl, rfl⟩ | hv'
    · rfl
    · exact absurd heq.symm (hne hv').2
    · exact absurd heq (hne hv).2
    · exact hst.id_inj hv hv' heq
  · rcases hcases.mp h with ⟨-, rfl⟩ | hv
    · exact Nat.zero_le _
    · exact hst.card_le hv
  · rcases hcases.mp h with ⟨-, rfl⟩ | hv
    · rfl
    · exact hst.ifgre_eq hv
  · rcases hcases.mp h with ⟨-, rfl⟩ | hv
    · exact Nat.zero_lt_succ _
    · exact hst.hooks_lt hv
  · have hlt : st.next < q := h
    show Function.update st.heap st.next _ q = none
    rw [Function.update_of_ne (Nat.ne_of_gt hlt)]
    exact hst.fresh hlt.le

theorem untrack (hst : st.Inv cfg) (hp : st.heap p = some t) (hmacs : t.macs = ∅) :
    (st.untrack p t).Inv cfg := by
  have hcases : ∀ {q v}, (st.untrack p t).heap q = some v ↔ q ≠ p ∧ st.heap q = some v :=
    heap_untrack_iff
  have hne : ∀ {q v}, st.heap q = some v → q ≠ p → v.remote ≠ t.remote ∧ v.id ≠ t.id :=
    fun hv hq => ⟨fun h => hq (hst.heap_inj hv hp h), fun h => hq (hst.id_inj hv hp h)⟩
  refine
    { tracked := fun {r' q} h => ?_, live := fun {q v} h => ?_, owner_iff := fun {m q} => ?_,
      slot_iff := fun {i} => ?_, id_lt := fun h => hst.id_lt (hcases.mp h).2,
      id_inj := fun h h' => hst.id_inj (hcases.mp h).2 (hcases.mp h').2,
      card_le := fun h => hst.card_le (hcases.mp h).2,
      ifgre_eq := fun h => hst.ifgre_eq (hcases.mp h).2,
      hooks_lt := fun h => hst.hooks_lt (hcases.mp h).2, fresh := fun {q} h => ?_ }
  · rw [tunnels_untrack] at h
    split at h
    · cases h
    · next hr =>
      obtain ⟨v, hv, hr'⟩ := hst.tracked h
      refine ⟨v, hcases.mpr ⟨?_, hv⟩, hr'⟩
      rintro rfl
      cases hp.symm.trans hv
      exact hr hr'.symm
  · obtain ⟨hq, hv⟩ := hcases.mp h
    rw [tunnels_untrack]
    exact (if_neg (hne hv hq).1).trans (hst.live hv)
  · refine hst.owner_iff.trans ⟨fun ⟨v, hv, hm⟩ => ⟨v, hcases.mpr ⟨?_, hv⟩, hm⟩,
      fun ⟨v, hv, hm⟩ => ⟨v, (hcases.mp hv).2, hm⟩⟩
    rintro rfl
    cases hp.symm.trans hv
    rw [hmacs] at hm
    cases hm
  · rw [slots_untrack]
    by_cases hi : i = t.id
    · refine iff_of_false (by simp [hi]) ?_
      rintro ⟨q, v, hv, hid⟩
      obtain ⟨hq, hv⟩ := hcases.mp hv
      exact (hne hv hq).2 (hid.trans hi)
    · rw [if_neg hi, hst.slot_iff]
      refine ⟨fun ⟨q, v, hv, hid⟩ => ⟨q, v, hcases.mpr ⟨?_, hv⟩, hid⟩,
        fun ⟨q, v, hv, hid⟩ => ⟨q, v, (hcases.mp hv).2, hid⟩⟩
      rintro rfl
      cases hp.symm.trans hv
      exact hi hid.symm
  · show Function.update st.heap p none q = none
    rw [Function.update_apply]
    split
    · rfl
    · exact hst.fresh h

theorem skip (hst : st.Inv cfg) : st.skip.Inv cfg :=
  { hst with fresh := fun h => hst.fresh (Nat.le_of_succ_le h) }

theorem clear (st : Store) : st.clear.Inv cfg := by
  refine
    { tracked := fun h => ?_, live := fun h => ?_, owner_iff := ⟨fun h => ?_, fun ⟨_, h, _⟩ => ?_⟩,
      slot_iff := ⟨fun h => ?_, fun ⟨_, _, h, _⟩ => ?_⟩, id_lt := fun h => ?_,
      id_inj := fun h => ?_, card_le := fun h => ?_, ifgre_eq := fun h => ?_,
      hooks_lt := fun h => ?_, fresh := fun _ => rfl }
  all_goals cases h

end Inv

end Store

/-! ## Steps -/

theorem Step.tables {l : Label} {c c' : Core} (h : Step cfg l c c')
    (hst : c.store.Inv cfg) : c'.store.Inv cfg := by
  cases h with
  | refused | errno | full | wait | vlan | master | undone | leak | unlink | revoke | pend | reset =>
    exact hst
  | skip => exact hst.skip
  | track _ hnone hid hslot => exact hst.track hnone hid hslot
  | hook _ hp hi => exact hst.write hp rfl rfl rfl rfl (toNat_or_bit_lt (hst.hooks_lt hp) hi)
  | ready _ hp =>
    have hlt := hst.hooks_lt hp
    exact hst.write hp rfl rfl rfl rfl hlt
  | learn hp _ hnone hroom => exact hst.learn hp hnone hroom
  | unhook hp => exact hst.write hp rfl rfl rfl rfl (toNat_and_not_bit_lt (hst.hooks_lt hp))
  | unlearn hp hm => exact hst.unlearn hp hm
  | untrack hp hmacs => exact hst.untrack hp hmacs
  | unready _ hp =>
    have hlt := hst.hooks_lt hp
    exact hst.write hp rfl rfl rfl rfl hlt
  | clear => exact Store.Inv.clear _

end Softgre
