-- SUMMARY: Which addresses are bound to which remote, and where tunnels and addresses come from.
import Softgre.Ledger.Tables

/-!
# Ownership

A binding ends only in a step that says so, and begins only in a step that names
the remote and the address.
-/

namespace Softgre

open Base

variable {cfg : SoftgredConfig} {l : Label} {c c' : Core}

/-! ## Bindings -/

/-- The address `mac` belongs to the tunnel of `remote`. -/
def Store.Bound (st : Store) (mac : CStr) (remote : InAddr) : Prop :=
  ∃ p t, st.owner mac = some p ∧ st.heap p = some t ∧ t.remote = remote

/-- Labels of steps that take no binding away. -/
def Label.Keeps : Label → Prop
  | .revoke .. | .clear => False
  | _ => True

/-- Rewriting a record under its remote keeps every binding. -/
theorem Store.Bound.write {st st' : Store} {mac : CStr} {remote : InAddr} {p : Ptr} {t : Tunnel}
    (h : st.Bound mac remote) (u : Tunnel) (hp : st.heap p = some t)
    (hheap : st'.heap = (st.write p u).heap) (howner : st'.owner mac = st.owner mac)
    (hremote : u.remote = t.remote) : st'.Bound mac remote := by
  obtain ⟨q, v, hq, hv, hr⟩ := h
  refine ⟨q, ?_⟩
  rw [howner, hheap, Store.heap_write]
  by_cases hqp : q = p
  · subst hqp
    cases hp.symm.trans hv
    exact ⟨u, hq, if_pos rfl, hremote.trans hr⟩
  · exact ⟨v, hq, by rw [if_neg hqp, hv], hr⟩

theorem Step.bound {mac : CStr} {remote : InAddr} (h : Step cfg l c c') (hl : l.Keeps)
    (hst : c.store.Inv cfg) (hbound : c.store.Bound mac remote) : c'.store.Bound mac remote := by
  cases h with
  | refused | errno | full | wait | skip | vlan | master | undone | leak | unlink | pend | reset =>
    exact hbound
  | revoke | unlearn | clear => cases hl
  | track =>
    obtain ⟨q, v, hq, hv, hr⟩ := hbound
    exact ⟨q, v, hq, (Store.heap_track_iff (hst.fresh (Nat.le_refl _))).mpr (.inr hv), hr⟩
  | hook _ hp => exact hbound.write _ hp rfl rfl rfl
  | ready _ hp => exact hbound.write _ hp rfl rfl rfl
  | unhook hp => exact hbound.write _ hp rfl rfl rfl
  | unready _ hp => exact hbound.write _ hp rfl rfl rfl
  | @learn c _ _ p t mac' hp _ hnone =>
    refine hbound.write { t with macs := insert mac' t.macs } hp rfl ?_ rfl
    obtain ⟨q, -, hq, -⟩ := hbound
    refine Function.update_of_ne ?_ _ _
    rintro rfl
    rw [hnone] at hq
    cases hq
  | @untrack c p t hp hmacs =>
    -- the owner of an address is not the tunnel that goes, which has none
    obtain ⟨q, v, hq, hv, hr⟩ := hbound
    refine ⟨q, v, hq, Store.heap_untrack_iff.mpr ⟨?_, hv⟩, hr⟩
    rintro rfl
    obtain ⟨u, hu, hmem⟩ := hst.owner_iff.mp hq
    cases hp.symm.trans hu
    rw [hmacs] at hmem
    cases hmem

theorem Core.trail_bound {P : Label → Prop} {mac : CStr} {remote : InAddr}
    (hP : ∀ l, P l → l.Keeps) (h : Trail (Step cfg) P c c') (hst : c.store.Inv cfg)
    (hbound : c.store.Bound mac remote) : c'.store.Bound mac remote := by
  have hinv := h.invariant (I := fun c => c.store.Inv cfg ∧ c.store.Bound mac remote)
    (fun l _ _ hl hs hc => ⟨hs.tables hc.1, hs.bound (hP l hl) hc.1 hc.2⟩) ⟨hst, hbound⟩
  exact hinv.2

/-- An address gets an owner only by being learned. -/
theorem Step.owner_eq_none {mac : CStr} (h : Step cfg l c c') (hl : ∀ r, l ≠ .learn r mac)
    (hnone : c.store.owner mac = none) : c'.store.owner mac = none := by
  cases h with
  | refused | errno | full | wait | skip | vlan | master | undone | leak | unlink | pend | reset |
    revoke | track | hook | ready | unhook | unready | untrack => exact hnone
  | clear => rfl
  | @learn c _ _ p t mac' =>
    refine (Function.update_of_ne ?_ _ _).trans hnone
    rintro rfl
    exact hl _ rfl
  | @unlearn c p t mac' =>
    show Function.update c.store.owner mac' none mac = none
    rw [Function.update_apply]
    split
    · rfl
    · exact hnone

theorem Core.trail_owner_eq_none {P : Label → Prop} {mac : CStr} (hP : ∀ r, ¬ P (.learn r mac))
    (h : Trail (Step cfg) P c c') (hnone : c.store.owner mac = none) :
    c'.store.owner mac = none := by
  refine h.invariant (I := fun c => c.store.owner mac = none) (fun l _ _ hl hs => ?_) hnone
  refine hs.owner_eq_none fun r heq => hP r ?_
  rw [← heq]
  exact hl

/-! ## Provenance -/

/-- Every tunnel is for a remote in `T`, and has its addresses from `M`. -/
def Store.ComesFrom (T : InAddr → Prop) (M : InAddr → CStr → Prop) (st : Store) : Prop :=
  ∀ p t, st.heap p = some t → T t.remote ∧ ∀ mac ∈ t.macs, M t.remote mac

/-- Labels that only track remotes in `T` and learn addresses from `M`. -/
def Label.ComesFrom (T : InAddr → Prop) (M : InAddr → CStr → Prop) : Label → Prop
  | .track r => T r
  | .learn r mac => M r mac
  | _ => True

variable {T : InAddr → Prop} {M : InAddr → CStr → Prop}

theorem Store.ComesFrom.mono {M' : InAddr → CStr → Prop} {st : Store} (h : st.ComesFrom T M)
    (hM : ∀ r mac, M r mac → M' r mac) : st.ComesFrom T M' :=
  fun p t hp => ⟨(h p t hp).1, fun mac hm => hM _ mac ((h p t hp).2 mac hm)⟩

theorem Store.ComesFrom.write {st st' : Store} {p : Ptr} {t : Tunnel} (h : st.ComesFrom T M) (u : Tunnel)
    (hp : st.heap p = some t) (hheap : st'.heap = (st.write p u).heap) (hremote : u.remote = t.remote)
    (hmacs : ∀ mac ∈ u.macs, mac ∈ t.macs ∨ M t.remote mac) : st'.ComesFrom T M := by
  intro q v hv
  rw [hheap] at hv
  rcases Store.heap_write_cases hv with ⟨rfl, rfl⟩ | ⟨-, hv⟩
  · rw [hremote]
    exact ⟨(h _ _ hp).1, fun mac hm => (hmacs mac hm).elim ((h _ _ hp).2 mac) id⟩
  · exact h _ _ hv

theorem Step.comesFrom (h : Step cfg l c c') (hl : l.ComesFrom T M) (hst : c.store.Inv cfg)
    (hfrom : c.store.ComesFrom T M) : c'.store.ComesFrom T M := by
  cases h with
  | refused | errno | full | wait | skip | vlan | master | undone | leak | unlink | pend | reset |
    revoke => exact hfrom
  | track =>
    intro q v hv
    rcases (Store.heap_track_iff (hst.fresh (Nat.le_refl _))).mp hv with ⟨-, rfl⟩ | hv
    · exact ⟨hl, fun _ hm => nomatch hm⟩
    · exact hfrom _ _ hv
  | hook _ hp => exact hfrom.write _ hp rfl rfl fun _ => .inl
  | ready _ hp => exact hfrom.write _ hp rfl rfl fun _ => .inl
  | unhook hp => exact hfrom.write _ hp rfl rfl fun _ => .inl
  | unready _ hp => exact hfrom.write _ hp rfl rfl fun _ => .inl
  | @learn c _ _ p t mac hp =>
    refine hfrom.write { t with macs := insert mac t.macs } hp rfl rfl fun mac' hm => ?_
    rcases Finset.mem_insert.mp hm with rfl | hm
    · exact .inr hl
    · exact .inl hm
  | @unlearn c p t mac hp =>
    exact hfrom.write { t with macs := t.macs.erase mac } hp rfl rfl
      fun _ hm => .inl (Finset.mem_of_mem_erase hm)
  | untrack => exact fun _ _ hv => hfrom _ _ (Store.heap_untrack_iff.mp hv).2
  | clear => exact fun _ _ hv => nomatch hv

theorem Core.trail_comesFrom {P : Label → Prop} (hP : ∀ l, P l → l.ComesFrom T M)
    (h : Trail (Step cfg) P c c') (hst : c.store.Inv cfg) (hfrom : c.store.ComesFrom T M) :
    c'.store.ComesFrom T M := by
  have hinv := h.invariant (I := fun c => c.store.Inv cfg ∧ c.store.ComesFrom T M)
    (fun l _ _ hl hs hc => ⟨hs.tables hc.1, hs.comesFrom (hP l hl) hc.1 hc.2⟩) ⟨hst, hfrom⟩
  exact hinv.2

end Softgre
