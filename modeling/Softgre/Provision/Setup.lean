-- SUMMARY: Adding a tunnel, as a trail of the ledger.
import Softgre.Provision.Refine

/-!
# Setup

`provision_add` tracks a tunnel as soon as its link exists and takes it back
with `provision_del` when a later command fails, so that the ledger goes through
no state that the tables do not show.
-/

namespace Softgre

open Base

variable {cfg : SoftgredConfig} {env : Env} {s s' : Sys} {p : Ptr}

/-- Labels of a call that works for `remote` without learning. -/
def AddsFor (remote : InAddr) (l : Label) : Prop := Quiet l ∨ l = .track remote

theorem Quiet.addsFor {remote : InAddr} (l : Label) (h : Quiet l) : AddsFor remote l := .inl h

/-! ## The search for a slot -/

theorem abs_setErrno (s : Sys) (e : Errno) : (s.setErrno e).abs = s.abs.setErrno e := rfl

/-- The search ends at a free slot whose name is free, as far as the environment can
    tell, or there is none. -/
theorem findSlot_spec (n : Nat) (hn : n ≤ maxSlots) :
    wp (findSlot cfg env n) (fun out s' =>
      (∃ id e, out = some id ∧ e ≠ ENOSPC ∧ s' = s.setErrno e ∧ id < maxSlots ∧ s.slots id = false ∧
        (s.world.Resolves env (tunnelName cfg id) →
          s.world.kernel.hasLink (tunnelName cfg id) = false)) ∨
      (out = none ∧ s' = s ∧ ∀ id, maxSlots - n ≤ id → id < maxSlots →
        s.slots id = true ∨ s.world.kernel.hasLink (tunnelName cfg id) = true)) s := by
  induction n with
  | zero => exact .inr ⟨rfl, rfl, fun id hle hlt => absurd hlt (Nat.not_lt_of_le hle)⟩
  | succ n ih =>
    -- one more id was passed without success
    have hpass : (s.slots (maxSlots - (n + 1)) = true ∨
        s.world.kernel.hasLink (tunnelName cfg (maxSlots - (n + 1))) = true) →
        wp (findSlot cfg env n) (fun out s' =>
          (∃ id e, out = some id ∧ e ≠ ENOSPC ∧ s' = s.setErrno e ∧ id < maxSlots ∧
            s.slots id = false ∧ (s.world.Resolves env (tunnelName cfg id) →
              s.world.kernel.hasLink (tunnelName cfg id) = false)) ∨
          (out = none ∧ s' = s ∧ ∀ id, maxSlots - (n + 1) ≤ id → id < maxSlots →
            s.slots id = true ∨ s.world.kernel.hasLink (tunnelName cfg id) = true)) s := by
      intro hused
      refine wp_mono (ih (by omega)) fun out s' hout => hout.imp_right fun ⟨ho, hs, hall⟩ => ?_
      refine ⟨ho, hs, fun id hle hlt => ?_⟩
      by_cases heq : id = maxSlots - (n + 1)
      · rw [heq]
        exact hused
      · exact hall id (by omega) hlt
    simp only [findSlot, wp_bind, wp_get]
    refine wp_ite (fun hslot => hpass (.inl hslot)) (fun hslot => ?_)
    rw [wp_bind, wp_lift]
    refine wp_mono (ifNametoindex_spec env _ s.world) fun found w hfound => ?_
    rcases hfound with ⟨rfl, hlink, -, rfl⟩ | ⟨rfl, hlink, e, he, rfl⟩
    · exact hpass (.inr hlink)
    · exact .inl ⟨_, e, rfl, he, rfl, by omega, by simpa using hslot, hlink⟩

/-! ## Creating a tunnel -/

/-- The state after `xcalloc` of the record of a new tunnel and some commands. -/
def Sys.allocated (s : Sys) (cfg : SoftgredConfig) (remote : InAddr) (id : Nat) (w : World) : Sys :=
  { s.write s.brk ⟨remote, tunnelName cfg id, id, false, 0, Hashmap.new⟩ with
    brk := s.brk + 1
    world := w }

/-- Releasing the record again leaves nothing but a used-up address. -/
theorem abs_free_allocated (remote : InAddr) (id : Nat) (hst : s.abs.store.Inv cfg) (w : World) :
    ((s.allocated cfg remote id w).free [s.brk]).abs =
      (s.abs.withWorld w).withStore s.abs.store.skip := by
  have hnone : (s.heap s.brk).map TunnelContext.abs = none := hst.fresh (Nat.le_refl _)
  simp only [Sys.abs, Sys.allocated, Sys.free, Sys.write, Core.withStore, Core.withWorld, Store.skip,
    Core.mk.injEq, Store.mk.injEq, and_true, true_and]
  funext q
  by_cases hq : q = s.brk
  · simp [hq, hnone]
  · simp [hq]

/-- The record enters both tables at once. -/
theorem trackTunnel_spec {remote : InAddr} {id : Nat}
    (hnone : provisionGetTunnelByip s remote = none) (w : World) :
    wp (trackTunnel remote id s.brk) (fun _ s' =>
      s'.abs = (s.abs.withWorld w).withStore (s.abs.store.track (.fresh cfg remote id)) ∧
      s'.heap s.brk = some ⟨remote, tunnelName cfg id, id, false, 0, Hashmap.new⟩ ∧
      provisionGetTunnelByip s' remote = some s.brk ∧ s'.world = w ∧
      s'.cleanupPending = s.cleanupPending ∧ s'.counters = s.counters)
      (s.allocated cfg remote id w) := by
  have hold : (s.tunnels.insert remote.sAddr s.brk).2 = none := by
    rw [Hashmap.insert_snd]
    exact hnone
  simp only [trackTunnel, setSlot, tunnelsInsert, wp_bind, wp_modify]
  refine ⟨?_, ?_, ?_, rfl, rfl, rfl⟩
  · simp only [Sys.allocated, Sys.write, Sys.free, hold, Sys.abs, Core.withStore, Core.withWorld,
      Store.track, Core.mk.injEq, Store.mk.injEq, and_true, true_and, Option.toList_none,
      List.not_mem_nil, if_false]
    refine ⟨?_, ?_, ?_⟩
    · funext r
      rw [Hashmap.lookup_insert_eq, Function.update_apply]
      by_cases hr : r = remote
      · simp [hr, Tunnel.fresh]
      · simp [hr, InAddr.sAddr_inj, Tunnel.fresh]
    · funext q
      rw [Function.update_apply]
      by_cases hq : q = s.brk
      · simp [hq, TunnelContext.abs, Tunnel.fresh, Hashmap.keySet_new]
      · simp [hq]
    · funext i
      rw [Function.update_apply]
      rfl
  · simp [Sys.allocated, Sys.write, Sys.free, hold]
  · show (s.tunnels.insert remote.sAddr s.brk).1.lookup remote.sAddr = some s.brk
    rw [Hashmap.lookup_insert_eq, if_pos rfl]

variable (cfg env)

theorem addTunnelHooks_spec {tun : TunnelContext} (hst : s.abs.store.Inv cfg)
    (hidle : s.cleanupPending = false) (hp : s.heap p = some tun) :
    wp (addTunnelHooks env p) (fun ret s' => ∃ x w,
      s' = (s.withWorld w).write p { tun with firewallHooks := x } ∧ s.Moves cfg Quiet s' ∧
      ((ret = .ok ∧ x = allHooks) ∨ (ret = .fail ∧ s.world.Thwarts w))) s := by
  have habs := heap_abs_of_some hp
  simp only [addTunnelHooks, wp_bind, wp_get, wp_pure, wp_lift, deref_of_some hp]
  refine wp_mono (ifaceEbtablesAddTunnel_spec cfg env hst hidle habs)
    fun out w ⟨htrail, hout⟩ => wp_modifyTunnel hp ⟨out.2, w, rfl, ⟨?_, rfl⟩, hout⟩
  rw [abs_write]
  exact htrail

theorem setupTunnel_spec {tun : TunnelContext} (hst : s.abs.store.Inv cfg)
    (hidle : s.cleanupPending = false) (hp : s.heap p = some tun) :
    wp (setupTunnel cfg env p) (fun ret s' => ∃ x w,
      s' = (s.withWorld w).write p { tun with firewallHooks := x } ∧ s.Moves cfg Quiet s' ∧
      (ret = .ok → x = allHooks) ∧ (ret = .fail → s.world.Thwarts w)) s := by
  rw [setupTunnel, wp_bind]
  refine wp_mono (addTunnelHooks_spec cfg env hst hidle hp)
    fun ret s₁ ⟨x, w, hs₁, hmoves, hout⟩ => ?_
  subst hs₁
  have hp₁ := heap_write_self (s.withWorld w) p { tun with firewallHooks := x }
  rcases hout with ⟨rfl, rfl⟩ | ⟨rfl, hthwarts⟩
  · simp only [wp_bind, wp_get, wp_lift, deref_of_some hp₁]
    refine wp_mono (attachBridges_spec cfg env (List.Subset.refl _) hidle
      (heap_abs_of_some hp₁) rfl) fun ret w' ⟨htrail, hfail⟩ =>
        ⟨_, w', rfl, ?_, fun _ => rfl, fun hret => ?_⟩
    · exact hmoves.trans ⟨htrail, rfl⟩
    · exact (hfail hret).of_suffix (Core.trail_suffix hmoves.trail)
  · exact ⟨x, w, rfl, hmoves, nofun, fun _ => hthwarts⟩

/-- The tunnel of `remote` is tracked, ready and without addresses. -/
structure Sys.Fresh (s : Sys) (remote : InAddr) (p : Ptr) : Prop where
  lookup : provisionGetTunnelByip s remote = some p
  record : ∃ tun, s.heap p = some tun ∧ tun.ready = true ∧ tun.macs.keySet = ∅

theorem createTunnel_spec {remote : InAddr} {id : Nat} (hst : s.abs.store.Inv cfg)
    (hidle : s.cleanupPending = false) (hnone : provisionGetTunnelByip s remote = none)
    (hid : id < maxSlots) (hslot : s.slots id = false) :
    wp (createTunnel cfg env remote id) (fun out s' => s.Moves cfg (AddsFor remote) s' ∧
      s'.cleanupPending = false ∧
      ((∃ p, out = some p ∧ s'.Fresh remote p) ∨ (out = none ∧ s.world.Fails s'.world))) s := by
  simp only [createTunnel, xcalloc, wp_bind, wp_get, wp_pure, wp_modify, wp_lift]
  refine wp_mono (ifaceGreAdd_spec env _ _ _ _ s.world) fun ret w ⟨ev, hw, hout⟩ => ?_
  subst hw
  rcases hout with ⟨rfl, hdone⟩ | ⟨rfl, hrefused, -⟩
  · -- tracked from here on
    have hstep : Step cfg (.track remote) s.abs _ :=
      Step.track hidle hnone hid hslot hdone
    rw [wp_bind]
    refine wp_mono (trackTunnel_spec hnone (s.world.record ev))
      fun _ s₁ ⟨habs₁, hp₁, hlookup₁, hworld₁, hpend₁, hcounters₁⟩ => ?_
    have hmoves₁ : s.Moves cfg (AddsFor remote) s₁ :=
      ⟨Trail.single (.inr rfl) (habs₁ ▸ hstep), hcounters₁⟩
    have hidle₁ : s₁.cleanupPending = false := hpend₁.trans hidle
    rw [wp_bind]
    refine wp_mono (setupTunnel_spec cfg env (hmoves₁.tables hst) hidle₁ hp₁)
      fun ret s₂ ⟨x, w, hs₂, hmoves₂, _, hfail⟩ => ?_
    have hmoves₂ := hmoves₁.trans (hmoves₂.mono Quiet.addsFor)
    have hp₂ : s₂.heap s.brk = some ⟨remote, tunnelName cfg id, id, false, x, Hashmap.new⟩ := by
      rw [hs₂]
      exact heap_write_self _ _ _
    have hlookup₂ : provisionGetTunnelByip s₂ remote = some s.brk := by rw [hs₂]; exact hlookup₁
    have hidle₂ : s₂.cleanupPending = false := by rw [hs₂]; exact hidle₁
    cases ret with
    | fail =>
      have hfails : s₁.world.Fails s₂.world := by rw [hs₂]; exact (hfail rfl).fails
      rw [wp_bind]
      -- the new tunnel has no address yet, so none is revoked
      refine wp_mono (provisionDel_spec cfg env s.world.kernel (hmoves₂.tables hst) hlookup₂ hp₂)
        fun ret s₃ ⟨h₃, _⟩ => ?_
      have hmoves₃ := h₃.quiet cfg env Hashmap.keySet_new
      refine ⟨hmoves₂.trans (hmoves₃.mono Quiet.addsFor), h₃.pending.trans hidle₂, .inr ⟨rfl, ?_⟩⟩
      exact (hfails.of_suffix (Core.trail_suffix hmoves₁.trail)).extend (Core.trail_suffix hmoves₃.trail)
    | ok =>
      have hready : Step cfg .internal s₂.abs
          (s₂.write s.brk ⟨remote, tunnelName cfg id, id, true, x, Hashmap.new⟩).abs := by
        rw [abs_write]
        exact Step.ready hidle₂ (heap_abs_of_some hp₂)
      rw [wp_bind]
      refine wp_modifyTunnel hp₂ ⟨hmoves₂.trans (Sys.Moves.step (.inl rfl) hready rfl), hidle₂, ?_⟩
      exact .inl ⟨s.brk, rfl, hlookup₂, _, heap_write_self _ _ _, rfl, Hashmap.keySet_new⟩
  · refine ⟨⟨(Trail.single (.inl rfl) (Step.refused hrefused)).tail (.inl rfl) ?_, rfl⟩, hidle,
      .inr ⟨rfl, hrefused.fails⟩⟩
    have habs := abs_free_allocated remote id hst (s.world.record ev)
    exact habs ▸ Step.skip

/-! ## Adding a tunnel -/

/-- Neither a slot is free nor a name. -/
def Sys.Full (cfg : SoftgredConfig) (s : Sys) : Prop :=
  ∀ id < maxSlots, s.slots id = true ∨ s.world.kernel.hasLink (tunnelName cfg id) = true

/-- A removal that leaves no link behind makes room. -/
theorem Sys.Removed.not_full {remote : InAddr} {tun : TunnelContext} (hst : s.abs.store.Inv cfg)
    (hp : s.heap p = some tun) (h : s.Removed remote p tun s')
    (hwhy : s'.world.EnodevSound ∨ ∀ ev, s.world.New s'.world ev → ¬ ev.Unwilling) :
    ¬ s'.Full cfg := by
  intro hfull
  have ht := heap_abs_of_some hp
  have hname : tun.ifgre = tunnelName cfg tun.id := hst.ifgre_eq ht
  rcases hfull tun.id (hst.id_lt ht) with hslot | hlink
  · cases h.slot.symm.trans hslot
  · cases (h.gone hwhy).symm.trans (hname ▸ hlink)

theorem addTunnel_spec {remote : InAddr} (hst : s.abs.store.Inv cfg)
    (hidle : s.cleanupPending = false) (hnone : provisionGetTunnelByip s remote = none) :
    wp (addTunnel cfg env remote) (fun out s' =>
      (∃ p, out = some p ∧ s.Moves cfg (AddsFor remote) s' ∧ s'.cleanupPending = false ∧
        s'.Fresh remote p) ∨
      (out = none ∧ s.Moves cfg (AddsFor remote) s' ∧ s'.cleanupPending = false ∧
        s.world.Fails s'.world) ∨
      (out = none ∧ s' = s.setErrno ENOSPC ∧ s.Full cfg)) s := by
  rw [addTunnel, wp_bind]
  refine wp_mono (findSlot_spec maxSlots (Nat.le_refl _)) fun out s₁ h => ?_
  rcases h with ⟨id, e, rfl, he, hs₁, hid, hslot, -⟩ | ⟨rfl, rfl, hfull⟩
  · have herrno : s.Moves cfg (AddsFor remote) s₁ := by
      refine Sys.Moves.step (.inl rfl) ?_ (by rw [hs₁]; rfl)
      rw [hs₁, abs_setErrno]
      exact Step.errno he
    have hsuffix : s.world.trace <:+ s₁.world.trace := Core.trail_suffix herrno.trail
    refine wp_mono (createTunnel_spec cfg env (herrno.tables hst) (by rw [hs₁]; exact hidle)
      (by rw [hs₁]; exact hnone) hid (by rw [hs₁]; exact hslot)) fun out s' ⟨hmoves, hpend, hout⟩ => ?_
    rcases hout with ⟨p, hout, hfresh⟩ | ⟨hout, hfails⟩
    · exact .inl ⟨p, hout, herrno.trans hmoves, hpend, hfresh⟩
    · exact .inr (.inl ⟨hout, herrno.trans hmoves, hpend, hfails.of_suffix hsuffix⟩)
  · exact .inr (.inr ⟨rfl, rfl, fun id hid => hfull id (by omega) hid⟩)

/-- The tunnel of `remote` was ready already, is set up now, could not be set up, or
    has no place. A slot that was just released is a place. -/
theorem provisionAdd_spec {remote : InAddr} (hst : s.abs.store.Inv cfg) (hno : s.abs.Idle)
    (hidle : s.cleanupPending = false) :
    wp (provisionAdd cfg env remote) (fun out s' =>
      (∃ p, out = some p ∧ s' = s ∧ provisionGetTunnelByip s remote = some p ∧
        (s.deref p).ready = true) ∨
      (∃ p, out = some p ∧ s.Moves cfg (AddsFor remote) s' ∧ s'.cleanupPending = false ∧
        s'.Fresh remote p) ∨
      (out = none ∧ s.Moves cfg (AddsFor remote) s' ∧ s'.cleanupPending = false ∧
        s.world.Fails s'.world) ∨
      (∃ s₁, out = none ∧ s.Moves cfg Quiet s₁ ∧ s₁.cleanupPending = false ∧
        s' = s₁.setErrno ENOSPC ∧ (s₁.world.EnodevSound → s₁ = s ∧ s.Full cfg))) s := by
  simp only [provisionAdd, wp_bind, wp_get, hidle, Bool.false_eq_true, if_false]
  cases hlookup : provisionGetTunnelByip s remote with
  | none =>
    refine wp_mono (addTunnel_spec cfg env hst hidle hlookup) fun out s' h => ?_
    rcases h with ⟨p, h⟩ | h | ⟨hout, hs', hfull⟩
    · exact .inr (.inl ⟨p, h⟩)
    · exact .inr (.inr (.inl h))
    · exact .inr (.inr (.inr ⟨s, hout, Sys.Moves.refl, hidle, hs', fun _ => ⟨rfl, hfull⟩⟩))
  | some p =>
    obtain ⟨tun, hp, -⟩ := hst.record hlookup
    simp only [wp_bind, wp_get, deref_of_some hp]
    refine wp_ite (fun hready => ?_) (fun hready => ?_)
    · exact .inl ⟨p, rfl, rfl, rfl, by rw [deref_of_some hp]; exact hready⟩
    · -- a stale tunnel has no addresses, since no cleanup is pending
      have hmacs : tun.macs.keySet = ∅ := hno hidle (heap_abs_of_some hp) (Bool.of_not_eq_true hready)
      rw [wp_bind]
      refine wp_mono (provisionDel_spec cfg env s.world.kernel hst hlookup hp)
        fun ret s₁ ⟨hremoving, h₁⟩ => ?_
      have hmoves₁ := hremoving.quiet cfg env hmacs
      have hidle₁ := hremoving.pending.trans hidle
      have hsuffix : s.world.trace <:+ s₁.world.trace := Core.trail_suffix hmoves₁.trail
      rcases h₁ with ⟨rfl, hremoved⟩ | ⟨rfl, hretained⟩
      · refine wp_mono (addTunnel_spec cfg env (hmoves₁.tables hst) hidle₁ hremoved.lookup)
          fun out s' h => ?_
        rcases h with ⟨p, hout, hmoves, hrest⟩ | ⟨hout, hmoves, hpend, hfails⟩ | ⟨hout, hs', hfull⟩
        · exact .inr (.inl ⟨p, hout, (hmoves₁.mono Quiet.addsFor).trans hmoves, hrest⟩)
        · exact .inr (.inr (.inl ⟨hout, (hmoves₁.mono Quiet.addsFor).trans hmoves, hpend,
            hfails.of_suffix hsuffix⟩))
        · refine .inr (.inr (.inr ⟨s₁, hout, hmoves₁, hidle₁, hs', fun hsound => ?_⟩))
          exact absurd hfull (hremoved.not_full cfg hst hp (.inl hsound))
      · exact .inr (.inr (.inl ⟨rfl, hmoves₁.mono Quiet.addsFor, hidle₁,
          hretained.hindered.fails⟩))

end Softgre
