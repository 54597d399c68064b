-- SUMMARY: What the tables say after every run: they agree with each other, and bindings are stable.
import Softgre.Daemon.Boot

/-!
# The tables after a run
-/

namespace Softgre

open Base

variable {cfg : SoftgredConfig} {env : Env} {s : Sys}

/-- The record `tun` at `p` is in the table, under `remote`. -/
structure Sys.InTable (s : Sys) (remote : InAddr) (p : Ptr) (tun : TunnelContext) : Prop where
  lookup : provisionGetTunnelByip s remote = some p
  record : s.heap p = some tun

theorem inTable_of_heap {p : Ptr} {tun : TunnelContext} (hst : s.abs.store.Inv cfg)
    (hp : s.heap p = some tun) : s.InTable tun.ipRemote p tun :=
  ⟨hst.live (heap_abs_of_some hp), hp⟩

/-! ## Agreement -/

/-- The four tables agree. -/
structure Sys.Consistent (s : Sys) : Prop where
  /-- `mac_index` is the inverse of the `macs` of the tunnels in the table. -/
  mac_iff : ∀ mac p, provisionGetTunnelByMac s mac = some p ↔
    ∃ remote tun, s.InTable remote p tun ∧ tun.macs.contains mac = true
  mac_unique : ∀ mac remote remote' p p' tun tun', s.InTable remote p tun →
    s.InTable remote' p' tun' → tun.macs.contains mac = true → tun'.macs.contains mac = true → p = p'
  /-- No pointer in a table is stale. -/
  mac_live : ∀ mac p, provisionGetTunnelByMac s mac = some p → (s.heap p).isSome
  remote_eq : ∀ remote p, provisionGetTunnelByip s remote = some p →
    ∃ tun, s.heap p = some tun ∧ tun.ipRemote = remote
  slot_iff : ∀ id, s.slots id = true ↔ ∃! remote, ∃ p tun, s.InTable remote p tun ∧ tun.id = id
  id_lt : ∀ remote p tun, s.InTable remote p tun → tun.id < maxSlots
  id_inj : ∀ remote remote' p p' tun tun', s.InTable remote p tun → s.InTable remote' p' tun' →
    tun.id = tun'.id → remote = remote'
  macs_le : ∀ remote p tun, s.InTable remote p tun → tun.macs.size ≤ maxClients

theorem Store.Inv.consistent (hst : s.abs.store.Inv cfg) : s.Consistent := by
  have hremote : ∀ {remote p tun}, s.InTable remote p tun → tun.ipRemote = remote :=
    fun h => hst.ipRemote_eq h.lookup h.record
  have hid : ∀ {remote remote' p p' tun tun'}, s.InTable remote p tun →
      s.InTable remote' p' tun' → tun.id = tun'.id → remote = remote' := by
    intro remote remote' p p' tun tun' h h' heq
    cases hst.id_inj (heap_abs_of_some h.record) (heap_abs_of_some h'.record) heq
    cases h.record.symm.trans h'.record
    exact (hremote h).symm.trans (hremote h')
  have howner : ∀ {mac p tun}, s.heap p = some tun → tun.macs.contains mac = true →
      provisionGetTunnelByMac s mac = some p :=
    fun hp hm => hst.owner_iff.mpr ⟨_, heap_abs_of_some hp, Hashmap.mem_keySet.mpr hm⟩
  have howned : ∀ {mac p}, provisionGetTunnelByMac s mac = some p →
      ∃ tun, s.heap p = some tun ∧ tun.macs.contains mac = true := by
    intro mac p h
    obtain ⟨t, ht, hm⟩ := hst.owner_iff.mp h
    obtain ⟨tun, hp, rfl⟩ := heap_of_abs ht
    exact ⟨tun, hp, Hashmap.mem_keySet.mp hm⟩
  refine
    { mac_iff := fun mac p => ⟨fun h => ?_, fun ⟨_, _, h, hm⟩ => howner h.record hm⟩
      mac_unique := fun mac _ _ p p' _ _ h h' hm hm' => ?_
      mac_live := fun mac p h => ?_
      remote_eq := fun remote p h => ?_
      slot_iff := fun id => ⟨fun h => ?_, fun ⟨_, ⟨p, tun, h, heq⟩, _⟩ => ?_⟩
      id_lt := fun _ _ _ h => hst.id_lt (heap_abs_of_some h.record)
      id_inj := fun _ _ _ _ _ _ => hid
      macs_le := fun _ _ _ h => ?_ }
  · obtain ⟨tun, hp, hm⟩ := howned h
    exact ⟨_, tun, inTable_of_heap hst hp, hm⟩
  · exact Option.some.inj ((howner h.record hm).symm.trans (howner h'.record hm'))
  · obtain ⟨tun, hp, -⟩ := howned h
    rw [hp]
    rfl
  · exact hst.record h
  · obtain ⟨p, t, ht, heq⟩ := hst.slot_iff.mp h
    obtain ⟨tun, hp, rfl⟩ := heap_of_abs ht
    have hin := inTable_of_heap hst hp
    refine ⟨tun.ipRemote, ⟨p, tun, hin, heq⟩, fun _ ⟨_, _, h', heq'⟩ => ?_⟩
    exact hid h' hin (heq'.trans heq.symm)
  · exact hst.slot_iff.mpr ⟨p, tun.abs, heap_abs_of_some h.record, heq⟩
  · rw [← Hashmap.card_keySet]
    exact hst.card_le (heap_abs_of_some h.record)

/-- Whatever is called in whatever order, and however its commands end, the tables
    agree after every call. -/
theorem run_consistent (cfg : SoftgredConfig) (env : Env) (w : World) (calls : List Call) :
    (run cfg env calls (provisionInit w)).Consistent :=
  (run_tables cfg env calls ⟨provisionInit_tables cfg w, provisionInit_idle w⟩).1.consistent

/-! ## Bindings -/

/-- `provision_get_tunnel_by_mac(mac)` is the tunnel of `remote`. -/
def Sys.OwnedBy (s : Sys) (mac : CStr) (remote : InAddr) : Prop :=
  ∃ p, provisionGetTunnelByMac s mac = some p ∧ provisionGetTunnelByip s remote = some p

theorem ownedBy_iff_bound (hst : s.abs.store.Inv cfg) {mac : CStr} {remote : InAddr} :
    s.OwnedBy mac remote ↔ s.abs.store.Bound mac remote := by
  constructor
  · rintro ⟨p, hmac, hip⟩
    obtain ⟨t, ht, hr⟩ := hst.tracked (r := remote) (p := p) hip
    exact ⟨p, t, hmac, ht, hr⟩
  · rintro ⟨p, t, hmac, ht, rfl⟩
    exact ⟨p, hmac, hst.live ht⟩

theorem PacketLabel.keeps {packet : PayloadPacket} {l : Label} (h : PacketLabel packet l) :
    l.Keeps := by
  rcases h with ((rfl | rfl) | rfl | rfl) | rfl <;> exact trivial

/-- A call of the main loop takes no binding away, unless it completes a cleanup. -/
theorem exec_ownedBy {call : Call} {mac : CStr} {remote : InAddr} (hloop : call.fromLoop = true)
    (htables : s.Tables cfg)
    (huncleared : call = .delall → (exec cfg env s call).cleanupPending = true)
    (h : s.OwnedBy mac remote) : (exec cfg env s call).OwnedBy mac remote := by
  have htables' := exec_tables cfg env call htables
  rw [ownedBy_iff_bound htables.1] at h
  rw [ownedBy_iff_bound htables'.1]
  have htrail := exec_trail cfg env call htables.1 htables.2
  cases call with
  | packet packet => exact Core.trail_bound (fun _ hl => PacketLabel.keeps hl) htrail htables.1 h
  | wait usec => exact Core.trail_bound (fun l hl => by cases hl; trivial) htrail htables.1 h
  | delall =>
    have hpend := huncleared rfl
    have hcleans := exec_delall cfg env s.world.kernel htables.1
    generalize exec cfg env s .delall = s' at *
    cases hcleans with
    | complete => cases hpend
    | incomplete hmoves =>
      exact Core.trail_bound (fun l hl => by cases hl; trivial) hmoves.trail htables.1 h
  | add | allowMac | del => cases hloop

theorem run_ownedBy {calls : List Call} {mac : CStr} {remote : InAddr}
    (hloop : ∀ call ∈ calls, call.fromLoop = true) (htables : s.Tables cfg)
    (huncleared : Uncleared cfg env calls s) (h : s.OwnedBy mac remote) :
    (run cfg env calls s).OwnedBy mac remote := by
  induction calls generalizing s with
  | nil => exact h
  | cons call rest ih =>
    obtain ⟨hcall, hrest⟩ := List.forall_mem_cons.mp hloop
    exact ih hrest (exec_tables cfg env call htables) huncleared.2
      (exec_ownedBy hcall htables huncleared.1 h)

/-- Once an address belongs to a remote, it stays with it through every run of the
    main loop, until a cleanup completes. -/
theorem ownership_stable (cfg : SoftgredConfig) (env : Env) (w : World)
    (before after : List Call) (mac : CStr) (remote : InAddr)
    (hafter : ∀ call ∈ after, call.fromLoop = true)
    (howned : (run cfg env before (provisionInit w)).OwnedBy mac remote)
    (huncleared : Uncleared cfg env after (run cfg env before (provisionInit w))) :
    (run cfg env (before ++ after) (provisionInit w)).OwnedBy mac remote := by
  rw [run_append]
  refine run_ownedBy hafter (run_tables cfg env before ⟨?_, ?_⟩) huncleared howned
  · exact provisionInit_tables cfg w
  · exact provisionInit_idle w

/-- Another remote claims the address of the first one. -/
theorem ownership_stable_intruder :
    (run Sample.config Sample.obliging
      [.packet Sample.packet, .wait 5, .packet { Sample.packet with remote := InAddr.ofBytes 10 0 0 3 }]
      (Sample.start Sample.obliging)).OwnedBy (macText Sample.packet.mac) Sample.packet.remote :=
  ownership_stable Sample.config Sample.obliging _ [.packet Sample.packet] [.wait 5, .packet _] _ _
    (by simp [Call.fromLoop]) ⟨0, by decide +kernel, by decide +kernel⟩
    ⟨nofun, nofun, trivial⟩

end Softgre
