-- SUMMARY: One remote cannot influence what another one gets, whatever it sends in between.
import Softgre.Daemon.Smooth
import Softgre.Daemon.Tables

/-!
# Peers do not interfere

Two runs from the same start: the second one has the packets of one more remote,
anywhere between the others. When all commands succeed and there is a slot for
everyone, both runs fold the claims of their packets, and the claims of a remote to
addresses that nobody else sends do not show in what the others get.
-/

namespace Softgre

open Base

variable {cfg : SoftgredConfig} {env : Env} {s : Sys} {host : Kernel} {remotes : Finset InAddr}

/-! ## Packets of a run -/

/-- The calls of a run without cleanups. -/
def Call.listens : Call → Bool
  | .packet _ | .wait _ => true
  | _ => false

def Call.packets : Call → List PayloadPacket
  | .packet pkt => [pkt]
  | _ => []

/-- The packets of a run, in order. -/
def packetsOf (calls : List Call) : List PayloadPacket := calls.flatMap Call.packets

/-- The claims of the packets that are let in. -/
def claimsOf (cfg : SoftgredConfig) (packets : List PayloadPacket) : List (InAddr × CStr) :=
  (packets.filter (accepted cfg)).map PayloadPacket.claim

/-- The remotes of the packets that are let in. -/
def authorisedRemotes (cfg : SoftgredConfig) (packets : List PayloadPacket) : Finset InAddr :=
  ((packets.filter (accepted cfg)).map PayloadPacket.remote).toFinset

theorem mem_authorisedRemotes {packets : List PayloadPacket} {packet : PayloadPacket}
    (h : packet ∈ packets) (haccepted : accepted cfg packet = true) :
    packet.remote ∈ authorisedRemotes cfg packets :=
  List.mem_toFinset.mpr (List.mem_map_of_mem (List.mem_filter.mpr ⟨h, haccepted⟩))

/-! ## A run folds its claims -/

/-- What a run keeps besides being smooth. -/
structure Sys.SmoothRun (cfg : SoftgredConfig) (host : Kernel) (remotes : Finset InAddr) (s : Sys) :
    Prop where
  tables : s.Tables cfg
  smooth : s.Smooth cfg host remotes
  clock : 0 ≤ s.world.clock

theorem kept_clock : Kept env fun w => 0 ≤ w.clock := by
  have hlater : ∀ {clock : Int} (elapsed : Nat), 0 ≤ clock → 0 ≤ clock + elapsed := by
    intro clock elapsed h
    omega
  exact Kept.of_record (fun w ev hw => hlater ev.elapsed hw) (fun _ _ hw => hw)
    fun _ usec hw => hlater usec hw

/-- One call of a smooth run. -/
theorem exec_claims {call : Call} (hcall : call.listens = true) (h : s.SmoothRun cfg host remotes)
    (hroom : remotes.card ≤ (usableSlots cfg host).card)
    (hremotes : ∀ packet ∈ call.packets, accepted cfg packet = true → packet.remote ∈ remotes)
    (hok : ¬ s.world.Fails (exec cfg env s call).world) :
    (exec cfg env s call).SmoothRun cfg host remotes ∧
      (exec cfg env s call).abs.store.registry =
        (claimsOf cfg call.packets).foldl (Registry.claim maxClients) s.abs.store.registry := by
  have htables := exec_tables cfg env call h.tables
  have hclock : 0 ≤ (exec cfg env s call).world.clock := kept_clock.exec call h.clock
  cases call with
  | packet packet =>
    obtain hfails | ⟨hsmooth, hregistry⟩ : _ ∨ _ := provisionPacket_claims h.smooth h.tables.1
      h.clock hroom (hremotes packet (List.mem_singleton_self packet))
    · exact absurd hfails hok
    · refine ⟨⟨htables, hsmooth, hclock⟩, hregistry.trans ?_⟩
      rw [claimsOf, Call.packets]
      split
      · next hyes =>
        rw [List.filter_cons_of_pos hyes]
        rfl
      · next hno =>
        rw [List.filter_cons_of_neg hno]
        rfl
  | wait usec =>
    have hsmooth := h.smooth
    exact ⟨⟨htables, ⟨hsmooth.idle, hsmooth.retry, hsmooth.ready, hsmooth.remote, hsmooth.names⟩,
      hclock⟩, rfl⟩
  | delall | add | allowMac | del => cases hcall

theorem claimsOf_append (packets packets' : List PayloadPacket) :
    claimsOf cfg (packets ++ packets') = claimsOf cfg packets ++ claimsOf cfg packets' := by
  rw [claimsOf, List.filter_append, List.map_append]
  rfl

/-- Without a failure, the tables are the claims of the packets, folded. -/
theorem run_claims {calls : List Call} (hcalls : ∀ call ∈ calls, call.listens = true)
    (h : s.SmoothRun cfg host remotes) (hroom : remotes.card ≤ (usableSlots cfg host).card)
    (hremotes : ∀ packet ∈ packetsOf calls, accepted cfg packet = true → packet.remote ∈ remotes)
    (hok : ¬ s.world.Fails (run cfg env calls s).world) :
    (run cfg env calls s).SmoothRun cfg host remotes ∧
      (run cfg env calls s).abs.store.registry =
        (claimsOf cfg (packetsOf calls)).foldl (Registry.claim maxClients) s.abs.store.registry := by
  induction calls generalizing s with
  | nil => exact ⟨h, rfl⟩
  | cons call rest ih =>
    obtain ⟨hcall, hrest⟩ := List.forall_mem_cons.mp hcalls
    have htables := exec_tables cfg env call h.tables
    rw [packetsOf, List.flatMap_cons] at hremotes ⊢
    obtain ⟨hremotes, hremotes'⟩ := List.forall_mem_append.mp hremotes
    obtain ⟨hsmooth, hregistry⟩ := exec_claims hcall h hroom hremotes fun hfails =>
      hok (hfails.extend (run_suffix rest htables))
    obtain ⟨hsmooth', hregistry'⟩ := ih hrest hsmooth hremotes' fun hfails =>
      hok (hfails.of_suffix (exec_suffix call h.tables))
    refine ⟨hsmooth', hregistry'.trans ?_⟩
    rw [claimsOf_append, List.foldl_append, hregistry]
    rfl

theorem provisionInit_smooth {w : World} (hclock : 0 ≤ w.clock) :
    (provisionInit w).SmoothRun cfg w.kernel remotes := by
  have hheap : ∀ {p t}, (provisionInit w).abs.store.heap p ≠ some t := by
    intro p t ht
    rw [abs_provisionInit] at ht
    cases ht
  refine ⟨⟨provisionInit_tables cfg w, provisionInit_idle w⟩, ?_, hclock⟩
  exact ⟨rfl, rfl, fun hp => absurd hp hheap, fun hp => absurd hp hheap, fun _ _ hlink => .inl hlink⟩

/-! ## Addresses are told apart -/

theorem byte_of_digits {a b : UInt8}
    (hhigh : Nat.digitChar (a.toNat / 16) = Nat.digitChar (b.toNat / 16))
    (hlow : Nat.digitChar (a.toNat % 16) = Nat.digitChar (b.toNat % 16)) : a = b := by
  have hdigit : ∀ m < 16, ∀ n < 16, Nat.digitChar m = Nat.digitChar n → m = n := by decide
  have ha := a.toNat_lt
  have hb := b.toNat_lt
  have hdiv := hdigit _ (by omega) _ (by omega) hhigh
  have hmod := hdigit _ (by omega) _ (by omega) hlow
  exact UInt8.toNat_inj.mp (by omega)

theorem macText_injective {a b : Vector UInt8 6} (h : macText a = macText b) : a = b := by
  obtain ⟨a0, a1, a2, a3, a4, a5, ha, hatext⟩ := macText_eq a
  obtain ⟨b0, b1, b2, b3, b4, b5, hb, hbtext⟩ := macText_eq b
  rw [hatext, hbtext] at h
  simp only [hex2, List.cons_append, List.nil_append, List.cons.injEq, and_true, true_and] at h
  obtain ⟨h0, l0, h1, l1, h2, l2, h3, l3, h4, l4, h5, l5⟩ := h
  refine Vector.toList_inj.mp ?_
  rw [ha, hb, byte_of_digits h0 l0, byte_of_digits h1 l1, byte_of_digits h2 l2,
    byte_of_digits h3 l3, byte_of_digits h4 l4, byte_of_digits h5 l5]

/-! ## Two runs -/

/-- Both states give the same answers about `remote`: whether it has a tunnel, whether
    that is ready, which addresses it has, and whose these are. -/
structure Sys.SamePeer (remote : InAddr) (s s' : Sys) : Prop where
  tunnel : (provisionGetTunnelByip s remote).isSome = (provisionGetTunnelByip s' remote).isSome
  ready : ∀ p p' tun tun', s.InTable remote p tun → s'.InTable remote p' tun' →
    tun.ready = tun'.ready
  macs : ∀ p p' tun tun', s.InTable remote p tun → s'.InTable remote p' tun' →
    ∀ mac, tun.macs.contains mac = tun'.macs.contains mac
  owner : ∀ p tun mac, s.InTable remote p tun → tun.macs.contains mac = true →
    ∀ other, s.OwnedBy mac other ↔ s'.OwnedBy mac other

theorem registry_of_inTable {remote : InAddr} {p : Ptr} {tun : TunnelContext} {s : Sys}
    (h : s.InTable remote p tun) : s.abs.store.registry remote = some tun.macs.keySet := by
  show (provisionGetTunnelByip s remote).bind _ = _
  rw [h.lookup, Option.bind_some, heap_abs_of_some h.record]
  rfl

theorem isSome_registry {remote : InAddr} (hst : s.abs.store.Inv cfg) :
    (s.abs.store.registry remote).isSome = (provisionGetTunnelByip s remote).isSome := by
  cases hlookup : provisionGetTunnelByip s remote with
  | none => rw [Store.registry_of_none hlookup]; rfl
  | some p =>
    obtain ⟨t, ht, rfl⟩ := hst.tracked (r := remote) (p := p) hlookup
    rw [Store.registry_of_heap hst ht]
    rfl

/-- An address in the registry has one owner, the remote it is listed under. -/
theorem ownedBy_iff_of_registry {remote other : InAddr} {macs : Finset CStr} {mac : CStr}
    (hst : s.abs.store.Inv cfg) (hmacs : s.abs.store.registry remote = some macs)
    (hmac : mac ∈ macs) : s.OwnedBy mac other ↔ other = remote := by
  obtain ⟨p, t, ht, rfl, rfl⟩ := Store.registry_eq_some hst hmacs
  have howner := hst.owner_iff.mpr ⟨t, ht, hmac⟩
  constructor
  · rintro ⟨q, hq, hlookup⟩
    cases howner.symm.trans hq
    obtain ⟨u, hu, rfl⟩ := hst.tracked (r := other) (p := p) hlookup
    cases ht.symm.trans hu
    rfl
  · rintro rfl
    exact ⟨p, howner, hst.live ht⟩

theorem samePeer_of_registry {remote : InAddr} {s' : Sys} (h : s.SmoothRun cfg host remotes)
    (h' : s'.SmoothRun cfg host remotes)
    (hsame : s.abs.store.registry remote = s'.abs.store.registry remote) : s.SamePeer remote s' where
  tunnel := by rw [← isSome_registry h.tables.1, ← isSome_registry h'.tables.1, hsame]
  ready p p' tun tun' hin hin' := by
    have hready : tun.ready = true := h.smooth.ready (heap_abs_of_some hin.record)
    have hready' : tun'.ready = true := h'.smooth.ready (heap_abs_of_some hin'.record)
    rw [hready, hready']
  macs p p' tun tun' hin hin' mac := by
    rw [registry_of_inTable hin, registry_of_inTable hin', Option.some.injEq] at hsame
    rw [Bool.eq_iff_iff, ← Hashmap.mem_keySet, ← Hashmap.mem_keySet, hsame]
  owner p tun mac hin hmac other := by
    have hmem := Hashmap.mem_keySet.mpr hmac
    have hregistry := registry_of_inTable hin
    rw [ownedBy_iff_of_registry h.tables.1 hregistry hmem,
      ownedBy_iff_of_registry h'.tables.1 (hsame ▸ hregistry) hmem]

/-- The claims of the shorter run are those of the longer one without the ones of
    `A`. -/
theorem filter_claimsOf (packets : List PayloadPacket) (A : InAddr) :
    (claimsOf cfg packets).filter (fun c => c.1 ≠ A) =
      claimsOf cfg (packets.filter fun packet => packet.remote ≠ A) := by
  rw [claimsOf, claimsOf, List.filter_map, List.filter_filter, List.filter_filter]
  refine congrArg _ (List.filter_congr fun packet _ => ?_)
  exact Bool.and_comm _ _

/-- When everything succeeds and there is a slot for everyone, the packets of one
    remote, with addresses of its own, change nothing for the others. -/
theorem peers_do_not_interfere (cfg : SoftgredConfig) (env env' : Env) (w : World) (A : InAddr)
    (calls calls' : List Call) (hclock : 0 ≤ w.clock)
    (hcalls : ∀ call ∈ calls, call.listens = true) (hcalls' : ∀ call ∈ calls', call.listens = true)
    (hinsert : (packetsOf calls').filter (fun packet => packet.remote ≠ A) = packetsOf calls)
    (hmacs : ∀ a ∈ packetsOf calls', a.remote = A → ∀ b ∈ packetsOf calls, b.mac ≠ a.mac)
    (hok : ¬ w.Fails (run cfg env calls (provisionInit w)).world)
    (hok' : ¬ w.Fails (run cfg env' calls' (provisionInit w)).world)
    (hroom : (authorisedRemotes cfg (packetsOf calls')).card ≤ (usableSlots cfg w.kernel).card)
    (B : InAddr) (hB : B ≠ A) :
    (run cfg env calls (provisionInit w)).SamePeer B (run cfg env' calls' (provisionInit w)) := by
  have hsub : ∀ packet ∈ packetsOf calls, packet ∈ packetsOf calls' := by
    intro packet hpacket
    rw [← hinsert] at hpacket
    exact (List.mem_filter.mp hpacket).1
  have hstart : (provisionInit w).SmoothRun cfg w.kernel (authorisedRemotes cfg (packetsOf calls')) :=
    provisionInit_smooth hclock
  obtain ⟨hsmooth, hregistry⟩ := run_claims hcalls hstart hroom
    (fun packet hpacket => mem_authorisedRemotes (hsub packet hpacket)) hok
  obtain ⟨hsmooth', hregistry'⟩ := run_claims hcalls' hstart hroom
    (fun packet hpacket => mem_authorisedRemotes hpacket) hok'
  refine samePeer_of_registry hsmooth hsmooth' ?_
  -- the addresses that `A` sends
  let S : Set CStr := { mac | ∃ a ∈ packetsOf calls', a.remote = A ∧ macText a.mac = mac }
  have hS : ∀ c ∈ claimsOf cfg (packetsOf calls'), c.2 ∈ S ↔ c.1 = A := by
    intro c hc
    obtain ⟨packet, hpacket, rfl⟩ := List.mem_map.mp hc
    have hpacket := (List.mem_filter.mp hpacket).1
    constructor
    · rintro ⟨a, ha, hA, hmac⟩
      by_contra hne
      refine hmacs a ha hA packet ?_ (macText_injective hmac).symm
      rw [← hinsert]
      exact List.mem_filter.mpr ⟨hpacket, decide_eq_true hne⟩
    · exact fun hA => ⟨packet, hpacket, hA, rfl⟩
  have hbeside : Registry.Beside A S (provisionInit w).abs.store.registry
      (provisionInit w).abs.store.registry := by
    rw [abs_provisionInit]
    refine ⟨fun _ _ => rfl, rfl, fun items hitems => ?_⟩
    cases hitems
  have hfold := Registry.foldl_claim_beside maxClients _ hS hbeside
  rw [filter_claimsOf, hinsert] at hfold
  rw [hregistry, hregistry']
  exact (hfold.others B hB).symm

namespace Sample

/-- A second remote, with an address of its own. -/
def neighbour : PayloadPacket :=
  ⟨InAddr.ofBytes 10 0 0 3, InAddr.ofBytes 10 0 0 1, #v[2, 0, 0, 0, 0, 9], 100⟩

theorem two_usable : 2 ≤ (usableSlots config (start obliging).world.kernel).card := by
  have hsub : ({0, 1} : Finset Nat) ⊆ usableSlots config (start obliging).world.kernel := by
    intro id hid
    rcases Finset.mem_insert.mp hid with rfl | hid
    · exact Finset.mem_filter.mpr ⟨Finset.mem_range.mpr (by decide), by decide +kernel⟩
    · rw [Finset.mem_singleton.mp hid]
      exact Finset.mem_filter.mpr ⟨Finset.mem_range.mpr (by decide), by decide +kernel⟩
  exact Finset.card_le_card hsub

theorem not_fails_of_trace {w w' : World} (h : w'.trace.all (·.ok) = true) : ¬ w.Fails w' := by
  rintro ⟨ev, ⟨evs, htrace, hmem⟩, hok⟩
  have hev := List.all_eq_true.mp h ev (htrace ▸ List.mem_append_left _ hmem)
  rw [hok] at hev
  cases hev

end Sample

/-- A neighbour comes first, and takes the first slot. -/
theorem peers_do_not_interfere_neighbour :
    (run Sample.config Sample.obliging [.packet Sample.packet, .wait 5]
      (Sample.start Sample.obliging)).SamePeer Sample.packet.remote
    (run Sample.config Sample.obliging
      [.packet Sample.neighbour, .wait 1, .packet Sample.packet] (Sample.start Sample.obliging)) :=
  peers_do_not_interfere Sample.config Sample.obliging Sample.obliging _ Sample.neighbour.remote
    [.packet Sample.packet, .wait 5] [.packet Sample.neighbour, .wait 1, .packet Sample.packet]
    (by decide +kernel) (by decide) (by decide) (by decide +kernel)
    (by decide +kernel) (Sample.not_fails_of_trace (by decide +kernel))
    (Sample.not_fails_of_trace (by decide +kernel))
    ((List.toFinset_card_le _).trans (Nat.le_trans (by decide +kernel) Sample.two_usable))
    Sample.packet.remote (by decide)

end Softgre
