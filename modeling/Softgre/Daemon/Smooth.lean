-- SUMMARY: What a packet does to the tables when every command succeeds and there is room for every remote.
import Softgre.Base.Registry
import Softgre.Daemon.Keeps
import Softgre.Ledger.History

/-!
# Smooth runs

When no command fails, the tables are a registry: every remote that is let in has a
tunnel, and every address belongs to the remote that sent it first. What is left of
the slots and the links is that there is room for the next remote.
-/

namespace Softgre

open Base

variable {cfg : SoftgredConfig} {env : Env} {s s' : Sys} {p : Ptr}

/-! ## The tables as a registry -/

namespace Store

variable {st st' : Store} {t u : Tunnel} {mac : CStr}

/-- The addresses of every remote that has a tunnel. -/
def registry (st : Store) : Registry InAddr CStr := fun r =>
  (st.tunnels r).bind fun p => (st.heap p).map Tunnel.macs

theorem registry_of_heap (hst : st.Inv cfg) (hp : st.heap p = some t) :
    st.registry t.remote = some t.macs := by
  rw [registry, hst.live hp, Option.bind_some, hp, Option.map_some]

theorem registry_of_none {r : InAddr} (h : st.tunnels r = none) : st.registry r = none := by
  rw [registry, h, Option.bind_none]

theorem registry_eq_some (hst : st.Inv cfg) {r : InAddr} {macs : Finset CStr}
    (h : st.registry r = some macs) : ∃ p t, st.heap p = some t ∧ t.remote = r ∧ t.macs = macs := by
  obtain ⟨p, hlookup, hmacs⟩ := Option.bind_eq_some_iff.mp h
  obtain ⟨t, ht, hremote⟩ := hst.tracked hlookup
  rw [ht] at hmacs
  exact ⟨p, t, ht, hremote, Option.some.inj hmacs⟩

theorem held_iff (hst : st.Inv cfg) : st.registry.Held mac ↔ (st.owner mac).isSome = true := by
  rw [Option.isSome_iff_exists]
  constructor
  · rintro ⟨r, macs, hmacs, hmem⟩
    obtain ⟨p, t, ht, -, rfl⟩ := registry_eq_some hst hmacs
    exact ⟨p, hst.owner_iff.mpr ⟨t, ht, hmem⟩⟩
  · rintro ⟨p, howner⟩
    obtain ⟨t, ht, hmem⟩ := hst.owner_iff.mp howner
    exact ⟨t.remote, t.macs, registry_of_heap hst ht, hmem⟩

/-- A record is added or rewritten, and nothing else. -/
theorem registry_of_update (hheap : st'.heap = Function.update st.heap p (some u))
    (hlookup : st'.tunnels u.remote = some p)
    (hothers : ∀ r, r ≠ u.remote → st'.tunnels r = st.tunnels r ∧ st.tunnels r ≠ some p) :
    st'.registry = Function.update st.registry u.remote (some u.macs) := by
  funext r
  by_cases hr : r = u.remote
  · rw [hr, Function.update_self, registry, hlookup, Option.bind_some, hheap, Function.update_self,
      Option.map_some]
  · obtain ⟨hsame, hne⟩ := hothers r hr
    rw [Function.update_of_ne hr, registry, registry, hsame]
    refine Option.bind_congr fun q hq => ?_
    have hqp : q ≠ p := by
      rintro rfl
      exact hne hq
    rw [hheap, Function.update_of_ne hqp]

/-- Rewriting a record that keeps its remote. -/
theorem registry_write (hst : st.Inv cfg) (hp : st.heap p = some t) (hremote : u.remote = t.remote) :
    (st.write p u).registry = Function.update st.registry u.remote (some u.macs) := by
  have hlookup : st.tunnels u.remote = some p := hremote ▸ hst.live hp
  refine registry_of_update rfl hlookup fun r hr => ⟨rfl, fun heq => ?_⟩
  obtain ⟨v, hv, hvremote⟩ := hst.tracked heq
  cases hp.symm.trans hv
  exact hr (hvremote.symm.trans hremote.symm)

theorem registry_learn (hst : st.Inv cfg) (hp : st.heap p = some t) :
    (st.learn p t mac).registry = Function.update st.registry t.remote (some (insert mac t.macs)) :=
  registry_write (u := { t with macs := insert mac t.macs }) hst hp rfl

end Store

/-! ## Setting up a tunnel -/

/-- The names of tunnels that are in use. -/
def World.Names (cfg : SoftgredConfig) (used : Nat → Bool) (w : World) : Prop :=
  ∀ i < maxSlots, w.kernel.hasLink (tunnelName cfg i) = used i

theorem firewallKept_names (used : Nat → Bool) : FirewallKept env (World.Names cfg used) where
  helperExec hcmd w hw :=
    wp_mono ((firewallKept_links w.kernel.links).helperExec hcmd w rfl) fun _ _ hlinks i hi =>
      (Kernel.hasLink_congr hlinks _).trans (hw i hi)

/-- The VLAN links of a tunnel have other names than tunnels. -/
theorem attach_names (used : Nat → Bool) {id : Nat} (hid : id < maxSlots) {b : TunnelBridge}
    (hb : b ∈ cfg.bridge) :
    Keeps (World.Names cfg used) (ifaceBridgeAttach env (tunnelName cfg id) b.ifname b.vlanId) := by
  intro w hw
  refine wp_mono (ifaceBridgeAttach_spec env _ _ _ w) fun ret w' h i hi => ?_
  obtain ⟨ev, ⟨-, rfl, hrefused, -⟩ | ⟨hdone, ev', rfl, h⟩⟩ := h
  · exact (Kernel.hasLink_congr (congrArg Kernel.links hrefused.kernel) _).trans (hw i hi)
  obtain ⟨-, -, hk⟩ := Kernel.apply_newVlan_iff.mp hdone.apply
  have hvlan : ev.kernel.hasLink (tunnelName cfg i) = used i := by
    have hne := vlanName_ne_tunnelName cfg hid hi (cfg.bridge_valid b hb).2.2
    rw [hk, Kernel.hasLink_addLink, beq_eq_false_iff_ne.mpr hne, Bool.false_or]
    exact hw i hi
  show ev'.kernel.hasLink (tunnelName cfg i) = used i
  rcases h with ⟨-, hrefused, -⟩ | ⟨-, hdone'⟩
  · rw [hrefused.kernel]
    exact hvlan
  · obtain ⟨-, -, hk'⟩ := Kernel.apply_setMaster_iff.mp hdone'.apply
    rw [hk', Kernel.hasLink_enslave]
    exact hvlan

theorem setupTunnel_names {used : Nat → Bool} {id : Nat} {tun : TunnelContext}
    (hp : s.heap p = some tun) (hname : tun.ifgre = tunnelName cfg id) (hid : id < maxSlots)
    (hs : s.world.Names cfg used) :
    wp (setupTunnel cfg env p) (fun _ s' => s'.world.Names cfg used) s := by
  rw [setupTunnel, wp_bind]
  simp only [addTunnelHooks, wp_bind, wp_get, wp_pure, wp_lift, deref_of_some hp]
  refine wp_mono ((firewallKept_names used).addHooks tun.ifgre hooks 0 tun.firewallHooks s.world hs)
    fun out w hw => ?_
  have hp₁ : (s.withWorld w).heap p = some tun := hp
  refine wp_modifyTunnel hp₁ ?_
  cases out.1 with
  | fail => exact hw
  | ok =>
    have hp₂ := heap_write_self (s.withWorld w) p { tun with firewallHooks := out.2 }
    simp only [wp_bind, wp_get, wp_lift, deref_of_some hp₂]
    refine keeps_attachBridges (fun b hb => ?_) w hw
    rw [hname]
    exact attach_names used hid hb

theorem kept_fails (w : World) : Kept env (w.Fails ·) :=
  Kept.of_record (fun _ _ hw => hw.extend (List.suffix_cons _ _)) (fun _ _ hw => hw) fun _ _ hw => hw

theorem kept_thwarts (w : World) : Kept env (w.Thwarts ·) :=
  Kept.of_record (fun _ _ hw => hw.extend (List.suffix_cons _ _)) (fun _ _ hw => hw) fun _ _ hw => hw

/-- `remote` has a tunnel in slot `id` now, ready and without addresses. -/
structure Sys.Gains (cfg : SoftgredConfig) (remote : InAddr) (id : Nat) (s s' : Sys) : Prop where
  store : ∃ x, s'.abs.store = (s.abs.store.track (.fresh cfg remote id)).write s.brk
    ⟨remote, tunnelName cfg id, id, true, x, ∅⟩
  idle : s'.cleanupPending = s.cleanupPending
  counters : s'.counters = s.counters
  names : ∀ i < maxSlots, s'.world.kernel.hasLink (tunnelName cfg i) =
    (i == id || s.world.kernel.hasLink (tunnelName cfg i))

theorem createTunnel_gains {remote : InAddr} {id : Nat} (hst : s.abs.store.Inv cfg)
    (hidle : s.cleanupPending = false) (hnone : provisionGetTunnelByip s remote = none)
    (hid : id < maxSlots) (hslot : s.slots id = false) :
    wp (createTunnel cfg env remote id) (fun out s' => s.world.Thwarts s'.world ∨
      (out = some s.brk ∧ s.Gains cfg remote id s')) s := by
  simp only [createTunnel, xcalloc, wp_bind, wp_get, wp_pure, wp_modify, wp_lift]
  refine wp_mono (ifaceGreAdd_spec env _ _ _ _ s.world) fun ret w h => ?_
  obtain ⟨ev, rfl, ⟨rfl, hdone⟩ | ⟨rfl, hrefused, hvain⟩⟩ := h
  · obtain ⟨-, hk⟩ := Kernel.apply_newGretap_iff.mp hdone.apply
    rw [wp_bind]
    refine wp_mono (trackTunnel_spec hnone (s.world.record ev)) fun _ s₁ h₁ => ?_
    obtain ⟨habs₁, hp₁, -, hworld₁, hidle₁, hcounters₁⟩ := h₁
    have hstep : Step cfg (.track remote) s.abs s₁.abs :=
      habs₁ ▸ Step.track hidle hnone hid hslot hdone
    have hnames₁ : s₁.world.Names cfg fun i =>
        i == id || s.world.kernel.hasLink (tunnelName cfg i) := by
      intro i hi
      have hsame : (tunnelName cfg id == tunnelName cfg i) = (i == id) := by
        rw [Bool.eq_iff_iff, beq_iff_eq, beq_iff_eq]
        exact ⟨fun heq => (tunnelName_injective cfg hid hi heq).symm, fun heq => by rw [heq]⟩
      rw [hworld₁, World.record, hk, Kernel.hasLink_addLink, hsame]
    rw [wp_bind]
    refine wp_mono (wp_and (setupTunnel_spec cfg env (hstep.tables hst) (hidle₁.trans hidle) hp₁)
      (setupTunnel_names hp₁ rfl hid hnames₁)) fun ret s₂ h₂ => ?_
    obtain ⟨⟨x, w, rfl, -, -, hfail⟩, hnames₂⟩ := h₂
    cases ret with
    | fail =>
      have hthwarts : s.world.Thwarts w := by
        refine (hfail rfl).of_suffix ?_
        rw [hworld₁]
        exact List.suffix_cons _ _
      rw [wp_bind]
      exact wp_mono ((kept_thwarts s.world).provisionDel remote _ hthwarts)
        fun _ _ h => .inl h
    | ok =>
      have hp₂ := heap_write_self (s₁.withWorld w) s.brk
        ⟨remote, tunnelName cfg id, id, false, x, Hashmap.new⟩
      have hstore : ∀ tun, (((s₁.withWorld w).write s.brk tun).write s.brk
          ⟨remote, tunnelName cfg id, id, true, x, Hashmap.new⟩).abs.store =
          (s.abs.store.track (.fresh cfg remote id)).write s.brk
            ⟨remote, tunnelName cfg id, id, true, x, ∅⟩ := by
        intro tun
        have htrack : (s₁.withWorld w).abs.store = s.abs.store.track (.fresh cfg remote id) := by
          show s₁.abs.store = _
          rw [habs₁, Core.store_withStore]
        rw [abs_write, abs_write, Core.store_withStore, Core.store_withStore, Store.write_write,
          htrack]
        simp only [TunnelContext.abs, Hashmap.keySet_new]
      rw [wp_bind]
      exact wp_modifyTunnel hp₂ (.inr ⟨rfl, ⟨x, hstore _⟩, hidle₁, hcounters₁, hnames₂⟩)
  · exact .inl (hrefused.thwarts hvain)

/-- A remote without a tunnel gets one where there is room. -/
theorem addTunnel_gains {remote : InAddr} (hst : s.abs.store.Inv cfg)
    (hidle : s.cleanupPending = false) (hnone : provisionGetTunnelByip s remote = none)
    (hroom : ¬ s.Full cfg) :
    wp (addTunnel cfg env remote) (fun out s' => s.world.Thwarts s'.world ∨
      ∃ id, out = some s.brk ∧ s.Gains cfg remote id s') s := by
  rw [addTunnel, wp_bind]
  refine wp_mono (findSlot_spec maxSlots (Nat.le_refl _)) fun out s₁ h₁ => ?_
  rcases h₁ with ⟨id, e, rfl, -, rfl, hid, hslot, -⟩ | ⟨-, -, hfull⟩
  · refine wp_mono (createTunnel_gains (s := s.setErrno e) hst hidle hnone hid hslot)
      fun out s' h' => h'.imp_right fun hgains => ⟨id, hgains.1, ?_⟩
    exact ⟨hgains.2.store, hgains.2.idle, hgains.2.counters, hgains.2.names⟩
  · exact absurd (fun id hid => hfull id (by omega) hid) hroom

/-! ## Learning an address -/

/-- The tunnel at `p` has learned the address, and nothing else changed. -/
structure Sys.Learns (p : Ptr) (t : Tunnel) (mac : CStr) (s s' : Sys) : Prop where
  store : s'.abs.store = s.abs.store.learn p t mac
  idle : s'.cleanupPending = s.cleanupPending
  counters : s'.counters = s.counters
  links : s'.world.kernel.links = s.world.kernel.links

theorem provisionTunnelAllowMac_learns (cfg : SoftgredConfig) {tun : TunnelContext} {mac : CStr}
    (hp : s.heap p = some tun) (hready : tun.ready = true) (hmac : tun.macs.contains mac = false)
    (hnone : provisionGetTunnelByMac s mac = none) :
    wp (provisionTunnelAllowMac env p mac) (fun ret s' => s.world.Thwarts s'.world ∨
      (ret = false ∧ maxClients ≤ tun.macs.keySet.card ∧ s' = s.setErrno ENOSPC) ∨
      (ret = true ∧ tun.macs.keySet.card < maxClients ∧ s.Learns p tun.abs mac s')) s := by
  simp only [provisionTunnelAllowMac, wp_bind, wp_get, deref_of_some hp, hready, hmac,
    Bool.not_true, Bool.false_eq_true, if_false]
  rw [← Hashmap.card_keySet]
  refine wp_ite (fun hfull => .inr (.inl ⟨rfl, hfull, rfl⟩)) (fun hroom => ?_)
  simp only [wp_bind, wp_get, wp_lift, hnone, Option.isSome_none, Bool.false_eq_true, if_false]
  refine wp_mono (wp_and (ifaceEbtablesAllow_spec cfg env (heap_abs_of_some hp))
    ((firewallKept_links _).ifaceEbtablesAllow _ _ s.world rfl)) fun ret w h => ?_
  obtain ⟨⟨rfl, -⟩ | ⟨rfl, hthwarts, -⟩, hlinks⟩ := h
  · simp only [wp_bind, wp_modify, wp_pure]
    refine wp_modifyTunnel (show (s.withWorld w).heap p = some tun from hp) ?_
    refine .inr (.inr ⟨trivial, Nat.lt_of_not_ge hroom, ?_, rfl, rfl, hlinks⟩)
    exact congrArg Core.store (abs_learn (s.withWorld w) p tun mac)
  · exact .inl hthwarts

/-! ## Room for everyone -/

/-- The slots whose names are free on the host. -/
def usableSlots (cfg : SoftgredConfig) (host : Kernel) : Finset Nat :=
  (Finset.range maxSlots).filter fun id => host.hasLink (tunnelName cfg id) = false

/-- Everything went well so far: all tunnels are ready, they belong to `remotes`, and
    no name is in use that was not before, but for theirs. -/
structure Sys.Smooth (cfg : SoftgredConfig) (host : Kernel) (remotes : Finset InAddr) (s : Sys) :
    Prop where
  idle : s.cleanupPending = false
  retry : s.retryAfter = 0
  ready : ∀ {p t}, s.abs.store.heap p = some t → t.ready = true
  remote : ∀ {p t}, s.abs.store.heap p = some t → t.remote ∈ remotes
  names : ∀ id < maxSlots, s.world.kernel.hasLink (tunnelName cfg id) = true →
    host.hasLink (tunnelName cfg id) = true ∨ s.slots id = true

namespace Sys.Smooth

variable {host : Kernel} {remotes : Finset InAddr} {remote : InAddr}

/-- A remote that has no tunnel yet finds a slot. -/
theorem not_full (h : s.Smooth cfg host remotes) (hst : s.abs.store.Inv cfg)
    (hroom : remotes.card ≤ (usableSlots cfg host).card) (hremote : remote ∈ remotes)
    (hnone : provisionGetTunnelByip s remote = none) : ¬ s.Full cfg := by
  intro hfull
  have hused : ∀ id ∈ usableSlots cfg host, ∃ p t, s.abs.store.heap p = some t ∧ t.id = id := by
    intro id hid
    obtain ⟨hlt, hfree⟩ := Finset.mem_filter.mp hid
    have hlt := Finset.mem_range.mp hlt
    refine hst.slot_iff.mp ((hfull id hlt).elim (fun hslot => hslot) fun hlink => ?_)
    refine (h.names id hlt hlink).resolve_left fun hhost => ?_
    rw [hfree] at hhost
    cases hhost
  have : Nonempty Tunnel := ⟨.fresh cfg remote 0⟩
  choose! ptr tunnel hheap hid using hused
  -- distinct slots belong to distinct remotes, none of which is the new one
  have hcard : (usableSlots cfg host).card ≤ (remotes.erase remote).card := by
    refine Finset.card_le_card_of_injOn (fun id => (tunnel id).remote) (fun id hmem => ?_) ?_
    · refine Finset.mem_coe.mpr (Finset.mem_erase.mpr ⟨fun heq => ?_, h.remote (hheap id hmem)⟩)
      have hlookup := hst.live (hheap id hmem)
      rw [show (tunnel id).remote = remote from heq] at hlookup
      cases hnone.symm.trans hlookup
    · intro id hmem id' hmem' heq
      have hptr := hst.heap_inj (hheap id hmem) (hheap id' hmem') heq
      have htunnel := hheap id hmem
      rw [hptr, hheap id' hmem'] at htunnel
      rw [← hid id hmem, ← hid id' hmem', Option.some.inj htunnel]
  have hless := Finset.card_erase_lt_of_mem hremote
  omega

theorem gains (h : s.Smooth cfg host remotes) {id : Nat} (hst : s.abs.store.Inv cfg)
    (hremote : remote ∈ remotes) (hgains : s.Gains cfg remote id s') : s'.Smooth cfg host remotes := by
  obtain ⟨x, hstore⟩ := hgains.store
  have hheap : ∀ {p t}, s'.abs.store.heap p = some t →
      t = ⟨remote, tunnelName cfg id, id, true, x, ∅⟩ ∨ s.abs.store.heap p = some t := by
    intro p t hp
    rw [hstore] at hp
    rcases Store.heap_write_cases hp with ⟨-, ht⟩ | ⟨hne, hp⟩
    · exact .inl ht
    · rcases (Store.heap_track_iff (hst.fresh (Nat.le_refl _))).mp hp with ⟨heq, -⟩ | hp
      · exact absurd heq hne
      · exact .inr hp
  refine ⟨hgains.idle.trans h.idle, ?_, fun hp => ?_, fun hp => ?_, fun i hi hlink => ?_⟩
  · exact (congrArg (·.2.2.2) hgains.counters).trans h.retry
  · exact (hheap hp).elim (fun ht => by rw [ht]) h.ready
  · exact (hheap hp).elim (fun ht => by rw [ht]; exact hremote) h.remote
  · have hslots : s'.slots i = if i = id then true else s.slots i := by
      show s'.abs.store.slots i = _
      rw [hstore]
      exact Store.slots_track i
    rw [hgains.names i hi, Bool.or_eq_true, beq_iff_eq] at hlink
    rw [hslots]
    split
    · exact .inr rfl
    · next hne => exact h.names i hi (hlink.resolve_left hne)

theorem learns (h : s.Smooth cfg host remotes) {t : Tunnel} {mac : CStr}
    (hp : s.abs.store.heap p = some t) (hlearns : s.Learns p t mac s') :
    s'.Smooth cfg host remotes := by
  have hheap : ∀ {q u}, s'.abs.store.heap q = some u → ∃ v, s.abs.store.heap q = some v ∧
      u.ready = v.ready ∧ u.remote = v.remote := by
    intro q u hq
    rw [hlearns.store] at hq
    rcases Store.heap_write_cases hq with ⟨rfl, rfl⟩ | ⟨-, hq⟩
    · exact ⟨t, hp, rfl, rfl⟩
    · exact ⟨u, hq, rfl, rfl⟩
  refine ⟨hlearns.idle.trans h.idle, ?_, fun hq => ?_, fun hq => ?_, fun i hi hlink => ?_⟩
  · exact (congrArg (·.2.2.2) hlearns.counters).trans h.retry
  · obtain ⟨v, hv, hready, -⟩ := hheap hq
    rw [hready]
    exact h.ready hv
  · obtain ⟨v, hv, -, hremote⟩ := hheap hq
    rw [hremote]
    exact h.remote hv
  · rw [Kernel.hasLink_congr hlearns.links] at hlink
    have hslots : s'.slots = s.slots := congrArg Store.slots hlearns.store
    rw [hslots]
    exact h.names i hi hlink

end Sys.Smooth

/-! ## Handling a packet -/

section Packets

variable {host : Kernel} {remotes : Finset InAddr} {remote : InAddr} {mac : CStr} {now : Int}

/-- The claim of `remote` to `mac` went through, and all is well. -/
structure Sys.Claims (cfg : SoftgredConfig) (host : Kernel) (remotes : Finset InAddr)
    (remote : InAddr) (mac : CStr) (s s' : Sys) : Prop where
  smooth : s'.Smooth cfg host remotes
  registry : s'.abs.store.registry = s.abs.store.registry.claim maxClients (remote, mac)

/-- A ready tunnel takes the address or is full. -/
theorem allowMac_claims {tun : TunnelContext} (h : s.Smooth cfg host remotes)
    (hst : s.abs.store.Inv cfg) (hp : s.heap p = some tun)
    (hnone : provisionGetTunnelByMac s mac = none) :
    wp (provisionTunnelAllowMac env p mac) (fun learned s₁ => wp (settle learned now) (fun _ s' =>
      s.world.Fails s'.world ∨ s.Claims cfg host remotes tun.ipRemote mac s') s₁) s := by
  have habs := heap_abs_of_some hp
  have hregistry : s.abs.store.registry tun.ipRemote = some tun.macs.keySet :=
    Store.registry_of_heap hst habs
  have hheld : ¬ s.abs.store.registry.Held mac := by
    rw [Store.held_iff hst, show s.abs.store.owner mac = none from hnone]
    exact Bool.false_ne_true
  have hmac : tun.macs.contains mac = false := by
    by_contra hknown
    refine hheld ⟨_, _, hregistry, Hashmap.mem_keySet.mpr (Bool.of_not_eq_false hknown)⟩
  refine wp_mono (provisionTunnelAllowMac_learns cfg hp (h.ready habs) hmac hnone)
    fun learned s₁ h₁ => ?_
  rcases h₁ with hthwarts | ⟨rfl, hfull, rfl⟩ | ⟨rfl, hroom, hlearns⟩
  · exact wp_mono (Kept.settle (I := (s.world.Fails ·)) learned now s₁ hthwarts.fails)
      fun _ _ h => .inl h
  · refine wp_mono settle_spec fun _ s' hs' => .inr ?_
    obtain rfl : s' = { s.setErrno ENOSPC with ignored := s.ignored + 1 } := hs'
    refine ⟨⟨h.idle, h.retry, h.ready, h.remote, h.names⟩, ?_⟩
    rw [Registry.claim_of_not_held hheld, hregistry, Option.getD_some,
      if_neg (Nat.not_lt_of_le hfull), ← hregistry, Function.update_eq_self]
    rfl
  · refine wp_mono settle_spec fun _ s' hs' => .inr ?_
    obtain rfl : s' = s₁ := hs'
    refine ⟨h.learns habs hlearns, ?_⟩
    rw [hlearns.store, Store.registry_learn hst habs, Registry.claim_of_not_held hheld]
    rw [hregistry, Option.getD_some, if_pos hroom]
    rfl

theorem Sys.Gains.registry_eq {id : Nat} (hst : s.abs.store.Inv cfg)
    (hgains : s.Gains cfg remote id s') :
    s'.abs.store.registry = Function.update s.abs.store.registry remote (some ∅) := by
  obtain ⟨x, hstore⟩ := hgains.store
  rw [hstore]
  refine Store.registry_of_update (u := ⟨remote, tunnelName cfg id, id, true, x, ∅⟩)
    (Function.update_idem _ _ _) ?_ fun r hr => ⟨?_, fun heq => ?_⟩
  · exact (Store.tunnels_track remote).trans (if_pos rfl)
  · exact (Store.tunnels_track r).trans (if_neg hr)
  · obtain ⟨u, hu, -⟩ := hst.tracked heq
    cases (hst.fresh (Nat.le_refl _)).symm.trans hu

/-- The part behind the assignment to `errno`. -/
theorem attempt_claims (now : Int) (h : s.Smooth cfg host remotes) (hst : s.abs.store.Inv cfg)
    (hroom : remotes.card ≤ (usableSlots cfg host).card) (hremote : remote ∈ remotes)
    (hnone : provisionGetTunnelByMac s mac = none) :
    wp (readyTunnel cfg env remote (provisionGetTunnelByip s remote)) (fun tun s₁ =>
      wp (allowOn env tun mac) (fun learned s₂ => wp (settle learned now) (fun _ s' =>
        s.world.Fails s'.world ∨ s.Claims cfg host remotes remote mac s') s₂) s₁) s := by
  cases hlookup : provisionGetTunnelByip s remote with
  | some p =>
    obtain ⟨tun, hp, rfl⟩ := hst.record hlookup
    have hready : tun.ready = true := h.ready (heap_abs_of_some hp)
    simp only [readyTunnel, wp_bind, wp_get, Option.any_some, deref_of_some hp, hready, if_true,
      wp_pure, allowOn]
    exact allowMac_claims h hst hp hnone
  | none =>
    simp only [readyTunnel, wp_bind, wp_get, Option.any_none, Bool.false_eq_true, if_false,
      provisionAdd, h.idle, hlookup]
    refine wp_mono (wp_and (addTunnel_gains hst h.idle hlookup (h.not_full hst hroom hremote hlookup))
      (addTunnel_spec cfg env hst h.idle hlookup)) fun out s₁ h₁ => ?_
    rcases h₁ with ⟨hthwarts | ⟨id, rfl, hgains⟩, hspec⟩
    · refine wp_mono ((kept_fails s.world).allowOn out mac s₁ hthwarts.fails) fun learned s₂ hfails => ?_
      exact wp_mono (Kept.settle (I := (s.world.Fails ·)) learned now s₂ hfails)
        fun _ _ hfails => .inl hfails
    · rcases hspec with ⟨p, hout, hmoves, -, hfresh⟩ | ⟨hout, -⟩ | ⟨hout, -⟩
      · cases hout
        obtain ⟨tun, hp, hready, -⟩ := hfresh.record
        have hst₁ := hmoves.tables hst
        obtain rfl : tun.ipRemote = remote := hst₁.ipRemote_eq hfresh.lookup hp
        have hnone₁ : provisionGetTunnelByMac s₁ mac = none := by
          obtain ⟨x, hstore⟩ := hgains.store
          exact (congrFun (congrArg Store.owner hstore) mac).trans hnone
        have hheld : ¬ s.abs.store.registry.Held mac := by
          rw [Store.held_iff hst, show s.abs.store.owner mac = none from hnone]
          exact Bool.false_ne_true
        simp only [allowOn, wp_bind, wp_get, deref_of_some hp, hready, if_true]
        refine wp_mono (allowMac_claims (h.gains hst hremote hgains) hst₁ hp hnone₁)
          fun learned s₂ h₂ => wp_mono h₂ fun _ s' h' => ?_
        refine h'.imp (·.of_suffix (Core.trail_suffix hmoves.trail)) fun hclaims => ?_
        refine ⟨hclaims.smooth, hclaims.registry.trans ?_⟩
        rw [hgains.registry_eq hst, Registry.claim_update (Store.registry_of_none hlookup) hheld]
      · cases hout
      · cases hout

theorem learnPacket_claims (h : s.Smooth cfg host remotes) (hst : s.abs.store.Inv cfg)
    (hroom : remotes.card ≤ (usableSlots cfg host).card) (hremote : remote ∈ remotes)
    (hnone : provisionGetTunnelByMac s mac = none) :
    wp (learnPacket cfg env remote mac (provisionGetTunnelByip s remote) now) (fun _ s' =>
      s.world.Fails s'.world ∨ s.Claims cfg host remotes remote mac s') s := by
  have h₀ : (s.setErrno 0).Smooth cfg host remotes :=
    ⟨h.idle, h.retry, h.ready, h.remote, h.names⟩
  simp only [learnPacket, wp_bind, wp_modify]
  refine wp_mono (attempt_claims now h₀ hst hroom hremote hnone) fun tun s₁ h₁ => ?_
  refine wp_mono h₁ fun learned s₂ h₂ => wp_mono h₂ fun _ s' h' => ?_
  exact h'.imp_right fun hclaims => ⟨hclaims.smooth, hclaims.registry⟩

/-- The packet passes the filters that do not look at the tables. -/
def accepted (cfg : SoftgredConfig) (packet : PayloadPacket) : Bool :=
  addressed cfg packet && configRemoteAllowed cfg (ntohl packet.remote.sAddr) && mapped cfg packet

/-- The claim a packet makes, if it is let in. -/
def PayloadPacket.claim (packet : PayloadPacket) : InAddr × CStr := (packet.remote, macText packet.mac)

/-- A packet that is let in is a claim, and any other changes nothing. -/
theorem provisionPacket_claims {packet : PayloadPacket} (h : s.Smooth cfg host remotes)
    (hst : s.abs.store.Inv cfg) (hclock : 0 ≤ s.world.clock)
    (hroom : remotes.card ≤ (usableSlots cfg host).card)
    (hremote : accepted cfg packet = true → packet.remote ∈ remotes) :
    wp (provisionPacket cfg env packet) (fun _ s' => s.world.Fails s'.world ∨
      (s'.Smooth cfg host remotes ∧ s'.abs.store.registry =
        if accepted cfg packet = true then s.abs.store.registry.claim maxClients packet.claim
        else s.abs.store.registry)) s := by
  have hignored : s.counted.Smooth cfg host remotes ∧
      ({ s.counted with ignored := s.ignored + 1 } : Sys).Smooth cfg host remotes :=
    ⟨⟨h.idle, h.retry, h.ready, h.remote, h.names⟩, ⟨h.idle, h.retry, h.ready, h.remote, h.names⟩⟩
  have hrejected : accepted cfg packet = false → s.world.Fails s.world ∨
      (({ s.counted with ignored := s.ignored + 1 } : Sys).Smooth cfg host remotes ∧
        s.abs.store.registry = if accepted cfg packet = true then
          s.abs.store.registry.claim maxClients packet.claim else s.abs.store.registry) := by
    intro hno
    rw [hno]
    exact .inr ⟨hignored.2, rfl⟩
  simp only [provisionPacket, wp_bind, wp_modify, wp_get]
  refine wp_ite (fun hpend => absurd hpend (by simp [h.idle])) (fun _ => ?_)
  refine wp_ite (fun hno => hrejected (by simp_all [accepted])) (fun haddr => ?_)
  refine wp_ite (fun hno => hrejected (by simp_all [accepted])) (fun hallow => ?_)
  refine wp_ite (fun hno => hrejected (by simp_all [accepted])) (fun hmapped => ?_)
  have haccepted : accepted cfg packet = true := by simp_all [accepted]
  rw [if_pos haccepted]
  simp only [wp_bind, wp_get]
  refine wp_ite (fun hknown => .inr ⟨hignored.1, ?_⟩) (fun _ => ?_)
  · obtain ⟨p, hlookup, hmac⟩ := (Option.any_eq_true _ _).mp hknown
    obtain ⟨tun, hp, -⟩ := hst.record hlookup
    have ht := heap_abs_of_some hp
    have hmac : tun.macs.contains (macText packet.mac) = true := by
      rw [← deref_of_some hp]
      exact hmac
    refine (Registry.claim_of_held ?_).symm
    exact ⟨_, _, Store.registry_of_heap hst ht, Hashmap.mem_keySet.mpr hmac⟩
  refine wp_ite (fun howned => .inr ⟨hignored.2, ?_⟩) (fun hunowned => ?_)
  · exact (Registry.claim_of_held ((Store.held_iff hst).mpr howned)).symm
  refine wp_ite (fun hearly => ?_) (fun _ => ?_)
  · rw [show Sys.retryAfter _ = 0 from h.retry] at hearly
    exact absurd hearly (Int.not_lt.mpr hclock)
  · refine wp_mono (learnPacket_claims hignored.1 hst hroom (hremote haccepted)
      (Option.not_isSome_iff_eq_none.mp hunowned)) fun _ s' h' => h'.imp_right fun hclaims => ?_
    exact ⟨hclaims.smooth, hclaims.registry⟩

end Packets

end Softgre
