-- SUMMARY: Outside a pending cleanup, a ready tunnel has all its jumps and all its VLANs in their bridges.
import Softgre.Daemon.Keeps
import Softgre.Daemon.Recovery

/-!
# Whole tunnels

The ledger does not know what `ready` stands for: it is set when the last command of
the setup has succeeded. From then on nothing takes a jump or a VLAN link away from
the tunnel until a cleanup begins, although the daemon may remove other tunnels.
-/

namespace Softgre

open Base

variable {cfg : SoftgredConfig} {env : Env} {s s' : Sys} {p : Ptr}

/-! ## Attaching VLANs -/

/-- The link that carries the VLAN of `b` over the tunnel `name`, in its bridge. -/
def TunnelBridge.link (b : TunnelBridge) (name : CStr) : Link :=
  ⟨vlanName name b.vlanId, .vlan name b.vlanId, some b.ifname⟩

/-- The link that is put into the bridge is the new one only. -/
theorem Kernel.links_of_attach {k k₁ k' : Kernel} {name parent bridge : CStr} {vid : UInt16}
    (hvlan : k.apply (.newVlan name parent vid) = some k₁)
    (hmaster : k₁.apply (.setMaster name bridge) = some k') :
    k'.links = ⟨name, .vlan parent vid, some bridge⟩ :: k.links := by
  obtain ⟨hfree, -, rfl⟩ := Kernel.apply_newVlan_iff.mp hvlan
  obtain ⟨-, -, rfl⟩ := Kernel.apply_setMaster_iff.mp hmaster
  have hothers : ∀ l ∈ k.links, (if l.name = name then { l with master := some bridge } else l) = l :=
    fun l hl => if_neg (Kernel.hasLink_eq_false_iff.mp hfree l hl)
  simp only [Kernel.enslave, Kernel.addLink, List.map_cons, if_true, List.map_congr_left hothers,
    List.map_id']

theorem ifaceBridgeAttach_links (gre : CStr) (b : TunnelBridge) (w : World) :
    wp (ifaceBridgeAttach env gre b.ifname b.vlanId) (fun ret w' =>
      w.kernel.links ⊆ w'.kernel.links ∧ (ret = .ok → b.link gre ∈ w'.kernel.links)) w := by
  refine wp_mono (ifaceBridgeAttach_spec env _ _ _ w) fun ret w' h => ?_
  obtain ⟨ev, ⟨rfl, rfl, hrefused, -⟩ | ⟨hdone, ev', rfl, ⟨rfl, hrefused, -⟩ | ⟨rfl, hdone'⟩⟩⟩ := h
  · refine ⟨?_, fun hret => by cases hret⟩
    show w.kernel.links ⊆ ev.kernel.links
    rw [hrefused.kernel]
    exact List.Subset.refl _
  · refine ⟨?_, fun hret => by cases hret⟩
    obtain ⟨-, -, hk⟩ := Kernel.apply_newVlan_iff.mp hdone.apply
    show w.kernel.links ⊆ ev'.kernel.links
    rw [hrefused.kernel, hk]
    exact List.subset_cons_self _ _
  · have hlinks : ev'.kernel.links = b.link gre :: w.kernel.links :=
      Kernel.links_of_attach hdone.apply hdone'.apply
    show w.kernel.links ⊆ ev'.kernel.links ∧ (_ → b.link gre ∈ ev'.kernel.links)
    rw [hlinks]
    exact ⟨List.subset_cons_self _ _, fun _ => List.mem_cons_self⟩

/-- Attaching adds links, and if it succeeds those of all bridges are there. -/
theorem attachBridges_links (gre : CStr) (bs : List TunnelBridge) : ∀ w : World,
    wp (attachBridges env gre bs) (fun ret w' => w.kernel.links ⊆ w'.kernel.links ∧
      (ret = .ok → ∀ b ∈ bs, b.link gre ∈ w'.kernel.links)) w := by
  induction bs with
  | nil => exact fun w => ⟨List.Subset.refl _, fun _ _ hb => absurd hb List.not_mem_nil⟩
  | cons b rest ih =>
    intro w
    rw [attachBridges, wp_bind]
    refine wp_mono (ifaceBridgeAttach_links gre b w) fun ret w₁ h₁ => ?_
    cases ret with
    | fail => exact ⟨h₁.1, fun hret => by cases hret⟩
    | ok =>
      refine wp_mono (ih w₁) fun ret w' h' => ⟨List.Subset.trans h₁.1 h'.1, fun hret => ?_⟩
      exact List.forall_mem_cons.mpr ⟨h'.1 (h₁.2 rfl), h'.2 hret⟩

theorem setupTunnel_links {tun : TunnelContext} (hp : s.heap p = some tun) :
    wp (setupTunnel cfg env p) (fun ret s' => s.world.kernel.links ⊆ s'.world.kernel.links ∧
      (ret = .ok → ∀ b ∈ cfg.bridge, b.link tun.ifgre ∈ s'.world.kernel.links)) s := by
  rw [setupTunnel, wp_bind]
  simp only [addTunnelHooks, wp_bind, wp_get, wp_pure, wp_lift, deref_of_some hp]
  refine wp_mono ((firewallKept_links s.world.kernel.links).addHooks tun.ifgre hooks 0
    tun.firewallHooks s.world rfl) fun out w hlinks => ?_
  refine wp_modifyTunnel (show (s.withWorld w).heap p = some tun from hp) ?_
  cases out.1 with
  | fail => exact ⟨hlinks ▸ List.Subset.refl _, fun hret => by cases hret⟩
  | ok =>
    have hp₁ := heap_write_self (s.withWorld w) p { tun with firewallHooks := out.2 }
    simp only [wp_bind, wp_get, wp_lift, deref_of_some hp₁]
    refine wp_mono (attachBridges_links tun.ifgre cfg.bridge w) fun ret w' h => ⟨?_, h.2⟩
    exact hlinks ▸ h.1

/-! ## Whole tunnels -/

/-- Every jump of `t` is installed and every VLAN in its bridge. -/
structure Tunnel.Whole (cfg : SoftgredConfig) (k : Kernel) (t : Tunnel) : Prop where
  hooks : t.hooks = allHooks
  attached : ∀ b ∈ cfg.bridge, b.link t.ifgre ∈ k.links

/-- The ready tunnels are whole. -/
def Core.Whole (cfg : SoftgredConfig) (c : Core) : Prop :=
  ∀ q t, c.store.heap q = some t → t.ready = true → t.Whole cfg c.kernel

/-- More links do no harm, and neither do records that are not ready. -/
theorem Core.Whole.mono {c c' : Core} (h : c.Whole cfg) (hlinks : c.kernel.links ⊆ c'.kernel.links)
    (hheap : ∀ q t, c'.store.heap q = some t → t.ready = true →
      c.store.heap q = some t ∨ t.Whole cfg c'.kernel) : c'.Whole cfg := by
  intro q t ht hready
  rcases hheap q t ht hready with hold | hwhole
  · obtain ⟨hhooks, hattached⟩ := h q t hold hready
    exact ⟨hhooks, fun b hb => hlinks (hattached b hb)⟩
  · exact hwhole

/-- Rewriting one record. -/
theorem Core.Whole.write {c : Core} {w : World} {u : Tunnel} (h : c.Whole cfg)
    (hlinks : c.kernel.links ⊆ w.kernel.links) (hu : u.ready = true → u.Whole cfg w.kernel) :
    ((c.withWorld w).withStore (c.store.write p u)).Whole cfg := by
  refine h.mono hlinks fun q t ht hready => ?_
  rcases Store.heap_write_cases ht with ⟨rfl, rfl⟩ | ⟨-, ht⟩
  · exact .inr (hu hready)
  · exact .inl ht

/-- Removing a tunnel that is not ready, or failing to, has no bearing on the others. -/
theorem provisionDel_whole {remote : InAddr} {tun : TunnelContext} (h : s.abs.Whole cfg)
    (hst : s.abs.store.Inv cfg) (hlookup : provisionGetTunnelByip s remote = some p)
    (hp : s.heap p = some tun) (hunready : tun.ready = false) :
    wp (provisionDel env remote) (fun _ s' => s'.abs.Whole cfg) s := by
  refine wp_mono (provisionDel_spec cfg env s.world.kernel hst hlookup hp) fun ret s' hdel => ?_
  obtain ⟨hremoving, hout⟩ := hdel
  intro q t ht hready
  obtain ⟨tun', hq, rfl⟩ := heap_of_abs ht
  have hne : q ≠ p := by
    rintro rfl
    rcases hout with ⟨-, hremoved⟩ | ⟨-, hretained⟩
    · cases hremoved.record.symm.trans hq
    · obtain ⟨macs, x, hp'⟩ := hretained.record
      cases hq.symm.trans hp'
      cases hunready.symm.trans hready
  rw [hremoving.others hne] at hq
  have hold := heap_abs_of_some hq
  have hgone := heap_abs_of_some hp
  obtain ⟨hhooks, hattached⟩ := h q _ hold hready
  refine ⟨hhooks, fun b hb => ?_⟩
  show b.link tun'.ifgre ∈ s'.world.kernel.links
  rcases hremoving.unlinks with ⟨-, hlinks⟩ | ⟨hlinks, -⟩
  · rw [hlinks]
    -- neither the VLAN link nor the tunnel below it has the name of the removed one
    refine Kernel.mem_dropLink.mpr ⟨hattached b hb, fun heq => ?_, fun heq => ?_⟩
    · refine vlanName_ne_tunnelName cfg (hst.id_lt hold) (hst.id_lt hgone) (cfg.bridge_valid b hb).2.2 ?_
      rw [← hst.ifgre_eq hold, ← hst.ifgre_eq hgone]
      exact heq
    · exact hne (hst.ifgre_inj hold hgone (List.mem_singleton.mp heq).symm)
  · rw [hlinks]
    exact hattached b hb

/-! ## Setting up -/

theorem createTunnel_whole {remote : InAddr} {id : Nat} (h : s.abs.Whole cfg)
    (hst : s.abs.store.Inv cfg) (hidle : s.cleanupPending = false)
    (hnone : provisionGetTunnelByip s remote = none) (hid : id < maxSlots)
    (hslot : s.slots id = false) :
    wp (createTunnel cfg env remote id) (fun _ s' => s'.abs.Whole cfg) s := by
  simp only [createTunnel, xcalloc, wp_bind, wp_get, wp_pure, wp_modify, wp_lift]
  refine wp_mono (ifaceGreAdd_spec env _ _ _ _ s.world) fun ret w hgre => ?_
  obtain ⟨ev, rfl, ⟨rfl, hdone⟩ | ⟨rfl, hrefused, -⟩⟩ := hgre
  swap
  · have habs := abs_free_allocated remote id hst (s.world.record ev)
    show ((s.allocated cfg remote id (s.world.record ev)).free [s.brk]).abs.Whole cfg
    rw [habs]
    refine h.mono ?_ fun q t ht _ => .inl ht
    show s.world.kernel.links ⊆ ev.kernel.links
    rw [hrefused.kernel]
    exact List.Subset.refl _
  obtain ⟨-, hk⟩ := Kernel.apply_newGretap_iff.mp hdone.apply
  rw [wp_bind]
  refine wp_mono (trackTunnel_spec hnone (s.world.record ev)) fun _ s₁ h₁ => ?_
  obtain ⟨habs₁, hp₁, hlookup₁, hworld₁, hpend₁, -⟩ := h₁
  have hstep : Step cfg (.track remote) s.abs s₁.abs :=
    habs₁ ▸ Step.track hidle hnone hid hslot hdone
  have hst₁ := hstep.tables hst
  have hwhole₁ : s₁.abs.Whole cfg := by
    rw [habs₁]
    refine h.mono ?_ fun q t ht hready => ?_
    · show s.world.kernel.links ⊆ ev.kernel.links
      rw [hk]
      exact List.subset_cons_self _ _
    · rcases (Store.heap_track_iff (hst.fresh (Nat.le_refl _))).mp ht with ⟨-, rfl⟩ | ht
      · cases hready
      · exact .inl ht
  rw [wp_bind]
  refine wp_mono (wp_and (setupTunnel_spec cfg env hst₁ (hpend₁.trans hidle) hp₁)
    (setupTunnel_links hp₁)) fun ret s₂ h₂ => ?_
  obtain ⟨⟨x, w, rfl, hmoves₂, hhooks, -⟩, hlinks, hattached⟩ := h₂
  have hp₂ := heap_write_self (s₁.withWorld w) s.brk
    ⟨remote, tunnelName cfg id, id, false, x, Hashmap.new⟩
  cases ret with
  | fail =>
    have hwhole₂ : ((s₁.withWorld w).write s.brk
        ⟨remote, tunnelName cfg id, id, false, x, Hashmap.new⟩).abs.Whole cfg := by
      rw [abs_write]
      exact hwhole₁.write hlinks fun hready => by cases hready
    rw [wp_bind]
    exact provisionDel_whole hwhole₂ (hmoves₂.tables hst₁) hlookup₁ hp₂ rfl
  | ok =>
    rw [wp_bind]
    refine wp_modifyTunnel hp₂ ?_
    show (((s₁.withWorld w).write s.brk _).write s.brk
      ⟨remote, tunnelName cfg id, id, true, x, Hashmap.new⟩).abs.Whole cfg
    rw [abs_write, abs_write, Core.store_withStore, Store.write_write]
    exact hwhole₁.write (u := TunnelContext.abs ⟨remote, tunnelName cfg id, id, true, x, Hashmap.new⟩)
      hlinks fun _ => ⟨hhooks rfl, hattached rfl⟩

theorem addTunnel_whole {remote : InAddr} (h : s.abs.Whole cfg) (hst : s.abs.store.Inv cfg)
    (hidle : s.cleanupPending = false) (hnone : provisionGetTunnelByip s remote = none) :
    wp (addTunnel cfg env remote) (fun _ s' => s'.abs.Whole cfg) s := by
  rw [addTunnel, wp_bind]
  refine wp_mono (findSlot_spec maxSlots (Nat.le_refl _)) fun out s₁ hfound => ?_
  rcases hfound with ⟨id, e, rfl, -, rfl, hid, hslot, -⟩ | ⟨rfl, rfl, -⟩
  · exact createTunnel_whole (s := s.setErrno e) h hst hidle hnone hid hslot
  · exact h

theorem provisionAdd_whole {remote : InAddr} (h : s.abs.Whole cfg) (hst : s.abs.store.Inv cfg)
    (hidle : s.cleanupPending = false) :
    wp (provisionAdd cfg env remote) (fun _ s' => s'.abs.Whole cfg) s := by
  simp only [provisionAdd, wp_bind, wp_get, hidle, Bool.false_eq_true, if_false]
  cases hlookup : provisionGetTunnelByip s remote with
  | none => exact addTunnel_whole h hst hidle hlookup
  | some p =>
    obtain ⟨tun, hp, -⟩ := hst.record hlookup
    simp only [wp_bind, wp_get, deref_of_some hp]
    refine wp_ite (fun _ => h) fun hready => ?_
    rw [wp_bind]
    refine wp_mono (wp_and (provisionDel_spec cfg env s.world.kernel hst hlookup hp)
      (provisionDel_whole h hst hlookup hp (Bool.of_not_eq_true hready))) fun ret s₁ h₁ => ?_
    obtain ⟨⟨hremoving, hout⟩, hwhole₁⟩ := h₁
    rcases hout with ⟨rfl, hremoved⟩ | ⟨rfl, -⟩
    · exact addTunnel_whole hwhole₁ (hremoving.moves.tables hst) (hremoving.pending.trans hidle)
        hremoved.lookup
    · exact hwhole₁

/-! ## Packets -/

/-- Learning an address touches neither jumps nor links. -/
theorem provisionTunnelAllowMac_whole (p : Ptr) (mac : CStr) :
    Keeps (fun s : Sys => s.abs.Whole cfg) (provisionTunnelAllowMac env p mac) := by
  intro s h
  simp only [provisionTunnelAllowMac, wp_bind, wp_get]
  refine wp_ite (fun _ => h) fun hready => ?_
  refine wp_ite (fun _ => h) fun _ => ?_
  refine wp_ite (fun _ => h) fun _ => ?_
  simp only [wp_bind, wp_get]
  refine wp_ite (fun _ => h) fun _ => ?_
  obtain ⟨tun, hp⟩ : ∃ tun, s.heap p = some tun := by
    cases hp : s.heap p with
    | some tun => exact ⟨tun, rfl⟩
    | none =>
      rw [Sys.deref, hp] at hready
      exact absurd rfl hready
  have hready : tun.ready = true := by simpa [deref_of_some hp] using hready
  have hwhole := h p _ (heap_abs_of_some hp) hready
  rw [wp_bind, wp_lift]
  refine wp_mono ((firewallKept_links s.world.kernel.links).ifaceEbtablesAllow _ mac s.world rfl)
    fun ret w hlinks => ?_
  have hsub : s.world.kernel.links ⊆ w.kernel.links := hlinks ▸ List.Subset.refl _
  cases ret with
  | fail => exact h.mono hsub fun q t ht _ => .inl ht
  | ok =>
    simp only [wp_bind, wp_modify, wp_pure]
    refine wp_modifyTunnel (show (s.withWorld w).heap p = some tun from hp) ?_
    show Core.Whole cfg (Sys.abs { (s.withWorld w).write p
      { tun with macs := (tun.macs.insert mac ()).1 } with
      macIndex := ((s.withWorld w).macIndex.insert mac p).1 })
    rw [abs_learn (s.withWorld w) p tun mac]
    refine h.mono hsub fun q t ht _ => ?_
    rcases Store.heap_write_cases ht with ⟨rfl, rfl⟩ | ⟨-, ht⟩
    · exact .inr ⟨hwhole.hooks, fun b hb => hsub (hwhole.attached b hb)⟩
    · exact .inl ht

theorem allowOn_whole (tun : Option Ptr) (mac : CStr) :
    Keeps (fun s : Sys => s.abs.Whole cfg) (allowOn env tun mac) := by
  cases tun with
  | none => exact .pure _
  | some p =>
    refine Keeps.get.bind fun s => ?_
    split
    · exact provisionTunnelAllowMac_whole p mac
    · exact .pure _

theorem provisionPacket_whole {packet : PayloadPacket} (h : s.abs.Whole cfg)
    (hst : s.abs.store.Inv cfg) :
    wp (provisionPacket cfg env packet) (fun _ s' => s'.abs.Whole cfg) s := by
  refine wp_provisionPacket h h fun haccepts => ?_
  simp only [learnPacket, readyTunnel, wp_bind, wp_modify, wp_get]
  have hready : wp (if (provisionGetTunnelByip s packet.remote).any fun p => (s.deref p).ready then
      pure (provisionGetTunnelByip s packet.remote) else provisionAdd cfg env packet.remote)
      (fun _ s' => s'.abs.Whole cfg) (s.counted.setErrno 0) :=
    wp_ite (fun _ => h) fun _ =>
      provisionAdd_whole (s := s.counted.setErrno 0) h hst haccepts.idle
  refine wp_mono hready fun tun s₁ h₁ => ?_
  refine wp_mono (allowOn_whole tun _ s₁ h₁) fun learned s₂ h₂ => ?_
  refine wp_mono settle_spec fun _ s' hs' => ?_
  rw [hs', abs_settled]
  exact h₂

/-! ## Runs -/

/-- Outside a pending cleanup, the ready tunnels are whole. -/
def Sys.Whole (cfg : SoftgredConfig) (s : Sys) : Prop := s.cleanupPending = false → s.abs.Whole cfg

theorem exec_whole {call : Call} (hloop : call.fromLoop = true) (htables : s.Tables cfg)
    (h : s.Whole cfg) : (exec cfg env s call).Whole cfg := by
  intro hidle
  cases call with
  | packet packet =>
    by_cases hpend : s.cleanupPending = true
    · rw [exec_packet_pending hpend] at hidle
      cases hpend.symm.trans hidle
    · exact provisionPacket_whole (h (Bool.of_not_eq_true hpend)) htables.1
  | delall =>
    have hcleans := exec_delall cfg env s.world.kernel htables.1
    generalize exec cfg env s .delall = s' at *
    cases hcleans with
    | complete =>
      intro q t ht
      cases ht
    | incomplete _ hpend => cases hpend.symm.trans hidle
  | wait usec => exact h hidle
  | add | allowMac | del => cases hloop

theorem run_whole {calls : List Call} (hloop : ∀ call ∈ calls, call.fromLoop = true)
    (htables : s.Tables cfg) (h : s.Whole cfg) : (run cfg env calls s).Whole cfg :=
  (run_invariant (I := fun s => s.Tables cfg ∧ s.Whole cfg)
    (fun call _ hcall hs => ⟨exec_tables cfg env call hs.1, exec_whole hcall hs.1 hs.2⟩)
    hloop ⟨htables, h⟩).2

theorem Started.whole {host : Kernel} (h : Started env host s) : s.Whole cfg := by
  obtain ⟨errno, clock, rfl, -⟩ := h.boot
  rw [Sys.Whole, abs_provisionInit]
  intro _ q t ht
  cases ht

end Softgre
