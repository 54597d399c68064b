-- SUMMARY: A packet that meets no obstacle ends with its remote and address fully provisioned.
import Softgre.Daemon.Whole
import Softgre.Daemon.Bulk

/-!
# Self-healing

Earlier failures may have left a tunnel half built, with any of its jumps and VLAN
links. The next packet of its remote takes it down and builds it anew, and all that
can keep it from doing so is a command that fails although it could take effect.
-/

namespace Softgre

open Base

variable {cfg : SoftgredConfig} {env : Env} {host : Kernel} {s s' : Sys} {p : Ptr}

/-! ## The address is admitted -/

/-- The tunnel of `remote` is ready and has the address. -/
def Store.Admits (st : Store) (remote : InAddr) (mac : CStr) : Prop :=
  ∃ p t, st.tunnels remote = some p ∧ st.heap p = some t ∧ t.ready = true ∧ mac ∈ t.macs

theorem Store.admits_learn {st : Store} {t : Tunnel} {remote : InAddr} (mac : CStr)
    (hlookup : st.tunnels remote = some p) (hready : t.ready = true) :
    (st.learn p t mac).Admits remote mac :=
  ⟨p, { t with macs := insert mac t.macs }, hlookup, Function.update_self _ _ _, hready,
    Finset.mem_insert_self _ _⟩

/-- A new tunnel is refused only because some command was. A remnant of an earlier
    attempt makes room for it. -/
theorem provisionAdd_thwarts {remote : InAddr} (hinv : s.abs.Inv cfg host)
    (hidle : s.cleanupPending = false)
    (hroom : provisionGetTunnelByip s remote = none → ¬ s.Full cfg) :
    wp (provisionAdd cfg env remote) (fun out s' =>
      out = none → s.world.Thwarts s'.world) s := by
  have hst := hinv.tables
  have hgains : ∀ {s₁ : Sys}, s.world.trace <:+ s₁.world.trace → s₁.abs.store.Inv cfg →
      s₁.cleanupPending = false → provisionGetTunnelByip s₁ remote = none → ¬ s₁.Full cfg →
      wp (addTunnel cfg env remote) (fun out s' =>
        out = none → s.world.Thwarts s'.world) s₁ := by
    intro s₁ hsuffix hst₁ hidle₁ hnone hroom
    refine wp_mono (addTunnel_gains hst₁ hidle₁ hnone hroom) fun out s' h' hout => ?_
    rcases h' with hthwarts | ⟨id, hout', -⟩
    · exact hthwarts.of_suffix hsuffix
    · cases hout.symm.trans hout'
  simp only [provisionAdd, wp_bind, wp_get, hidle, Bool.false_eq_true, if_false]
  cases hlookup : provisionGetTunnelByip s remote with
  | none => exact hgains (List.suffix_refl _) hst hidle hlookup (hroom hlookup)
  | some p =>
    obtain ⟨tun, hp, -⟩ := hst.record hlookup
    simp only [wp_bind, wp_get, deref_of_some hp]
    refine wp_ite (fun _ hout => by cases hout) fun hready => ?_
    have hmacs : tun.macs.keySet = ∅ := hinv.idle hidle (heap_abs_of_some hp)
      (Bool.of_not_eq_true hready)
    rw [wp_bind]
    refine wp_mono (provisionDel_spec cfg env host hst hlookup hp) fun ret s₁ h₁ => ?_
    obtain ⟨hremoving, ⟨rfl, hremoved⟩ | ⟨rfl, hretained⟩⟩ := h₁
    · by_cases hwilling : ∃ ev, s.world.New s₁.world ev ∧ ev.Unwilling
      · obtain ⟨ev, hnew, hunwilling⟩ := hwilling
        refine wp_mono ((kept_thwarts s.world).addTunnel remote s₁ ?_) fun _ _ h _ => h
        exact ⟨ev, hnew, hunwilling.1, hunwilling.not_vain⟩
      · refine hgains (Core.trail_suffix hremoving.moves.trail) (hremoving.moves.tables hst)
          (hremoving.pending.trans hidle) hremoved.lookup ?_
        -- the slot of the remnant and its name are free
        exact hremoved.not_full cfg hst hp
          (.inr fun ev hnew hunwilling => hwilling ⟨ev, hnew, hunwilling⟩)
    · obtain ⟨ev, hnew, hok, hunwilling⟩ := hretained.hindered.blames cfg host hmacs
      exact fun _ => ⟨ev, hnew, hok, (hunwilling hinv).not_vain⟩

/-- What a packet needs to be let in that its filters do not look at. -/
structure Sys.Open (cfg : SoftgredConfig) (s : Sys) (packet : PayloadPacket) : Prop where
  idle : s.cleanupPending = false
  due : s.retryAfter ≤ s.world.clock
  unowned : ∀ remote, s.OwnedBy (macText packet.mac) remote → remote = packet.remote
  room : ∀ p tun, provisionGetTunnelByip s packet.remote = some p → s.heap p = some tun →
    tun.ready = true → tun.macs.size < maxClients
  slot : (provisionGetTunnelByip s packet.remote).isSome = true ∨
    ∃ id < maxSlots, s.slots id = false ∧ s.world.kernel.hasLink (tunnelName cfg id) = false

theorem Sys.Open.not_full {packet : PayloadPacket} (h : s.Open cfg packet)
    (hnone : provisionGetTunnelByip s packet.remote = none) : ¬ s.Full cfg := by
  intro hfull
  rcases h.slot with hsome | ⟨id, hid, hslot, hlink⟩
  · rw [hnone] at hsome
    cases hsome
  · rcases hfull id hid with hused | hused
    · cases hslot.symm.trans hused
    · cases hlink.symm.trans hused

/-- A ready tunnel with room for the address, or some command is to blame. -/
theorem readyTunnel_thwarts {packet : PayloadPacket}
    (hinv : s.abs.Inv cfg host) (h : s.Open cfg packet) :
    wp (readyTunnel cfg env packet.remote (provisionGetTunnelByip s packet.remote)) (fun out s₁ =>
      s.world.Thwarts s₁.world ∨
      ∃ p tun, out = some p ∧ s.Moves cfg (AddsFor packet.remote) s₁ ∧
        s₁.InTable packet.remote p tun ∧ tun.ready = true ∧ tun.macs.keySet.card < maxClients) s := by
  have hadd : wp (readyTunnel cfg env packet.remote (provisionGetTunnelByip s packet.remote))
      (fun out s₁ => out = none → s.world.Thwarts s₁.world) s := by
    simp only [readyTunnel, wp_bind, wp_get]
    refine wp_ite (fun hready => ?_) fun _ => provisionAdd_thwarts hinv h.idle h.not_full
    intro hout
    rw [show provisionGetTunnelByip s packet.remote = none from hout] at hready
    cases hready
  refine wp_mono (wp_and (readyTunnel_spec cfg env hinv.tables hinv.idle h.idle) hadd)
    fun out s₁ h₁ => ?_
  obtain ⟨⟨p, tun, rfl, hmoves, -, hlookup, hp, hready, hroom⟩ | ⟨rfl, -⟩, hthwarts⟩ := h₁
  · refine .inr ⟨p, tun, rfl, hmoves, ⟨hlookup, hp⟩, hready, ?_⟩
    rcases hroom with rfl | hempty
    · rw [Hashmap.card_keySet]
      exact h.room p tun hlookup hp hready
    · rw [hempty]
      decide
  · exact .inl (hthwarts rfl)

/-- The part behind the gates. -/
theorem learnPacket_admits {packet : PayloadPacket} {now : Int}
    (hinv : s.abs.Inv cfg host) (h : s.Open cfg packet)
    (hnone : provisionGetTunnelByMac s (macText packet.mac) = none) :
    wp (learnPacket cfg env packet.remote (macText packet.mac)
      (provisionGetTunnelByip s packet.remote) now) (fun _ s' =>
      s.world.Thwarts s'.world ∨
      (s'.abs.store.Admits packet.remote (macText packet.mac) ∧ s'.counters = s.counters)) s := by
  have hinv₀ : (s.setErrno 0).abs.Inv cfg host :=
    hinv.trail (Trail.single (P := fun _ => True) trivial (Step.errno (by decide)))
  have hopen₀ : (s.setErrno 0).Open cfg packet :=
    ⟨h.idle, h.due, h.unowned, h.room, h.slot⟩
  simp only [learnPacket, wp_bind, wp_modify]
  refine wp_mono (readyTunnel_thwarts hinv₀ hopen₀) fun out s₁ h₁ => ?_
  rcases h₁ with hthwarts | ⟨p, tun, rfl, hmoves, hin, hready, hroom⟩
  · refine wp_mono ((kept_thwarts s.world).allowOn out _ s₁ hthwarts) fun learned s₂ h₂ => ?_
    exact wp_mono (Kept.settle (I := (s.world.Thwarts ·)) learned now s₂ h₂)
      fun _ _ h => .inl h
  have hst₁ := hmoves.tables hinv₀.tables
  have hnone₁ : provisionGetTunnelByMac s₁ (macText packet.mac) = none := by
    refine Core.trail_owner_eq_none (fun r hl => ?_) hmoves.trail hnone
    rcases hl with hl | hl <;> cases hl
  have hmac : tun.macs.contains (macText packet.mac) = false := by
    refine Bool.eq_false_iff.mpr fun hyes => ?_
    have howner := hst₁.owner_iff.mpr ⟨_, heap_abs_of_some hin.record, Hashmap.mem_keySet.mpr hyes⟩
    cases hnone₁.symm.trans howner
  simp only [allowOn, wp_bind, wp_get, deref_of_some hin.record, if_pos hready]
  refine wp_mono (provisionTunnelAllowMac_learns cfg hin.record hready hmac hnone₁)
    fun learned s₂ h₂ => ?_
  rcases h₂ with hthwarts | ⟨-, hfull, -⟩ | ⟨rfl, -, hlearns⟩
  · refine wp_mono (Kept.settle (I := (s.world.Thwarts ·)) learned now s₂ ?_)
      fun _ _ h => .inl h
    exact hthwarts.of_suffix (Core.trail_suffix hmoves.trail)
  · exact absurd hroom (Nat.not_lt_of_le hfull)
  · refine wp_mono settle_spec fun _ s' hs' => .inr ?_
    obtain rfl : s' = s₂ := hs'
    refine ⟨?_, hlearns.counters.trans hmoves.counters⟩
    rw [hlearns.store]
    exact Store.admits_learn _ hin.lookup hready

theorem provisionPacket_admits {packet : PayloadPacket}
    (hinv : s.abs.Inv cfg host) (haccepted : accepted cfg packet = true)
    (h : s.Open cfg packet) :
    wp (provisionPacket cfg env packet) (fun _ s' => s.world.Thwarts s'.world ∨
      (s'.abs.store.Admits packet.remote (macText packet.mac) ∧
        s'.counters = s.counted.counters)) s := by
  have hst := hinv.tables
  have hgates : addressed cfg packet = true ∧
      configRemoteAllowed cfg (ntohl packet.remote.sAddr) = true ∧ mapped cfg packet = true := by
    simpa [accepted, and_assoc] using haccepted
  obtain ⟨haddressed, hallowed, hmapped⟩ := hgates
  simp only [provisionPacket, wp_bind, wp_modify, wp_get, haddressed, hallowed, hmapped,
    Bool.not_true, Bool.false_eq_true, if_false]
  refine wp_ite (fun hpend => absurd hpend (by simp [h.idle])) fun _ => ?_
  simp only [wp_bind, wp_get]
  refine wp_ite (fun hknown => ?_) fun hunknown => ?_
  · obtain ⟨p, hlookup, hmac⟩ := (Option.any_eq_true _ _).mp hknown
    obtain ⟨tun, hp, -⟩ := hst.record hlookup
    have ht := heap_abs_of_some hp
    have hmem : macText packet.mac ∈ tun.abs.macs := by
      refine Hashmap.mem_keySet.mpr ?_
      rw [← deref_of_some hp]
      exact hmac
    refine .inr ⟨⟨p, tun.abs, hlookup, ht, ?_, hmem⟩, rfl⟩
    -- a tunnel that is not ready has no addresses
    refine Bool.of_not_eq_false fun hunready => ?_
    rw [hinv.idle h.idle ht hunready] at hmem
    cases hmem
  refine wp_ite (fun howned => ?_) fun hunowned => ?_
  · obtain ⟨p, howner⟩ := Option.isSome_iff_exists.mp howned
    obtain ⟨t, ht, hmem⟩ := hst.owner_iff.mp howner
    obtain ⟨tun, hp, rfl⟩ := heap_of_abs ht
    have hremote := h.unowned tun.ipRemote ⟨p, howner, hst.live ht⟩
    refine absurd ((Option.any_eq_true _ _).mpr ⟨p, ?_, ?_⟩) hunknown
    · rw [← hremote]
      exact hst.live ht
    · show (s.deref p).macs.contains _ = true
      rw [deref_of_some hp]
      exact Hashmap.mem_keySet.mp hmem
  refine wp_ite (fun hearly => ?_) fun _ => ?_
  · exact absurd hearly (Int.not_lt.mpr h.due)
  · have hopen : s.counted.Open cfg packet :=
      ⟨h.idle, h.due, h.unowned, h.room, h.slot⟩
    exact learnPacket_admits (s := s.counted) hinv hopen (Option.not_isSome_iff_eq_none.mp hunowned)

/-! ## Runs -/

/-- Outside a pending cleanup, every learned address has both its rules. -/
def Sys.Covered (s : Sys) : Prop :=
  s.cleanupPending = false → CoversInv s.abs.store s.world.kernel

theorem exec_covered {call : Call} (hloop : call.fromLoop = true) (htables : s.Tables cfg)
    (h : s.Covered) : (exec cfg env s call).Covered :=
  Core.trail_covers (Call.Labels.not_revoke hloop) (exec_trail cfg env call htables.1 htables.2)
    htables.1 h

theorem run_covered {calls : List Call} (hloop : ∀ call ∈ calls, call.fromLoop = true)
    (htables : s.Tables cfg) (h : s.Covered) : (run cfg env calls s).Covered :=
  (run_invariant (I := fun s => s.Tables cfg ∧ s.Covered)
    (fun call _ hcall hs => ⟨exec_tables cfg env call hs.1, exec_covered hcall hs.1 hs.2⟩)
    hloop ⟨htables, h⟩).2

/-- `remote` is provisioned for the address: its tunnel is ready, with every jump
    installed and every VLAN in its bridge, the tables bind the address to it, and both
    chains accept the address on it. -/
structure Sys.Provisioned (cfg : SoftgredConfig) (remote : InAddr) (mac : CStr) (s : Sys) (p : Ptr)
    (tun : TunnelContext) : Prop where
  tracked : s.InTable remote p tun
  ready : tun.ready = true
  hooks : tun.firewallHooks = 7
  vlans : ∀ b ∈ cfg.bridge, b.link tun.ifgre ∈ s.world.kernel.links
  learned : tun.macs.contains mac = true
  index : provisionGetTunnelByMac s mac = some p
  ingress : s.world.kernel.HasRule .nat .softgreIn (acceptIn tun.ifgre mac)
  egress : s.world.kernel.HasRule .filter .softgreOut (acceptOut tun.ifgre mac)

theorem Store.Admits.provisioned {remote : InAddr} {mac : CStr}
    (h : s.abs.store.Admits remote mac) (hst : s.abs.store.Inv cfg) (hidle : s.cleanupPending = false)
    (hwhole : s.Whole cfg) (hcovered : s.Covered) : ∃ p tun, s.Provisioned cfg remote mac p tun := by
  obtain ⟨p, t, hlookup, ht, hready, hmac⟩ := h
  obtain ⟨tun, hp, rfl⟩ := heap_of_abs ht
  obtain ⟨hhooks, hvlans⟩ := hwhole hidle p _ ht hready
  obtain ⟨⟨rulesIn, hin, hcoversIn⟩, ⟨rulesOut, hout, hcoversOut⟩⟩ := hcovered hidle
  have hpermits : s.abs.store.Permits tun.ifgre mac := ⟨p, tun.abs, ht, rfl, hmac⟩
  exact ⟨p, tun,
    { tracked := ⟨hlookup, hp⟩
      ready := hready
      hooks := hhooks
      vlans := hvlans
      learned := Hashmap.mem_keySet.mp hmac
      index := hst.owner_iff.mpr ⟨tun.abs, ht, hmac⟩
      ingress := ⟨rulesIn, hin, hcoversIn _ _ hpermits⟩
      egress := ⟨rulesOut, hout, hcoversOut _ _ hpermits⟩ }⟩

/-- Whatever went wrong before, a packet that is let in is provisioned for if nothing
    fails now, but for the deletion of what is not there. -/
theorem provisioning_self_heals (cfg : SoftgredConfig) (env : Env) (host : Kernel) (s : Sys)
    (calls : List Call) (packet : PayloadPacket) (hstart : Started env host s)
    (hloop : ∀ call ∈ calls, call.fromLoop = true) (haccepted : accepted cfg packet = true)
    (hopen : (run cfg env calls s).Open cfg packet)
    (hsmooth : ∀ ev, (run cfg env calls s).world.New
      (exec cfg env (run cfg env calls s) (.packet packet)).world ev →
      ev.ok = true ∨ ev.Vain) :
    (∃ p tun, (exec cfg env (run cfg env calls s) (.packet packet)).Provisioned cfg packet.remote
      (macText packet.mac) p tun) ∧
    (exec cfg env (run cfg env calls s) (.packet packet)).failures =
      (run cfg env calls s).failures ∧
    (exec cfg env (run cfg env calls s) (.packet packet)).retryAfter =
      (run cfg env calls s).retryAfter := by
  have hinv₀ := hstart.inv cfg
  have htables₀ : s.Tables cfg := ⟨hinv₀.tables, hinv₀.idle⟩
  have hinv := run_inv cfg env calls hinv₀
  have htables : (run cfg env calls s).Tables cfg := ⟨hinv.tables, hinv.idle⟩
  have hwhole : (run cfg env calls s).Whole cfg := run_whole hloop htables₀ hstart.whole
  have hcovered : (run cfg env calls s).Covered :=
    run_covered hloop htables₀ fun hidle => (hstart.listed hidle).covers
  generalize run cfg env calls s = s at *
  have hidle : (exec cfg env s (.packet packet)).cleanupPending = false :=
    exec_idle rfl htables hopen.idle
  have hadmits : s.world.Thwarts (exec cfg env s (.packet packet)).world ∨
      ((exec cfg env s (.packet packet)).abs.store.Admits packet.remote (macText packet.mac) ∧
        (exec cfg env s (.packet packet)).counters = s.counted.counters) :=
    provisionPacket_admits hinv haccepted hopen
  rcases hadmits with ⟨ev, hnew, hno, hvain⟩ | ⟨hadmits, hcounters⟩
  · rcases hsmooth ev hnew with hok | h
    · cases hno.symm.trans hok
    · exact absurd h hvain
  · refine ⟨hadmits.provisioned ?_ hidle (exec_whole rfl htables hwhole)
      (exec_covered rfl htables hcovered), ?_, ?_⟩
    · exact (exec_tables cfg env (.packet packet) htables).1
    · exact congrArg (·.2.2.1) hcounters
    · exact congrArg (·.2.2.2) hcounters

namespace Sample

/-- Refuses, the first time, to put a link into a bridge and to delete a link. -/
def clumsy : Env
  | .setMaster _ _, 0 => ⟨false, none, 0⟩
  | .delLink _, 0 => ⟨false, some EAGAIN, 0⟩
  | _, _ => ⟨true, none, 0⟩

end Sample

/-- The first packet leaves a tunnel with all its jumps and a VLAN link that is in no
    bridge. The second one replaces it. -/
theorem provisioning_self_heals_clumsy :
    (⟨vlanName ['g', 'r', 'e', '0'] 100, .vlan ['g', 'r', 'e', '0'] 100, none⟩ : Link) ∈
      (run Sample.config Sample.clumsy [.packet Sample.packet, .wait 1000000]
        (Sample.start Sample.clumsy)).world.kernel.links ∧
    ∃ p tun, (run Sample.config Sample.clumsy
      [.packet Sample.packet, .wait 1000000, .packet Sample.packet]
      (Sample.start Sample.clumsy)).Provisioned Sample.config Sample.packet.remote
      (macText Sample.packet.mac) p tun := by
  have hstart : Started Sample.clumsy Sample.kernel (Sample.start Sample.clumsy) :=
    Sample.started (by decide +kernel)
  have htables := run_tables Sample.config Sample.clumsy [.packet Sample.packet, .wait 1000000]
    (Sample.start_tables Sample.clumsy)
  have hopen : (run Sample.config Sample.clumsy [.packet Sample.packet, .wait 1000000]
      (Sample.start Sample.clumsy)).Open Sample.config Sample.packet := by
    refine ⟨by decide +kernel, by decide +kernel, ?_, ?_, .inl (by decide +kernel)⟩
    · rintro remote ⟨p, howner, -⟩
      have hnone : provisionGetTunnelByMac (run Sample.config Sample.clumsy
        [.packet Sample.packet, .wait 1000000] (Sample.start Sample.clumsy))
        (macText Sample.packet.mac) = none := by decide +kernel
      cases hnone.symm.trans howner
    · intro p tun hlookup hp hready
      have hzero : provisionGetTunnelByip (run Sample.config Sample.clumsy
        [.packet Sample.packet, .wait 1000000] (Sample.start Sample.clumsy))
        Sample.packet.remote = some 0 := by decide +kernel
      cases hzero.symm.trans hlookup
      have hunready : ((run Sample.config Sample.clumsy [.packet Sample.packet, .wait 1000000]
        (Sample.start Sample.clumsy)).deref 0).ready = false := by decide +kernel
      rw [deref_of_some hp] at hunready
      cases hunready.symm.trans hready
  have hsmooth : (run Sample.config Sample.clumsy [.packet Sample.packet, .wait 1000000]
      (Sample.start Sample.clumsy)).world.Only (·.ok = true) (exec Sample.config Sample.clumsy
      (run Sample.config Sample.clumsy [.packet Sample.packet, .wait 1000000]
        (Sample.start Sample.clumsy)) (.packet Sample.packet)).world :=
    World.Only.of_since (exec_suffix _ htables) (by decide +kernel)
  have hheals := provisioning_self_heals Sample.config Sample.clumsy Sample.kernel _
    [.packet Sample.packet, .wait 1000000] Sample.packet hstart (by decide) (by decide +kernel) hopen
    fun ev hnew => .inl (hsmooth.of_new hnew)
  exact ⟨by decide +kernel, hheals.1⟩

end Softgre
