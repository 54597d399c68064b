-- SUMMARY: What single commands keep true of the world, every call into the provisioning code keeps.
import Softgre.Daemon.Calls

/-!
# Invariants of the world

Some properties of the world do not depend on the tables at all. For those it is
enough to look at the interface functions: the provisioning code is made of them,
in whatever order it calls them.
-/

namespace Softgre

open Base

/-- A property of the world that firewall commands keep. -/
structure FirewallKept (env : Env) (I : World → Prop) : Prop where
  helperExec : ∀ {cmd}, cmd.edits.isSome = true → Keeps I (Softgre.helperExec env cmd)

/-- A property of the world that the interface functions keep. -/
structure Kept (env : Env) (I : World → Prop) : Prop extends FirewallKept env I where
  ifaceGreAdd : ∀ name dev loc rem, Keeps I (Softgre.ifaceGreAdd env name dev loc rem)
  ifaceGreDel : ∀ name, Keeps I (Softgre.ifaceGreDel env name)
  attach : ∀ gre bridge vlan, Keeps I (ifaceBridgeAttach env gre bridge vlan)
  errno : ∀ w e, I w → I { w with errno := e }
  clock : ∀ w (usec : Nat), I w → I { w with clock := w.clock + usec }

/-! ## Interface functions -/

theorem keeps_ifNametoindex {env : Env} {I : World → Prop}
    (herrno : ∀ w e, I w → I { w with errno := e }) (name : CStr) :
    Keeps I (ifNametoindex env name) := by
  intro w hw
  refine wp_mono (ifNametoindex_spec env name w) fun found w' hfound => ?_
  rcases hfound with ⟨-, -, -, rfl⟩ | ⟨-, -, e, -, rfl⟩
  · exact hw
  · exact herrno w e hw

section Links

variable {env : Env} {I : World → Prop} (herrno : ∀ w e, I w → I { w with errno := e })

include herrno

theorem keeps_ifaceGreAdd {name dev : CStr} {loc rem : InAddr}
    (hunresolved : Keeps I (unresolved (.lookup dev) ENODEV))
    (hsend : Keeps I (linkSend env (.newGretap name dev loc rem))) :
    Keeps I (ifaceGreAdd env name dev loc rem) := by
  refine (keeps_ifNametoindex herrno dev).bind fun found => ?_
  cases found with
  | true => exact hsend
  | false => exact hunresolved

theorem keeps_ifaceGreDel {name : CStr}
    (hunresolved : Keeps I (unresolved (.delLink name) ENODEV))
    (hsend : Keeps I (linkSend env (.delLink name))) : Keeps I (ifaceGreDel env name) := by
  refine (keeps_ifNametoindex herrno name).bind fun found => ?_
  cases found with
  | true => exact hsend
  | false => exact hunresolved

theorem keeps_setMaster {name bridge : CStr}
    (hunresolved : Keeps I (unresolved (.lookup []) ENODEV))
    (hsend : Keeps I (linkSend env (.setMaster name bridge))) :
    Keeps I (setMaster env name bridge) := by
  refine (keeps_ifNametoindex herrno name).bind fun found => ?_
  cases found with
  | true => exact hsend
  | false => exact hunresolved

/-- Only the two requests together have to keep the property. -/
theorem keeps_ifaceBridgeAttach {gre bridge : CStr} {vlan : UInt16}
    (hunresolved : Keeps I (unresolved (.lookup gre) EINVAL))
    (hsend : Keeps I do
      match ← linkSend env (.newVlan (vlanName gre vlan) gre vlan) with
      | .fail => return .fail
      | .ok => setMaster env (vlanName gre vlan) bridge) :
    Keeps I (ifaceBridgeAttach env gre bridge vlan) := by
  refine (keeps_ifNametoindex herrno gre).bind fun parent => ?_
  refine (keeps_ifNametoindex herrno bridge).bind fun master => ?_
  split
  · exact hunresolved
  · exact hsend

end Links

theorem keeps_attachBridges {env : Env} {I : World → Prop} {gre : CStr} {bs : List TunnelBridge}
    (hattach : ∀ b ∈ bs, Keeps I (ifaceBridgeAttach env gre b.ifname b.vlanId)) :
    Keeps I (attachBridges env gre bs) := by
  induction bs with
  | nil => exact .pure _
  | cons b rest ih =>
    obtain ⟨hb, hrest⟩ := List.forall_mem_cons.mp hattach
    refine hb.bind fun ret => ?_
    cases ret with
    | ok => exact ih hrest
    | fail => exact .pure _

theorem Kept.of_perform {env : Env} {I : World → Prop}
    (hperform : ∀ fallback cmd, Keeps I (perform env fallback cmd))
    (hunresolved : ∀ cmd e, Keeps I (unresolved cmd e))
    (herrno : ∀ w e, I w → I { w with errno := e })
    (hclock : ∀ w (usec : Nat), I w → I { w with clock := w.clock + usec }) : Kept env I := by
  refine
    { helperExec := fun _ => hperform _ _
      ifaceGreAdd := fun _ _ _ _ => keeps_ifaceGreAdd herrno (hunresolved _ _) (hperform _ _)
      ifaceGreDel := fun _ => keeps_ifaceGreDel herrno (hunresolved _ _) (hperform _ _)
      attach := fun _ _ _ => keeps_ifaceBridgeAttach herrno (hunresolved _ _) ?_
      errno := herrno
      clock := hclock }
  refine (hperform _ _).bind fun ret => ?_
  cases ret with
  | fail => exact .pure _
  | ok => exact keeps_setMaster herrno (hunresolved _ _) (hperform _ _)

/-- A property that survives every event survives everything. -/
theorem Kept.of_record {env : Env} {I : World → Prop} (hrecord : ∀ w ev, I w → I (w.record ev))
    (herrno : ∀ w e, I w → I { w with errno := e })
    (hclock : ∀ w (usec : Nat), I w → I { w with clock := w.clock + usec }) : Kept env I := by
  refine Kept.of_perform (fun fallback cmd w hw => ?_) (fun _ _ w hw => hrecord w _ hw) herrno hclock
  refine wp_mono (perform_spec env fallback cmd w) fun ret w' hdone => ?_
  obtain ⟨ev, rfl, -, -⟩ := hdone
  exact hrecord w ev hw

/-- Firewall commands leave the links alone. -/
theorem firewallKept_links {env : Env} (links : List Link) :
    FirewallKept env fun w => w.kernel.links = links := by
  refine ⟨fun {cmd} hcmd w hw => ?_⟩
  refine wp_mono (perform_spec env none cmd w) fun ret w' h => ?_
  obtain ⟨ev, rfl, -, ⟨-, -, hdone⟩ | ⟨-, -, hrefused, -⟩⟩ := h
  · exact (hdone.links hcmd).trans hw
  · exact (congrArg Kernel.links hrefused.kernel).trans hw

namespace FirewallKept

variable {env : Env} {I : World → Prop} (h : FirewallKept env I)

include h

theorem addHooks (name : CStr) (hs : List Hook) : ∀ i installed,
    Keeps I (Softgre.addHooks env name hs i installed) := by
  induction hs with
  | nil => exact fun _ _ => .pure _
  | cons hook rest ih =>
    intro i installed
    rw [Softgre.addHooks]
    split
    · exact ih _ _
    · refine (h.helperExec rfl).bind fun ret => ?_
      cases ret with
      | ok => exact ih _ _
      | fail => exact .pure _

theorem delHooks (name : CStr) (hs : List Hook) : ∀ i installed,
    Keeps I (Softgre.delHooks env name hs i installed) := by
  induction hs with
  | nil => exact fun _ _ => .pure _
  | cons hook rest ih =>
    intro i installed
    rw [Softgre.delHooks]
    split
    · refine (h.helperExec rfl).bind fun ret => ?_
      cases ret with
      | ok => exact ih _ _
      | fail => exact ih _ _
    · exact ih _ _

theorem ifaceEbtablesDelTunnel (name : CStr) (installed : BitVec 32) :
    Keeps I (Softgre.ifaceEbtablesDelTunnel env name installed) :=
  (h.delHooks name hooks 0 installed).bind fun _ => .pure _

theorem ifaceEbtablesAllow (name mac : CStr) : Keeps I (Softgre.ifaceEbtablesAllow env name mac) := by
  refine (h.helperExec rfl).bind fun ret => ?_
  cases ret with
  | fail => exact .pure _
  | ok =>
    refine (h.helperExec rfl).bind fun ret => ?_
    cases ret with
    | fail => exact (h.helperExec rfl).bind fun _ => .pure _
    | ok => exact .pure _

theorem ifaceEbtablesRevoke (name mac : CStr) :
    Keeps I (Softgre.ifaceEbtablesRevoke env name mac) :=
  (h.helperExec rfl).bind fun _ => (h.helperExec rfl).bind fun _ => .pure _

theorem chainDefaults : Keeps I (Softgre.chainDefaults env) := by
  refine (h.helperExec rfl).bind fun ret => ?_
  cases ret with
  | fail => exact .pure _
  | ok =>
    refine (h.helperExec rfl).bind fun ret => ?_
    cases ret with
    | fail => exact .pure _
    | ok => exact h.helperExec rfl

theorem ifaceEbtablesReset : Keeps I (Softgre.ifaceEbtablesReset env) := by
  refine (h.helperExec rfl).bind fun ret => ?_
  cases ret with
  | fail => exact .pure _
  | ok =>
    refine (h.helperExec rfl).bind fun ret => ?_
    cases ret with
    | fail => exact .pure _
    | ok => exact h.chainDefaults

variable (hinit : ∀ w b, I w → I { w with initialized := b })

include hinit

theorem ifaceEbtablesEnd : Keeps I (Softgre.ifaceEbtablesEnd env) := by
  refine Keeps.get.bind fun w => ?_
  split
  · exact .pure _
  refine (h.helperExec rfl).bind fun flushIn => ?_
  refine (h.helperExec rfl).bind fun flushOut => ?_
  refine (h.helperExec rfl).bind fun deleteIn => ?_
  refine (h.helperExec rfl).bind fun deleteOut => ?_
  split
  · exact Keeps.bind (Keeps.modifies fun w => hinit w false) fun _ => .pure _
  · exact .pure _

theorem ifaceEbtablesInit : Keeps I (Softgre.ifaceEbtablesInit env) := by
  refine (h.helperExec rfl).bind fun ret => ?_
  cases ret with
  | fail => exact .pure _
  | ok =>
    refine (h.helperExec rfl).bind fun ret => ?_
    cases ret with
    | fail => exact (h.helperExec rfl).bind fun _ => .pure _
    | ok =>
      refine Keeps.bind (Keeps.modifies fun w => hinit w true) fun _ => ?_
      refine h.chainDefaults.bind fun ret => ?_
      cases ret with
      | fail => exact (h.ifaceEbtablesEnd hinit).bind fun _ => .pure _
      | ok => exact .pure _

end FirewallKept

/-! ## Provisioning -/

/-- A property of the world, seen from the daemon's state. -/
def KeepsWorld {α : Type} (I : World → Prop) (m : ProvM α) : Prop :=
  Keeps (fun s : Sys => I s.world) m

namespace KeepsWorld

variable {I : World → Prop} {α : Type}

theorem lift {m : WorldM α} (hm : Keeps I m) : KeepsWorld I (Softgre.lift m) := by
  intro s hs
  rw [wp_lift]
  exact hm s.world hs

/-- A change of the tables. -/
theorem tables {f : Sys → Sys} (hf : ∀ s, (f s).world = s.world) :
    KeepsWorld I (modify f) := by
  refine Keeps.modifies fun s hs => ?_
  rw [hf]
  exact hs

end KeepsWorld

namespace Kept

variable {cfg : SoftgredConfig} {env : Env} {I : World → Prop} (h : Kept env I)

include h

theorem attachBridges (gre : CStr) (bs : List TunnelBridge) :
    Keeps I (Softgre.attachBridges env gre bs) :=
  keeps_attachBridges fun b _ => h.attach gre b.ifname b.vlanId

theorem setErrno (e : Errno) : KeepsWorld I (modify fun s => s.setErrno e) :=
  Keeps.modifies fun s hs => h.errno s.world e hs

theorem revokeMacs (p : Ptr) (fuel : Nat) (iter : Iter) :
    KeepsWorld I (Softgre.revokeMacs env p fuel iter) := by
  induction fuel generalizing iter with
  | zero => exact .pure _
  | succ fuel ih =>
    refine Keeps.get.bind fun s => ?_
    dsimp only
    split
    · exact .pure _
    · refine (KeepsWorld.lift (h.ifaceEbtablesRevoke _ _)).bind fun ret => ?_
      cases ret with
      | fail => exact .pure _
      | ok =>
        refine Keeps.bind (KeepsWorld.tables fun _ => rfl) fun _ => ?_
        exact Keeps.bind (KeepsWorld.tables fun _ => rfl) fun _ => ih _

theorem delTunnelHooks (p : Ptr) : KeepsWorld I (Softgre.delTunnelHooks env p) := by
  refine Keeps.get.bind fun s => ?_
  refine (KeepsWorld.lift (h.ifaceEbtablesDelTunnel _ _)).bind fun out => ?_
  exact Keeps.bind (KeepsWorld.tables fun _ => rfl) fun _ => .pure _

theorem greDelFailed (p : Ptr) : KeepsWorld I (Softgre.greDelFailed env p) := by
  refine Keeps.get.bind fun s => ?_
  refine (KeepsWorld.lift (h.ifaceGreDel _)).bind fun ret => ?_
  exact Keeps.get.bind fun _ => .pure _

theorem provisionDel (remote : InAddr) : KeepsWorld I (Softgre.provisionDel env remote) := by
  refine Keeps.get.bind fun s => ?_
  split
  · exact .pure _
  · refine (h.greDelFailed _).bind fun failed => ?_
    split
    · exact .pure _
    · refine Keeps.get.bind fun s => (h.revokeMacs _ _ _).bind fun ret => ?_
      cases ret with
      | fail => exact .pure _
      | ok =>
        refine (h.delTunnelHooks _).bind fun ret => ?_
        cases ret with
        | fail => exact .pure _
        | ok =>
          refine Keeps.get.bind fun s => Keeps.bind (KeepsWorld.tables fun _ => rfl) fun _ => ?_
          exact Keeps.bind (KeepsWorld.tables fun _ => rfl) fun _ => .pure _

theorem findSlot (n : Nat) : KeepsWorld I (Softgre.findSlot cfg env n) := by
  induction n with
  | zero => exact .pure _
  | succ n ih =>
    refine Keeps.get.bind fun s => ?_
    split
    · exact ih
    · refine (KeepsWorld.lift (keeps_ifNametoindex h.errno _)).bind fun found => ?_
      split
      · exact ih
      · exact .pure _

theorem setupTunnel (p : Ptr) : KeepsWorld I (Softgre.setupTunnel cfg env p) := by
  have hhooks : KeepsWorld I (addTunnelHooks env p) := by
    refine Keeps.get.bind fun s => ?_
    refine (KeepsWorld.lift (h.addHooks _ _ _ _)).bind fun out => ?_
    exact Keeps.bind (KeepsWorld.tables fun _ => rfl) fun _ => .pure _
  refine hhooks.bind fun ret => ?_
  cases ret with
  | fail => exact .pure _
  | ok => exact Keeps.get.bind fun s => KeepsWorld.lift (h.attachBridges _ _)

theorem createTunnel (remote : InAddr) (id : Nat) :
    KeepsWorld I (Softgre.createTunnel cfg env remote id) := by
  refine Keeps.bind (Keeps.get.bind fun s => Keeps.bind (KeepsWorld.tables fun _ => rfl) fun _ =>
    .pure _) fun p => ?_
  refine (KeepsWorld.lift (h.ifaceGreAdd _ _ _ _)).bind fun ret => ?_
  cases ret with
  | fail => exact Keeps.bind (KeepsWorld.tables fun _ => rfl) fun _ => .pure _
  | ok =>
    refine Keeps.bind (Keeps.bind (KeepsWorld.tables fun _ => rfl) fun _ =>
      KeepsWorld.tables fun _ => rfl) fun _ => ?_
    refine (h.setupTunnel p).bind fun ret => ?_
    cases ret with
    | fail => exact (h.provisionDel remote).bind fun _ => .pure _
    | ok => exact Keeps.bind (KeepsWorld.tables fun _ => rfl) fun _ => .pure _

theorem addTunnel (remote : InAddr) : KeepsWorld I (Softgre.addTunnel cfg env remote) := by
  refine (h.findSlot maxSlots).bind fun found => ?_
  cases found with
  | none => exact (h.setErrno ENOSPC).bind fun _ => .pure _
  | some id => exact h.createTunnel remote id

theorem provisionAdd (remote : InAddr) : KeepsWorld I (Softgre.provisionAdd cfg env remote) := by
  refine Keeps.get.bind fun s => ?_
  split
  · exact .pure _
  · refine Keeps.get.bind fun s => ?_
    split
    · exact h.addTunnel remote
    · refine Keeps.get.bind fun s => ?_
      split
      · exact .pure _
      · refine (h.provisionDel remote).bind fun ret => ?_
        cases ret with
        | fail => exact .pure _
        | ok => exact h.addTunnel remote

omit h in
/-- Learning an address issues no commands but for its rules. -/
theorem provisionTunnelAllowMac_of_allow (herrno : ∀ w e, I w → I { w with errno := e })
    (hallow : ∀ name mac, Keeps I (Softgre.ifaceEbtablesAllow env name mac)) (p : Ptr) (mac : CStr) :
    KeepsWorld I (Softgre.provisionTunnelAllowMac env p mac) := by
  refine Keeps.get.bind fun s => ?_
  dsimp only
  split
  · exact .pure _
  split
  · exact .pure _
  split
  · exact Keeps.bind (Keeps.modifies fun s hs => herrno s.world ENOSPC hs) fun _ => .pure _
  refine Keeps.get.bind fun s => ?_
  split
  · exact .pure _
  refine (KeepsWorld.lift (hallow _ _)).bind fun ret => ?_
  cases ret with
  | fail => exact .pure _
  | ok =>
    refine Keeps.bind (KeepsWorld.tables fun _ => rfl) fun _ => ?_
    exact Keeps.bind (KeepsWorld.tables fun _ => rfl) fun _ => .pure _

theorem provisionTunnelAllowMac (p : Ptr) (mac : CStr) :
    KeepsWorld I (Softgre.provisionTunnelAllowMac env p mac) :=
  provisionTunnelAllowMac_of_allow h.errno h.ifaceEbtablesAllow p mac

theorem readyTunnel (remote : InAddr) (tun : Option Ptr) :
    KeepsWorld I (Softgre.readyTunnel cfg env remote tun) := by
  refine Keeps.get.bind fun s => ?_
  split
  · exact .pure _
  · exact h.provisionAdd remote

theorem allowOn (tun : Option Ptr) (mac : CStr) : KeepsWorld I (Softgre.allowOn env tun mac) := by
  cases tun with
  | none => exact .pure _
  | some p =>
    refine Keeps.get.bind fun s => ?_
    split
    · exact h.provisionTunnelAllowMac p mac
    · exact .pure _

omit h in
theorem settle (learned : Bool) (now : Int) : KeepsWorld I (Softgre.settle learned now) := by
  rw [Softgre.settle]
  split
  · exact .pure _
  · refine Keeps.get.bind fun s => ?_
    split
    · exact KeepsWorld.tables fun _ => rfl
    · exact KeepsWorld.tables fun _ => rfl

theorem learnPacket (remote : InAddr) (mac : CStr) (tun : Option Ptr) (now : Int) :
    KeepsWorld I (Softgre.learnPacket cfg env remote mac tun now) := by
  refine (h.setErrno 0).bind fun _ => (h.readyTunnel remote tun).bind fun tun => ?_
  exact (h.allowOn tun mac).bind fun learned => settle learned now

theorem provisionPacket (packet : PayloadPacket) :
    KeepsWorld I (Softgre.provisionPacket cfg env packet) := by
  intro s hs
  refine wp_provisionPacket hs hs fun _ => ?_
  exact h.learnPacket _ _ _ _ s.counted hs

theorem cleanTunnels (fuel : Nat) (iter : Iter) (ok : Bool) :
    KeepsWorld I (Softgre.cleanTunnels env fuel iter ok) := by
  induction fuel generalizing iter ok with
  | zero => exact .pure _
  | succ fuel ih =>
    refine Keeps.get.bind fun s => ?_
    split
    · exact .pure _
    · refine Keeps.bind ?_ fun gone => ih _ _
      refine Keeps.bind (KeepsWorld.tables fun _ => rfl) fun _ => ?_
      refine (h.greDelFailed _).bind fun failed => ?_
      split
      · exact .pure _
      · exact (h.delTunnelHooks _).bind fun _ => .pure _

theorem provisionDelall : KeepsWorld I (Softgre.provisionDelall env) := by
  refine Keeps.bind (KeepsWorld.tables fun _ => rfl) fun _ => ?_
  refine Keeps.get.bind fun s => (h.cleanTunnels _ _ _).bind fun ok => ?_
  split
  · refine (KeepsWorld.lift h.ifaceEbtablesReset).bind fun ret => ?_
    split
    · refine Keeps.bind (KeepsWorld.tables fun _ => rfl) fun _ => ?_
      exact Keeps.bind (KeepsWorld.tables fun _ => rfl) fun _ => KeepsWorld.tables fun _ => rfl
    · exact .pure _
  · exact .pure _

end Kept

theorem exec_allowMac_keeps {cfg : SoftgredConfig} {env : Env} {I : World → Prop} {s : Sys}
    {remote : InAddr} {mac : CStr} (herrno : ∀ w e, I w → I { w with errno := e })
    (hallow : ∀ name mac, Keeps I (ifaceEbtablesAllow env name mac)) (hs : I s.world) :
    I (exec cfg env s (.allowMac remote mac)).world := by
  have hprogram : KeepsWorld I (Call.program cfg env (.allowMac remote mac)) := by
    refine Keeps.get.bind fun s => ?_
    split
    · exact .pure _
    · exact fun s hs => Kept.provisionTunnelAllowMac_of_allow herrno hallow _ mac s hs
  exact hprogram s hs

/-- What single commands keep true of the world, every call keeps. -/
theorem Kept.exec {cfg : SoftgredConfig} {env : Env} {I : World → Prop} (h : Kept env I) {s : Sys}
    (call : Call) (hs : I s.world) : I (Softgre.exec cfg env s call).world := by
  cases call with
  | packet packet => exact h.provisionPacket packet s hs
  | delall => exact h.provisionDelall s hs
  | add remote => exact h.provisionAdd remote s hs
  | allowMac remote mac => exact exec_allowMac_keeps h.errno h.ifaceEbtablesAllow hs
  | del remote => exact h.provisionDel remote s hs
  | wait usec => exact h.clock s.world usec hs

end Softgre
