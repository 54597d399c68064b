-- SUMMARY: The functions of `provision.c`: setup, learning, packet handling, removal and cleanup.
import Softgre.Config
import Softgre.Payload
import Softgre.Iface.Links
import Softgre.Iface.Ebtables
import Softgre.Provision.State

/-!
# Provisioning

The functions are those of `provision.c`, over `Sys`. Loops over a hash map are
recursions on fuel that step an iterator the way the source does; the fuel is
more than the iterator can use.
-/

namespace Softgre

open Base

variable (cfg : SoftgredConfig) (env : Env)

def usecPerSec : Int := 1000000

def provisionGetTunnelByip (s : Sys) (remote : InAddr) : Option Ptr := s.tunnels.lookup remote.sAddr

def provisionGetTunnelByMac (s : Sys) (mac : CStr) : Option Ptr := s.macIndex.lookup mac

/-! ## Removing a tunnel -/

/-- The loop of `provision_del` over the learned addresses. An address leaves
    both maps only after its rules are gone. -/
def revokeMacs (p : Ptr) : Nat → Iter → ProvM Ret
  | 0, _ => return .ok
  | fuel + 1, iter => do
    let tun := (← get).deref p
    match tun.macs.iterNext iter with
    | (none, _) => return .ok
    | (some (mac, _), iter) =>
      match ← lift (ifaceEbtablesRevoke env tun.ifgre mac) with
      | .fail => return .fail
      | .ok =>
        modify fun s => { s with macIndex := (s.macIndex.remove mac).1 }
        let (macs, iter, _) := tun.macs.iterRemove iter
        modifyTunnel p fun tun => { tun with macs }
        revokeMacs p fuel iter

/-- `iface_ebtables_del_tunnel(tun->ifgre, &tun->firewall_hooks)`. -/
def delTunnelHooks (p : Ptr) : ProvM Ret := do
  let tun := (← get).deref p
  let (ret, installed) ← lift (ifaceEbtablesDelTunnel env tun.ifgre tun.firewallHooks)
  modifyTunnel p fun tun => { tun with firewallHooks := installed }
  return ret

/-- `iface_gre_del(tun->ifgre) && errno != ENODEV`. -/
def greDelFailed (p : Ptr) : ProvM Bool := do
  let tun := (← get).deref p
  let ret ← lift (ifaceGreDel env tun.ifgre)
  return ret = .fail && (← get).world.errno != ENODEV

def provisionDel (remote : InAddr) : ProvM Ret := do
  match provisionGetTunnelByip (← get) remote with
  | none => return .ok
  | some p =>
    if ← greDelFailed env p then return .fail
    let tun := (← get).deref p
    match ← revokeMacs env p (tun.macs.cap + 1) Table.iterInit with
    | .fail => return .fail
    | .ok =>
      match ← delTunnelHooks env p with
      | .fail => return .fail
      | .ok =>
        setSlot ((← get).deref p).id false
        tunnelsRemove remote.sAddr
        return .ok

/-! ## Adding a tunnel -/

/-- The search for a free slot whose interface name is free too, over the `n`
    ids before `maxSlots`. -/
def findSlot : Nat → ProvM (Option Nat)
  | 0 => return none
  | n + 1 => do
    let id := maxSlots - (n + 1)
    if (← get).slots id then findSlot n
    else if ← lift (ifNametoindex env (tunnelName cfg id)) then findSlot n
    else return some id

/-- The loop over the configured bridges. -/
def attachBridges (ifgre : CStr) : List TunnelBridge → WorldM Ret
  | [] => return .ok
  | b :: rest => do
    match ← ifaceBridgeAttach env ifgre b.ifname b.vlanId with
    | .fail => return .fail
    | .ok => attachBridges ifgre rest

/-- `iface_ebtables_add_tunnel(tun->ifgre, &tun->firewall_hooks)`. -/
def addTunnelHooks (p : Ptr) : ProvM Ret := do
  let tun := (← get).deref p
  let (ret, installed) ← lift (ifaceEbtablesAddTunnel env tun.ifgre tun.firewallHooks)
  modifyTunnel p fun tun => { tun with firewallHooks := installed }
  return ret

/-- Hooks and bridges of a tracked tunnel. -/
def setupTunnel (p : Ptr) : ProvM Ret := do
  match ← addTunnelHooks env p with
  | .fail => return .fail
  | .ok => lift (attachBridges env ((← get).deref p).ifgre cfg.bridge)

/-- Enter a record into `slots` and `tunnels`. -/
def trackTunnel (remote : InAddr) (id : Nat) (p : Ptr) : ProvM Unit := do
  setSlot id true
  tunnelsInsert remote.sAddr p

/-- The part of `provision_add` after the slot `id` was chosen. -/
def createTunnel (remote : InAddr) (id : Nat) : ProvM (Option Ptr) := do
  let p ← xcalloc ⟨remote, tunnelName cfg id, id, false, 0, Hashmap.new⟩
  match ← lift (ifaceGreAdd env (tunnelName cfg id) cfg.ifname cfg.localAddr remote) with
  | .fail =>
    modify fun s => s.free [p]
    return none
  | .ok =>
    -- tracked immediately, so that a failed rollback stays visible
    trackTunnel remote id p
    match ← setupTunnel cfg env p with
    | .fail =>
      let _ ← provisionDel env remote
      return none
    | .ok =>
      modifyTunnel p fun tun => { tun with ready := true }
      return some p

/-- The part of `provision_add` after a stale tunnel was removed. -/
def addTunnel (remote : InAddr) : ProvM (Option Ptr) := do
  match ← findSlot cfg env maxSlots with
  | none =>
    modify fun s => s.setErrno ENOSPC
    return none
  | some id => createTunnel cfg env remote id

def provisionAdd (remote : InAddr) : ProvM (Option Ptr) := do
  if (← get).cleanupPending then return none
  match provisionGetTunnelByip (← get) remote with
  | none => addTunnel cfg env remote
  | some existing =>
    if ((← get).deref existing).ready then return some existing
    match ← provisionDel env remote with
    | .fail => return none
    | .ok => addTunnel cfg env remote

/-! ## Learning -/

def provisionTunnelAllowMac (p : Ptr) (mac : CStr) : ProvM Bool := do
  let tun := (← get).deref p
  if !tun.ready then return false
  if tun.macs.contains mac then return true
  if tun.macs.size ≥ maxClients then
    modify fun s => s.setErrno ENOSPC
    return false
  -- an address belongs to one remote
  if (provisionGetTunnelByMac (← get) mac).isSome then return false
  match ← lift (ifaceEbtablesAllow env tun.ifgre mac) with
  | .fail => return false
  | .ok =>
    modifyTunnel p fun tun => { tun with macs := (tun.macs.insert mac ()).1 }
    modify fun s => { s with macIndex := (s.macIndex.insert mac p).1 }
    return true

/-- The text form of a MAC address. -/
def macText (mac : Vector UInt8 6) : CStr :=
  snprintf 18 ((mac.toList.map hex2).intersperse [':']).flatten

/-- The packet is addressed to this host by a remote that is not excluded. -/
def addressed (packet : PayloadPacket) : Bool :=
  let host := ntohl packet.remote.sAddr
  !(packet.localAddr.sAddr != cfg.localAddr.sAddr || packet.remote.sAddr == cfg.localAddr.sAddr ||
    host == 0 || host >>> 24 == 127 || host >>> 24 == 0 || host >>> 28 ≥ 14)

def mapped (packet : PayloadPacket) : Bool := cfg.bridge.any fun b => b.vlanId == packet.vlan

def ignore : ProvM Unit := modify fun s => { s with ignored := s.ignored + 1 }

/-- `if (!tun || !tun->ready) tun = provision_add(&packet->remote)`. -/
def readyTunnel (remote : InAddr) (tun : Option Ptr) : ProvM (Option Ptr) := do
  let s ← get
  if tun.any fun p => (s.deref p).ready then return tun
  provisionAdd cfg env remote

/-- `tun && tun->ready && provision_tunnel_allow_mac(tun, mac)`. -/
def allowOn (tun : Option Ptr) (mac : CStr) : ProvM Bool := do
  match tun with
  | none => return false
  | some p => if ((← get).deref p).ready then provisionTunnelAllowMac env p mac else return false

/-- The end of `provision_packet`. A capacity limit must not arm the backoff. -/
def settle (learned : Bool) (now : Int) : ProvM Unit := do
  if learned then return
  if (← get).world.errno = ENOSPC then ignore
  else modify fun s => { s with failures := s.failures + 1, retryAfter := now + usecPerSec }

/-- The part of `provision_packet` behind the backoff gate, `now` being the clock
    reading there. -/
def learnPacket (remote : InAddr) (mac : CStr) (tun : Option Ptr) (now : Int) : ProvM Unit := do
  modify fun s => s.setErrno 0
  let tun ← readyTunnel cfg env remote tun
  let learned ← allowOn env tun mac
  settle learned now

def provisionPacket (packet : PayloadPacket) : ProvM Unit := do
  modify fun s => { s with packets := s.packets + 1 }
  if (← get).cleanupPending then ignore
  else if !addressed cfg packet then ignore
  else if !configRemoteAllowed cfg (ntohl packet.remote.sAddr) then ignore
  else if !mapped cfg packet then ignore
  else
    let s ← get
    let mac := macText packet.mac
    let tun := provisionGetTunnelByip s packet.remote
    if tun.any fun p => (s.deref p).macs.contains mac then return
    if (provisionGetTunnelByMac s mac).isSome then ignore
    else if s.world.clock < s.retryAfter then return
    else learnPacket cfg env packet.remote mac tun s.world.clock

/-! ## Cleanup -/

/-- One round of the loop of `provision_delall`: whether the tunnel is gone. -/
def cleanTunnel (p : Ptr) : ProvM Bool := do
  modifyTunnel p fun tun => { tun with ready := false }
  if ← greDelFailed env p then return false
  return (← delTunnelHooks env p) = .ok

/-- The loop of `provision_delall` over the tunnels. -/
def cleanTunnels : Nat → Iter → Bool → ProvM Bool
  | 0, _, ok => return ok
  | fuel + 1, iter, ok => do
    match (← get).tunnels.iterNext iter with
    | (none, _) => return ok
    | (some (_, p), iter) =>
      let gone ← cleanTunnel env p
      cleanTunnels fuel iter (ok && gone)

/-- Both maps and all slots cleared, and learning enabled again. -/
def clearTables : ProvM Unit := do
  modify fun s => { s with macIndex := s.macIndex.removeAll.1 }
  tunnelsRemoveAll
  modify fun s =>
    { s with slots := fun _ => false, cleanupPending := false, retryAfter := 0 }

def provisionDelall : ProvM Unit := do
  modify fun s => { s with cleanupPending := true }
  let ok ← cleanTunnels env ((← get).tunnels.cap + 1) Table.iterInit true
  if ok then
    if (← lift (ifaceEbtablesReset env)) = .ok then clearTables

/-- `provision_end`: a last cleanup, then both maps are destroyed. -/
def provisionEnd : ProvM Unit := do
  provisionDelall env
  modify fun s => { s with macIndex := s.macIndex.removeAll.1 }
  tunnelsRemoveAll

end Softgre
