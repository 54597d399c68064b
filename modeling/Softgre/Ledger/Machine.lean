-- SUMMARY: The abstract provisioning machine: who is tracked, who owns which address, and its steps.
import Softgre.Base.Trail
import Softgre.Config
import Softgre.Iface.Links
import Softgre.Iface.Ebtables
import Softgre.Provision.State
import Mathlib.Logic.Function.Basic

/-!
# The provisioning ledger

The tables as finite maps and sets, next to the world they are meant to mirror.
A `Step` is the least the daemon does without looking away: one command, or one
command together with the entry that records it. Its guards say when the daemon
dares to take it, and every invariant is proved from them.

Labels mark the steps that a claim about a run has to count or to exclude.
-/

namespace Softgre

open Base

structure Tunnel where
  remote : InAddr
  ifgre : CStr
  id : Nat
  ready : Bool
  hooks : BitVec 32
  macs : Finset CStr

/-- A tunnel that has just been given slot `id`. -/
def Tunnel.fresh (cfg : SoftgredConfig) (remote : InAddr) (id : Nat) : Tunnel :=
  ⟨remote, tunnelName cfg id, id, false, 0, ∅⟩

structure Store where
  tunnels : InAddr → Option Ptr
  owner : CStr → Option Ptr
  heap : Ptr → Option Tunnel
  slots : Nat → Bool
  next : Ptr

namespace Store

def write (st : Store) (p : Ptr) (t : Tunnel) : Store :=
  { st with heap := Function.update st.heap p (some t) }

def track (st : Store) (t : Tunnel) : Store where
  tunnels := Function.update st.tunnels t.remote (some st.next)
  owner := st.owner
  heap := Function.update st.heap st.next (some t)
  slots := Function.update st.slots t.id true
  next := st.next + 1

def untrack (st : Store) (p : Ptr) (t : Tunnel) : Store where
  tunnels := Function.update st.tunnels t.remote none
  owner := st.owner
  heap := Function.update st.heap p none
  slots := Function.update st.slots t.id false
  next := st.next

def learn (st : Store) (p : Ptr) (t : Tunnel) (mac : CStr) : Store :=
  { st.write p { t with macs := insert mac t.macs } with
    owner := Function.update st.owner mac (some p) }

def unlearn (st : Store) (p : Ptr) (t : Tunnel) (mac : CStr) : Store :=
  { st.write p { t with macs := t.macs.erase mac } with
    owner := Function.update st.owner mac none }

def clear (st : Store) : Store where
  tunnels _ := none
  owner _ := none
  heap _ := none
  slots _ := false
  next := st.next

/-- An address that was handed out and released again. -/
def skip (st : Store) : Store := { st with next := st.next + 1 }

end Store

structure Core where
  store : Store
  pending : Bool
  world : World

namespace Core

def kernel (c : Core) : Kernel := c.world.kernel

def record (c : Core) (ev : Event) : Core := { c with world := c.world.record ev }

def withStore (c : Core) (st : Store) : Core := { c with store := st }

def setErrno (c : Core) (e : Errno) : Core := { c with world := { c.world with errno := e } }

/-- The tunnel's link is not left, as far as the deletions so far can be trusted about
    that. -/
def Gone (c : Core) (t : Tunnel) : Prop :=
  c.world.EnodevSound → c.kernel.hasLink t.ifgre = false

@[simp] theorem kernel_record (c : Core) (ev : Event) : (c.record ev).kernel = ev.kernel := rfl
@[simp] theorem kernel_withStore (c : Core) (st : Store) : (c.withStore st).kernel = c.kernel := rfl
@[simp] theorem store_withStore (c : Core) (st : Store) : (c.withStore st).store = st := rfl
@[simp] theorem pending_withStore (c : Core) (st : Store) :
    (c.withStore st).pending = c.pending := rfl

/-- A tunnel's link stays gone while the links stay as they are. -/
theorem Gone.of_suffix {c c' : Core} {t u : Tunnel} (h : c.Gone t)
    (hsuffix : c.world.trace <:+ c'.world.trace) (hlinks : c'.kernel.links = c.kernel.links)
    (hifgre : u.ifgre = t.ifgre) : c'.Gone u := fun hsound =>
  hifgre ▸ (Kernel.hasLink_congr hlinks t.ifgre).trans (h (hsound.of_suffix hsuffix))

end Core

/-- The command that lets `mac` in through the tunnel `name`, and its undoing. -/
def allowIn (name mac : CStr) : Cmd := .insert .nat .softgreIn (acceptIn name mac)
def allowOut (name mac : CStr) : Cmd := .insert .filter .softgreOut (acceptOut name mac)
def revokeIn (name mac : CStr) : Cmd := .delete .nat .softgreIn (acceptIn name mac)
def revokeOut (name mac : CStr) : Cmd := .delete .filter .softgreOut (acceptOut name mac)

/-- The commands of `iface_ebtables_reset`. -/
def resetCmds : List Cmd :=
  [.flush .nat .softgreIn, .flush .filter .softgreOut,
   .append .filter .softgreOut multicastRule, .append .nat .softgreIn dropRule,
   .append .filter .softgreOut dropRule]

/-- All three jumps are installed. -/
def allHooks : BitVec 32 := 7

inductive Label where
  | internal
  | track (remote : InAddr)
  | learn (remote : InAddr) (mac : CStr)
  | leak (remote : InAddr) (mac : CStr)
  | revoke (remote : InAddr) (mac : CStr)
  | clear
  | full
  | wait

inductive Step (cfg : SoftgredConfig) : Label → Core → Core → Prop where
  | refused {c ev} : ev.Refused c.kernel → Step cfg .internal c (c.record ev)
  | errno {c e} : e ≠ ENOSPC → Step cfg .internal c (c.setErrno e)
  | full {c} : Step cfg .full c (c.setErrno ENOSPC)
  | wait {c} (usec : Nat) : Step cfg .wait c
      { c with world := { c.world with clock := c.world.clock + usec } }
  | skip {c} : Step cfg .internal c (c.withStore c.store.skip)
  | track {c ev remote id} : c.pending = false → c.store.tunnels remote = none → id < maxSlots →
      c.store.slots id = false →
      ev.Done c.kernel (.newGretap (tunnelName cfg id) cfg.ifname cfg.localAddr remote) →
      Step cfg (.track remote) c
        ((c.record ev).withStore (c.store.track (.fresh cfg remote id)))
  | hook {c ev p t i h} : c.pending = false → c.store.heap p = some t → hooks[i]? = some h →
      t.hooks.getLsbD i = false → ev.Done c.kernel (.insert h.table h.chain (h.jump t.ifgre)) →
      Step cfg .internal c
        ((c.record ev).withStore (c.store.write p { t with hooks := t.hooks ||| bit i }))
  | vlan {c ev p t b} : c.pending = false → c.store.heap p = some t → t.hooks = allHooks →
      b ∈ cfg.bridge → ev.Done c.kernel (.newVlan (vlanName t.ifgre b.vlanId) t.ifgre b.vlanId) →
      Step cfg .internal c (c.record ev)
  | master {c ev p t b} : c.pending = false → c.store.heap p = some t → b ∈ cfg.bridge →
      ev.Done c.kernel (.setMaster (vlanName t.ifgre b.vlanId) b.ifname) →
      Step cfg .internal c (c.record ev)
  | ready {c p t} : c.pending = false → c.store.heap p = some t →
      Step cfg .internal c (c.withStore (c.store.write p { t with ready := true }))
  | learn {c evIn evOut p t mac} : c.store.heap p = some t → t.ready = true →
      c.store.owner mac = none → t.macs.card < maxClients →
      evIn.Done c.kernel (allowIn t.ifgre mac) → evOut.Done evIn.kernel (allowOut t.ifgre mac) →
      Step cfg (.learn t.remote mac) c
        (((c.record evIn).record evOut).withStore (c.store.learn p t mac))
  | undone {c evIn evOut evUndo p t mac} : c.store.heap p = some t →
      evIn.Done c.kernel (allowIn t.ifgre mac) → evOut.Refused evIn.kernel →
      evUndo.Done evIn.kernel (revokeIn t.ifgre mac) →
      Step cfg .internal c (((c.record evIn).record evOut).record evUndo)
  | leak {c evIn evOut evUndo p t mac} : c.store.heap p = some t →
      evIn.Done c.kernel (allowIn t.ifgre mac) → evOut.Refused evIn.kernel →
      evUndo.Refused evIn.kernel → evUndo.cmd = revokeIn t.ifgre mac →
      Step cfg (.leak t.remote mac) c (((c.record evIn).record evOut).record evUndo)
  | unlink {c ev p t} : c.store.heap p = some t → ev.Done c.kernel (.delLink t.ifgre) →
      Step cfg .internal c (c.record ev)
  | unhook {c ev p t i h} : c.store.heap p = some t → hooks[i]? = some h →
      t.hooks.getLsbD i = true → c.Gone t →
      ev.Done c.kernel (.delete h.table h.chain (h.jump t.ifgre)) →
      Step cfg .internal c
        ((c.record ev).withStore (c.store.write p { t with hooks := t.hooks &&& ~~~ bit i }))
  | revoke {c ev p t mac cmd} : c.store.heap p = some t → mac ∈ t.macs →
      cmd = revokeIn t.ifgre mac ∨ cmd = revokeOut t.ifgre mac → ev.Done c.kernel cmd →
      Step cfg (.revoke t.remote mac) c (c.record ev)
  | unlearn {c p t mac} : c.store.heap p = some t → mac ∈ t.macs →
      Step cfg (.revoke t.remote mac) c (c.withStore (c.store.unlearn p t mac))
  | untrack {c p t} : c.store.heap p = some t → t.macs = ∅ → t.hooks = 0 → c.Gone t →
      Step cfg .internal c (c.withStore (c.store.untrack p t))
  | pend {c} : Step cfg .internal c { c with pending := true }
  | unready {c p t} : c.pending = true → c.store.heap p = some t →
      Step cfg .internal c (c.withStore (c.store.write p { t with ready := false }))
  | reset {c ev cmd} : c.pending = true → (∀ p t, c.store.heap p = some t → c.Gone t) →
      cmd ∈ resetCmds → ev.Done c.kernel cmd → Step cfg .internal c (c.record ev)
  | clear {c} : c.pending = true →
      (∀ p t, c.store.heap p = some t → c.Gone t ∧ t.hooks = 0) →
      c.kernel.chain .nat .softgreIn = some [dropRule] →
      c.kernel.chain .filter .softgreOut = some [multicastRule, dropRule] →
      Step cfg .clear c { c with store := c.store.clear, pending := false }

/-! ## The trace grows -/

variable {cfg : SoftgredConfig} {l : Label} {c c' : Core}

theorem Step.suffix (h : Step cfg l c c') : c.world.trace <:+ c'.world.trace := by
  cases h with
  | full | wait | errno | skip | ready | pend | unready | unlearn | untrack | clear =>
    exact List.suffix_refl _
  | refused | vlan | master | unlink | revoke | reset | track | hook | unhook =>
    exact List.suffix_cons _ _
  | learn => exact (List.suffix_cons _ _).trans (List.suffix_cons _ _)
  | undone | leak =>
    exact ((List.suffix_cons _ _).trans (List.suffix_cons _ _)).trans (List.suffix_cons _ _)

theorem Core.trail_suffix {P : Label → Prop} (h : Trail (Step cfg) P c c') :
    c.world.trace <:+ c'.world.trace :=
  h.relates (R := fun c c' => c.world.trace <:+ c'.world.trace) (fun _ => List.suffix_refl _)
    (fun _ _ _ => List.IsSuffix.trans) fun _ _ _ _ hs => hs.suffix

end Softgre
