-- SUMMARY: Learning an address and handling a packet, as trails of the ledger.
import Softgre.Ledger.Ownership
import Softgre.Provision.Setup

/-!
# Learning

What one packet can do: the steps it may cause, and how the counters come out.
-/

namespace Softgre

open Base

variable {cfg : SoftgredConfig} {env : Env} {s s' : Sys} {p : Ptr}

/-- Labels of a call that works for a packet, apart from capacity limits. -/
def LearnsFor (remote : InAddr) (mac : CStr) (l : Label) : Prop :=
  AddsFor remote l ∨ l = .learn remote mac ∨ l = .leak remote mac

theorem AddsFor.learnsFor {remote : InAddr} {mac : CStr} (l : Label) (h : AddsFor remote l) :
    LearnsFor remote mac l := .inl h

theorem LearnsFor.busy {remote : InAddr} {mac : CStr} (l : Label) (h : LearnsFor remote mac l) :
    l.Busy := by
  rcases h with (rfl | rfl) | rfl | rfl <;> exact trivial

/-! ## The text of an address -/

/-- Six bytes, printed whole. -/
theorem macText_eq (mac : Vector UInt8 6) : ∃ b0 b1 b2 b3 b4 b5,
    mac.toList = [b0, b1, b2, b3, b4, b5] ∧
    macText mac = hex2 b0 ++ ':' :: (hex2 b1 ++ ':' :: (hex2 b2 ++ ':' :: (hex2 b3 ++ ':' ::
      (hex2 b4 ++ ':' :: hex2 b5)))) := by
  have hlength : mac.toList.length = 6 := Vector.length_toList
  rw [macText]
  generalize mac.toList = l at hlength
  rcases l with _ | ⟨b0, _ | ⟨b1, _ | ⟨b2, _ | ⟨b3, _ | ⟨b4, _ | ⟨b5, _ | ⟨b6, l⟩⟩⟩⟩⟩⟩⟩
  · cases hlength
  · cases hlength
  · cases hlength
  · cases hlength
  · cases hlength
  · cases hlength
  · exact ⟨b0, b1, b2, b3, b4, b5, rfl, rfl⟩
  · simp at hlength

/-! ## Learning an address -/

/-- Entering a learned address into both maps. -/
theorem abs_learn (s : Sys) (p : Ptr) (tun : TunnelContext) (mac : CStr) :
    ({ s.write p { tun with macs := (tun.macs.insert mac ()).1 } with
      macIndex := (s.macIndex.insert mac p).1 } : Sys).abs =
      s.abs.withStore (s.abs.store.learn p tun.abs mac) := by
  have hwrite := abs_write s p { tun with macs := (tun.macs.insert mac ()).1 }
  simp only [Sys.abs, Sys.write, Core.withStore, Store.write, Store.learn, TunnelContext.abs,
    Hashmap.keySet_insert, Core.mk.injEq, Store.mk.injEq, and_true, true_and] at hwrite ⊢
  refine ⟨?_, hwrite⟩
  funext m
  rw [Hashmap.lookup_insert_eq, Function.update_apply]

variable (cfg env)

/-- The address is learned, was known, hit the limit, is not for this tunnel, or a
    command failed. -/
theorem provisionTunnelAllowMac_spec {tun : TunnelContext} (mac : CStr) (hp : s.heap p = some tun) :
    wp (provisionTunnelAllowMac env p mac) (fun ret s' =>
      (ret = true ∧ s' = s ∧ mac ∈ tun.macs.keySet) ∨
      (ret = true ∧ s.Moves cfg (fun l => l = .learn tun.ipRemote mac) s' ∧
        s'.cleanupPending = s.cleanupPending ∧ provisionGetTunnelByMac s' mac = some p) ∨
      (ret = false ∧ s' = s.setErrno ENOSPC ∧ maxClients ≤ tun.macs.keySet.card) ∨
      (ret = false ∧ s' = s ∧ (tun.ready = false ∨ (provisionGetTunnelByMac s mac).isSome)) ∨
      (ret = false ∧ s.Moves cfg (fun l => Quiet l ∨ l = .leak tun.ipRemote mac) s' ∧
        s'.cleanupPending = s.cleanupPending ∧ s.world.Fails s'.world)) s := by
  simp only [provisionTunnelAllowMac, wp_bind, wp_get, deref_of_some hp]
  refine wp_ite (fun hready => ?_) (fun hready => ?_)
  · exact .inr (.inr (.inr (.inl ⟨rfl, rfl, .inl (by simpa using hready)⟩)))
  have hready : tun.ready = true := by simpa using hready
  refine wp_ite (fun hknown => ?_) (fun hknown => ?_)
  · exact .inl ⟨rfl, rfl, Hashmap.mem_keySet.mpr hknown⟩
  rw [← Hashmap.card_keySet]
  refine wp_ite (fun hfull => ?_) (fun hroom => ?_)
  · exact .inr (.inr (.inl ⟨rfl, rfl, hfull⟩))
  simp only [wp_bind, wp_get]
  refine wp_ite (fun howned => ?_) (fun howned => ?_)
  · exact .inr (.inr (.inr (.inl ⟨rfl, rfl, .inr howned⟩)))
  have hnone : s.abs.store.owner mac = none := Option.not_isSome_iff_eq_none.mp howned
  simp only [wp_bind, wp_lift]
  refine wp_mono (ifaceEbtablesAllow_spec cfg env (heap_abs_of_some hp))
    fun ret w h => ?_
  rcases h with ⟨rfl, evIn, evOut, hin, hout, hw⟩ | ⟨rfl, hthwarts, htrail⟩
  · -- both rules are in place, and the two maps follow
    have hstep : Step cfg (.learn tun.ipRemote mac) s.abs _ :=
      Step.learn (heap_abs_of_some hp) hready hnone (Nat.lt_of_not_ge hroom) hin hout
    have habs := abs_learn (s.withWorld w) p tun mac
    subst hw
    simp only [wp_bind, wp_modify, wp_pure]
    refine wp_modifyTunnel hp (.inr (.inl ⟨trivial, Sys.Moves.step rfl ?_ rfl, rfl, ?_⟩))
    · exact habs ▸ hstep
    · show (s.macIndex.insert mac p).1.lookup mac = some p
      rw [Hashmap.lookup_insert_eq, if_pos rfl]
  · refine .inr (.inr (.inr (.inr ⟨rfl, ⟨?_, rfl⟩, rfl, hthwarts.fails⟩)))
    rcases htrail with htrail | hleak
    · exact htrail.mono fun _ => .inl
    · exact Trail.single (.inr rfl) hleak

/-! ## Handling a packet -/

/-- How an attempt to learn ends. A capacity limit is met before any command is
    issued, if the environment can be trusted about links that are gone. -/
inductive Attempt (cfg : SoftgredConfig) (remote : InAddr) (mac : CStr) (s : Sys) :
    Bool → Sys → Prop where
  | learned {s₁ q} : s.Moves cfg (LearnsFor remote mac) s₁ → s₁.cleanupPending = false →
      provisionGetTunnelByMac s₁ mac = some q → Attempt cfg remote mac s true s₁
  | full {s₁} : s.Moves cfg Quiet s₁ → s₁.cleanupPending = false →
      (s₁.world.EnodevSound → s₁ = s) → Attempt cfg remote mac s false (s₁.setErrno ENOSPC)
  | failed {s₁} : s.Moves cfg (LearnsFor remote mac) s₁ → s₁.cleanupPending = false →
      s.world.Fails s₁.world → Attempt cfg remote mac s false s₁

/-- The end of `provision_packet`, `now` being the clock reading at its start. -/
def Sys.settled (s : Sys) (learned : Bool) (now : Int) : Sys :=
  if learned then s
  else if s.world.errno = ENOSPC then { s with ignored := s.ignored + 1 }
  else { s with failures := s.failures + 1, retryAfter := now + usecPerSec }

/-- The tunnel is there and ready: what remains is the address. -/
theorem allowMac_attempt {remote : InAddr} {mac : CStr} {s₁ : Sys} {tun : TunnelContext}
    (hmoves : s.Moves cfg (AddsFor remote) s₁) (hst : s₁.abs.store.Inv cfg)
    (hidle : s₁.cleanupPending = false) (hlookup : provisionGetTunnelByip s₁ remote = some p)
    (hp : s₁.heap p = some tun) (hready : tun.ready = true)
    (hnone : provisionGetTunnelByMac s₁ mac = none) (hroom : s₁ = s ∨ tun.macs.keySet = ∅) :
    wp (provisionTunnelAllowMac env p mac) (Attempt cfg remote mac s) s₁ := by
  obtain rfl : tun.ipRemote = remote := hst.ipRemote_eq hlookup hp
  have hadds : s.Moves cfg (LearnsFor tun.ipRemote mac) s₁ := hmoves.mono AddsFor.learnsFor
  refine wp_mono (provisionTunnelAllowMac_spec cfg env mac hp) fun ret s₂ h => ?_
  rcases h with ⟨-, -, hmem⟩ | ⟨rfl, hlearn, hpend, howner⟩ | ⟨rfl, rfl, hfull⟩ | ⟨-, -, hno⟩ |
    ⟨rfl, hleak, hpend, hfails⟩
  · -- an address without an owner is in no table
    have howner := hst.owner_iff.mpr ⟨_, heap_abs_of_some hp, hmem⟩
    cases hnone.symm.trans howner
  · refine .learned (hadds.trans (hlearn.mono fun l hl => ?_)) (hpend.trans hidle) howner
    exact .inr (.inl hl)
  · rcases hroom with rfl | hempty
    · exact .full Sys.Moves.refl hidle fun _ => rfl
    · rw [hempty] at hfull
      cases hfull
  · rcases hno with hno | hno
    · rw [hready] at hno
      cases hno
    · rw [hnone] at hno
      cases hno
  · refine .failed (hadds.trans (hleak.mono fun l hl => ?_)) (hpend.trans hidle)
      (hfails.of_suffix (Core.trail_suffix hmoves.trail))
    exact hl.elim (fun hquiet => .inl (.inl hquiet)) fun hl => .inr (.inr hl)

theorem settle_spec {learned : Bool} {now : Int} :
    wp (settle learned now) (fun _ s' => s' = s.settled learned now) s := by
  rw [settle, Sys.settled]
  refine wp_ite (fun hyes => ?_) (fun hno => ?_)
  · rw [if_pos hyes]
    rfl
  · simp only [wp_bind, wp_get, if_neg hno]
    refine wp_ite (fun herr => ?_) (fun herr => ?_)
    · rw [if_pos herr]
      rfl
    · rw [if_neg herr]
      rfl

/-- A ready tunnel for the packet, or the reason why there is none. -/
theorem readyTunnel_spec {remote : InAddr} (hst : s.abs.store.Inv cfg) (hno : s.abs.Idle)
    (hidle : s.cleanupPending = false) :
    wp (readyTunnel cfg env remote (provisionGetTunnelByip s remote)) (fun out s₁ =>
      (∃ p tun, out = some p ∧ s.Moves cfg (AddsFor remote) s₁ ∧ s₁.cleanupPending = false ∧
        provisionGetTunnelByip s₁ remote = some p ∧ s₁.heap p = some tun ∧ tun.ready = true ∧
        (s₁ = s ∨ tun.macs.keySet = ∅)) ∨
      (out = none ∧ ∀ mac, Attempt cfg remote mac s false s₁)) s := by
  -- the tunnel was ready to begin with
  have hold : ∀ p, provisionGetTunnelByip s remote = some p → (s.deref p).ready = true →
      ∃ p' tun, some p = some p' ∧ s.Moves cfg (AddsFor remote) s ∧ s.cleanupPending = false ∧
        provisionGetTunnelByip s remote = some p' ∧ s.heap p' = some tun ∧ tun.ready = true ∧
        (s = s ∨ tun.macs.keySet = ∅) := by
    intro p hlookup hready
    obtain ⟨tun, hp, -⟩ := hst.record hlookup
    rw [deref_of_some hp] at hready
    exact ⟨p, tun, rfl, Sys.Moves.refl, hidle, hlookup, hp, hready, .inl rfl⟩
  simp only [readyTunnel, wp_bind, wp_get]
  refine wp_ite (fun hready => ?_) (fun hready => ?_)
  · obtain ⟨p, hlookup, hready⟩ := (Option.any_eq_true _ _).mp hready
    rw [hlookup]
    exact .inl (hlookup ▸ hold p hlookup hready)
  · refine wp_mono (provisionAdd_spec cfg env hst hno hidle) fun out s₁ h => ?_
    rcases h with ⟨p, rfl, rfl, hlookup, hready⟩ | ⟨p, rfl, hmoves, hpend, hfresh⟩ |
      ⟨rfl, hmoves, hpend, hfails⟩ | ⟨s₂, rfl, hmoves, hpend, rfl, hsame⟩
    · exact .inl (hold p hlookup hready)
    · obtain ⟨tun, hp, hready, hmacs⟩ := hfresh.record
      exact .inl ⟨p, tun, rfl, hmoves, hpend, hfresh.lookup, hp, hready, .inr hmacs⟩
    · exact .inr ⟨rfl, fun _ => .failed (hmoves.mono AddsFor.learnsFor) hpend hfails⟩
    · exact .inr ⟨rfl, fun _ => .full hmoves hpend fun hsound => (hsame hsound).1⟩

theorem learnPacket_spec {remote : InAddr} {mac : CStr} {now : Int} (hst : s.abs.store.Inv cfg)
    (hno : s.abs.Idle) (hidle : s.cleanupPending = false)
    (hnone : provisionGetTunnelByMac s mac = none) :
    wp (learnPacket cfg env remote mac (provisionGetTunnelByip s remote) now) (fun _ s' =>
      ∃ learned s₁, Attempt cfg remote mac (s.setErrno 0) learned s₁ ∧
        s' = s₁.settled learned now) s := by
  simp only [learnPacket, wp_bind, wp_modify]
  have hlookup : provisionGetTunnelByip s remote = provisionGetTunnelByip (s.setErrno 0) remote := rfl
  rw [hlookup]
  refine wp_mono (readyTunnel_spec cfg env (s := s.setErrno 0) hst hno hidle) fun out s₁ h => ?_
  have hend : ∀ {learned s₂}, Attempt cfg remote mac (s.setErrno 0) learned s₂ →
      wp (settle learned now) (fun _ s' => ∃ learned s₁,
        Attempt cfg remote mac (s.setErrno 0) learned s₁ ∧ s' = s₁.settled learned now) s₂ :=
    fun h => wp_mono settle_spec fun _ _ hs' => ⟨_, _, h, hs'⟩
  rcases h with ⟨p, tun, rfl, hmoves, hpend, hlookup, hp, hready, hroom⟩ | ⟨rfl, h⟩
  · have hnone₁ : provisionGetTunnelByMac s₁ mac = none := by
      refine Core.trail_owner_eq_none (fun r hl => ?_) hmoves.trail hnone
      rcases hl with hl | hl <;> cases hl
    simp only [allowOn, wp_bind, wp_get, deref_of_some hp, if_pos hready]
    refine wp_mono (allowMac_attempt cfg env hmoves (hmoves.tables hst) hpend hlookup hp hready
      hnone₁ hroom) fun learned s₂ => hend
  · exact hend (h mac)

/-- The packet passes every filter and the backoff gate. -/
structure Sys.Accepts (cfg : SoftgredConfig) (s : Sys) (packet : PayloadPacket) : Prop where
  idle : s.cleanupPending = false
  addressed : addressed cfg packet = true
  allowed : configRemoteAllowed cfg (ntohl packet.remote.sAddr) = true
  mapped : mapped cfg packet = true
  unowned : provisionGetTunnelByMac s (macText packet.mac) = none
  due : s.retryAfter ≤ s.world.clock

def Sys.counted (s : Sys) : Sys := { s with packets := s.packets + 1 }

/-- What a packet can do. -/
inductive Handles (cfg : SoftgredConfig) (packet : PayloadPacket) (s : Sys) :
    Sys → Prop where
  | ignored : Handles cfg packet s { s.counted with ignored := s.ignored + 1 }
  | passed : Handles cfg packet s s.counted
  | tried {learned s₁} : s.Accepts cfg packet →
      Attempt cfg packet.remote (macText packet.mac) (s.counted.setErrno 0) learned s₁ →
      Handles cfg packet s (s₁.settled learned s.world.clock)

variable {cfg env} in
/-- The gates of `provision_packet`: turned away, nothing to do, or an attempt. -/
theorem wp_provisionPacket {packet : PayloadPacket} {Q : Unit → Sys → Prop}
    (hignored : Q () { s.counted with ignored := s.ignored + 1 }) (hpassed : Q () s.counted)
    (htried : s.Accepts cfg packet → wp (learnPacket cfg env packet.remote (macText packet.mac)
      (provisionGetTunnelByip s packet.remote) s.world.clock) Q s.counted) :
    wp (provisionPacket cfg env packet) Q s := by
  simp only [provisionPacket, wp_bind, wp_modify, wp_get]
  refine wp_ite (fun _ => hignored) (fun hidle => ?_)
  refine wp_ite (fun _ => hignored) (fun haddr => ?_)
  refine wp_ite (fun _ => hignored) (fun hallow => ?_)
  refine wp_ite (fun _ => hignored) (fun hmapped => ?_)
  simp only [wp_bind, wp_get]
  refine wp_ite (fun _ => hpassed) (fun _ => ?_)
  refine wp_ite (fun _ => hignored) (fun howned => ?_)
  refine wp_ite (fun _ => hpassed) (fun hdue => ?_)
  exact htried
    { idle := Bool.of_not_eq_true hidle
      addressed := by simpa using haddr
      allowed := by simpa using hallow
      mapped := by simpa using hmapped
      unowned := Option.not_isSome_iff_eq_none.mp howned
      due := Int.not_lt.mp hdue }

theorem provisionPacket_spec {packet : PayloadPacket} (hst : s.abs.store.Inv cfg)
    (hno : s.abs.Idle) :
    wp (provisionPacket cfg env packet) (fun _ s' => Handles cfg packet s s') s := by
  refine wp_provisionPacket .ignored .passed fun haccepts => ?_
  refine wp_mono (learnPacket_spec cfg env (s := s.counted) hst hno haccepts.idle haccepts.unowned)
    fun _ s' ⟨learned, s₁, hattempt, hs'⟩ => ?_
  subst hs'
  exact .tried haccepts hattempt

/-- Labels of the steps a packet can cause. -/
def PacketLabel (packet : PayloadPacket) (l : Label) : Prop :=
  LearnsFor packet.remote (macText packet.mac) l ∨ l = .full

theorem abs_settled (s : Sys) (learned : Bool) (now : Int) : (s.settled learned now).abs = s.abs := by
  rw [Sys.settled]
  split
  · rfl
  · split <;> rfl

theorem Attempt.trail {remote : InAddr} {mac : CStr} {learned : Bool}
    (h : Attempt cfg remote mac s learned s') :
    Trail (Step cfg) (fun l => LearnsFor remote mac l ∨ l = .full) s.abs s'.abs := by
  cases h with
  | learned hmoves => exact hmoves.trail.mono fun _ => .inl
  | failed hmoves => exact hmoves.trail.mono fun _ => .inl
  | full hmoves =>
    refine (hmoves.trail.mono fun _ hl => .inl (.inl (.inl hl))).tail (.inr rfl) ?_
    rw [abs_setErrno]
    exact Step.full

/-- A packet drives the ledger only, whatever happens to the counters. -/
theorem Handles.trail {packet : PayloadPacket} (h : Handles cfg packet s s') :
    Trail (Step cfg) (PacketLabel packet) s.abs s'.abs := by
  cases h with
  | ignored => exact Trail.refl
  | passed => exact Trail.refl
  | tried _ hattempt =>
    rw [abs_settled]
    have hzero : Step cfg .internal s.abs (s.counted.setErrno 0).abs :=
      Step.errno (by decide)
    exact (Trail.single (.inl (.inl (.inl rfl))) hzero).trans (hattempt.trail cfg)

end Softgre
