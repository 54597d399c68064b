-- SUMMARY: Every tunnel and every learned address goes back to a frame that was allowed to create it.
import Softgre.Daemon.Tables

/-!
# Where learned state comes from

The main loop as a consumer of raw frames: whatever is in the tables was put
there by a frame that passed the parser and every filter, and that arrived after
the last complete cleanup.
-/

namespace Softgre

open Base

variable {cfg : SoftgredConfig} {env : Env} {s : Sys}

/-- What the main loop reacts to. -/
inductive Input where
  | frame (data : List UInt8)
  | delall
  | wait (usec : Nat)

/-- A frame that the parser rejects causes no call. -/
def Input.calls : Input → List Call
  | .frame data =>
    match payloadParse data with
    | .ok (some packet) => [.packet packet]
    | _ => []
  | .delall => [.delall]
  | .wait usec => [.wait usec]

def feed (cfg : SoftgredConfig) (env : Env) (inputs : List Input) (s : Sys) : Sys :=
  run cfg env (inputs.flatMap Input.calls) s

theorem feed_append (inputs inputs' : List Input) :
    feed cfg env (inputs ++ inputs') s = feed cfg env inputs' (feed cfg env inputs s) := by
  rw [feed, List.flatMap_append, run_append]
  rfl

theorem feed_singleton (input : Input) : feed cfg env [input] s = run cfg env input.calls s := by
  rw [feed, List.flatMap_singleton]

/-- The remote may have a tunnel: it is another host, and neither in network 0 nor
    in the loopback network, nor above the unicast range. -/
structure Admissible (cfg : SoftgredConfig) (remote : InAddr) : Prop where
  ne_local : remote ≠ cfg.localAddr
  not_zero : ntohl remote.sAddr >>> 24 ≠ 0
  not_loopback : ntohl remote.sAddr >>> 24 ≠ 127
  below_multicast : ntohl remote.sAddr < (0xe0000000 : UInt32)
  allowed : configRemoteAllowed cfg (ntohl remote.sAddr) = true

/-- The frame `data` carries the address `mac` from `remote` to this host, in a
    VLAN that has a bridge. -/
def Carries (cfg : SoftgredConfig) (data : List UInt8) (remote : InAddr) (mac : CStr) : Prop :=
  ∃ packet, payloadParse data = .ok (some packet) ∧ packet.remote = remote ∧
    packet.localAddr = cfg.localAddr ∧ (∃ b ∈ cfg.bridge, b.vlanId = packet.vlan) ∧
    UnicastMac packet.mac ∧ macText packet.mac = mac

/-- Some frame among `inputs` carries `mac` from `remote`, and no cleanup was
    completed after it. -/
def Carried (cfg : SoftgredConfig) (env : Env) (s : Sys) (inputs : List Input) (remote : InAddr)
    (mac : CStr) : Prop :=
  ∃ before data after, inputs = before ++ .frame data :: after ∧ Carries cfg data remote mac ∧
    Uncleared cfg env (after.flatMap Input.calls) (feed cfg env (before ++ [.frame data]) s)

/-! ## Filters -/

theorem below_multicast_of_shift {host : UInt32} (h : ¬ host >>> 28 ≥ 14) :
    host < (0xe0000000 : UInt32) := by
  rw [ge_iff_le, UInt32.le_iff_toNat_le, UInt32.toNat_shiftRight, Nat.shiftRight_eq_div_pow] at h
  rw [UInt32.lt_iff_toNat_lt]
  have : (28 : UInt32).toNat % 32 = 28 := rfl
  have : (14 : UInt32).toNat = 14 := rfl
  have : (0xe0000000 : UInt32).toNat = 14 * 2 ^ 28 := rfl
  simp only [*] at h ⊢
  omega

theorem Sys.Accepts.admissible {packet : PayloadPacket} (h : s.Accepts cfg packet) :
    Admissible cfg packet.remote := by
  have haddr := h.addressed
  simp only [Softgre.addressed, Bool.not_eq_true', Bool.or_eq_false_iff, bne_eq_false_iff_eq,
    beq_eq_false_iff_ne, decide_eq_false_iff_not] at haddr
  obtain ⟨⟨⟨⟨⟨-, hlocal⟩, -⟩, hloop⟩, hzero⟩, hhigh⟩ := haddr
  exact
    { ne_local := fun heq => hlocal (congrArg InAddr.sAddr heq)
      not_zero := hzero
      not_loopback := hloop
      below_multicast := below_multicast_of_shift hhigh
      allowed := h.allowed }

theorem Sys.Accepts.carries {packet : PayloadPacket} {data : List UInt8} (h : s.Accepts cfg packet)
    (hparse : payloadParse data = .ok (some packet)) :
    Carries cfg data packet.remote (macText packet.mac) := by
  have haddr := h.addressed
  simp only [Softgre.addressed, Bool.not_eq_true', Bool.or_eq_false_iff, bne_eq_false_iff_eq] at haddr
  have hmapped := h.mapped
  simp only [Softgre.mapped, List.any_eq_true, beq_iff_eq] at hmapped
  exact ⟨packet, hparse, rfl, InAddr.sAddr_inj.mp haddr.1.1.1.1.1, hmapped,
    payloadParse_unicast hparse, rfl⟩

/-! ## Runs -/

theorem uncleared_append {calls calls' : List Call} : Uncleared cfg env (calls ++ calls') s ↔
    Uncleared cfg env calls s ∧ Uncleared cfg env calls' (run cfg env calls s) := by
  induction calls generalizing s with
  | nil => exact ⟨fun h => ⟨trivial, h⟩, And.right⟩
  | cons call rest ih =>
    rw [List.cons_append, Uncleared, Uncleared, ih, and_assoc]
    rfl

theorem Carried.extend {inputs : List Input} {input : Input} {remote : InAddr} {mac : CStr}
    (h : Carried cfg env s inputs remote mac)
    (hinput : Uncleared cfg env input.calls (feed cfg env inputs s)) :
    Carried cfg env s (inputs ++ [input]) remote mac := by
  obtain ⟨before, data, after, rfl, hcarries, huncleared⟩ := h
  refine ⟨before, data, after ++ [input], by simp, hcarries, ?_⟩
  rw [List.flatMap_append, uncleared_append, List.flatMap_singleton]
  refine ⟨huncleared, ?_⟩
  rw [← feed, ← feed_append, List.append_assoc]
  exact hinput

/-- The tables hold only what was carried by some frame. -/
theorem feed_comesFrom (cfg : SoftgredConfig) (env : Env) (w : World) (inputs : List Input) :
    (feed cfg env inputs (provisionInit w)).abs.store.ComesFrom (Admissible cfg)
      (Carried cfg env (provisionInit w) inputs) := by
  induction inputs using List.reverseRecOn with
  | nil =>
    intro p t ht
    rw [show feed cfg env [] (provisionInit w) = provisionInit w from rfl, abs_provisionInit] at ht
    cases ht
  | append_singleton inputs input ih =>
    have htables : (feed cfg env inputs (provisionInit w)).Tables cfg :=
      run_tables cfg env _ ⟨provisionInit_tables cfg w, provisionInit_idle w⟩
    -- what was there stays accounted for, unless a cleanup completes
    have hkeep : Uncleared cfg env input.calls (feed cfg env inputs (provisionInit w)) →
        (feed cfg env inputs (provisionInit w)).abs.store.ComesFrom (Admissible cfg)
          (Carried cfg env (provisionInit w) (inputs ++ [input])) :=
      fun hun => ih.mono fun r mac h => h.extend hun
    rw [feed_append, feed_singleton]
    cases input with
    | wait usec => exact hkeep ⟨nofun, trivial⟩
    | delall =>
      have hcleans := exec_delall cfg env (provisionInit w).world.kernel htables.1
      show (exec cfg env (feed cfg env inputs (provisionInit w)) .delall).abs.store.ComesFrom _ _
      have hkeep := fun hpend => hkeep ⟨fun _ => hpend, trivial⟩
      generalize exec cfg env (feed cfg env inputs (provisionInit w)) .delall = s' at *
      cases hcleans with
      | complete => exact fun p t ht => nomatch ht
      | incomplete hmoves hpend =>
        exact Core.trail_comesFrom (fun l hl => by cases hl; trivial) hmoves.trail htables.1
          (hkeep hpend)
    | frame data =>
      simp only [Input.calls] at hkeep ⊢
      split
      · next packet hparse =>
        rw [hparse] at hkeep
        have hkeep := hkeep ⟨nofun, trivial⟩
        have hhandles := exec_packet cfg env packet htables.1 htables.2
        have htrail := Handles.trail cfg hhandles
        show (exec cfg env (feed cfg env inputs (provisionInit w)) (.packet packet)).abs.store.ComesFrom _ _
        generalize exec cfg env (feed cfg env inputs (provisionInit w)) (.packet packet) = s' at *
        cases hhandles with
        | ignored => exact hkeep
        | passed => exact hkeep
        | tried haccepts =>
          refine Core.trail_comesFrom (fun l hl => ?_) htrail htables.1 hkeep
          rcases hl with ((rfl | rfl) | rfl | rfl) | rfl
          · trivial
          · exact haccepts.admissible
          · exact ⟨inputs, data, [], rfl, haccepts.carries hparse, trivial⟩
          · trivial
          · trivial
      · next hparse =>
        refine hkeep ?_
        split
        · next packet hparse' => exact absurd hparse' (hparse packet)
        · trivial

/-- Every tunnel in the table is for an admissible remote, and every address it
    owns was carried from there since the last complete cleanup. -/
theorem learned_state_provenance (cfg : SoftgredConfig) (env : Env) (w : World)
    (inputs : List Input) : ∀ remote p tun,
      (feed cfg env inputs (provisionInit w)).InTable remote p tun → Admissible cfg remote ∧
        ∀ mac, tun.macs.contains mac = true →
          Carried cfg env (provisionInit w) inputs remote mac := by
  intro remote p tun hin
  have htables : (feed cfg env inputs (provisionInit w)).Tables cfg :=
    run_tables cfg env _ ⟨provisionInit_tables cfg w, provisionInit_idle w⟩
  have hremote : tun.abs.remote = remote := htables.1.ipRemote_eq hin.lookup hin.record
  obtain ⟨hadmissible, hmacs⟩ := feed_comesFrom cfg env w inputs p _ (heap_abs_of_some hin.record)
  rw [hremote] at hadmissible hmacs
  exact ⟨hadmissible, fun mac hmac => hmacs mac (Hashmap.mem_keySet.mpr hmac)⟩

/-- The frame behind `Sample.packet`. -/
def Sample.frame : List UInt8 :=
  [2, 0, 0, 0, 0, 9, 2, 0, 0, 0, 0, 8, 0x08, 0x00,
   0x45, 0, 0, 42, 0, 0, 0, 0, 64, 47, 0, 0, 10, 0, 0, 2, 10, 0, 0, 1,
   0, 0, 0x65, 0x58,
   255, 255, 255, 255, 255, 255, 2, 0, 0, 0, 0, 1, 0x81, 0x00, 0, 100, 0x08, 0x06]

def Sample.fed : Sys :=
  feed Sample.config Sample.obliging [.frame Sample.frame] (Sample.start Sample.obliging)

theorem learned_state_provenance_frame :
    payloadParse Sample.frame = .ok (some Sample.packet) ∧
    Sample.fed.InTable Sample.packet.remote 0 (Sample.fed.deref 0) ∧
    (Sample.fed.deref 0).macs.contains (macText Sample.packet.mac) = true ∧
    Admissible Sample.config Sample.packet.remote ∧
    Carried Sample.config Sample.obliging (Sample.start Sample.obliging) [.frame Sample.frame]
      Sample.packet.remote (macText Sample.packet.mac) := by
  have hin : Sample.fed.InTable Sample.packet.remote 0 (Sample.fed.deref 0) :=
    ⟨by decide +kernel, heap_of_isSome (by decide +kernel)⟩
  have hmac : (Sample.fed.deref 0).macs.contains (macText Sample.packet.mac) = true := by
    decide +kernel
  have hprov :=
    learned_state_provenance Sample.config Sample.obliging _ [.frame Sample.frame] _ _ _ hin
  exact ⟨by decide +kernel, hin, hmac, hprov.1, hprov.2 _ hmac⟩

end Softgre
