-- SUMMARY: The frame parser of `payload.c`, with its reads and subtractions checked.
import Softgre.Base.Checked
import Softgre.Compat

/-!
# The frame parser

`payloadParse` follows `payload_parse` test by test. A read outside the frame
and a length subtraction below zero are faults of the model, so that they are
visible; rejecting a frame is the ordinary result `none`.
-/

namespace Softgre

/-- `struct payload_packet`. -/
structure PayloadPacket where
  remote : InAddr
  localAddr : InAddr
  mac : Vector UInt8 6
  vlan : UInt16
deriving DecidableEq, Repr

inductive Fault where
  | outOfBounds (index : Nat)
  | underflow
deriving DecidableEq, Repr

def read8 (data : List UInt8) (i : Nat) : Except Fault UInt8 :=
  match data[i]? with
  | some b => .ok b
  | none => .error (.outOfBounds i)

def read16 (data : List UInt8) (i : Nat) : Except Fault UInt16 := do
  let hi ← read8 data i
  let lo ← read8 data (i + 1)
  return (hi.toUInt16 <<< 8) ||| lo.toUInt16

/-- A `size_t` difference. -/
def sizeSub (a b : Nat) : Except Fault Nat :=
  if b ≤ a then .ok (a - b) else .error .underflow

def isTag (type : UInt16) : Bool := type == 0x8100 || type == 0x88a8

/-- The loop over the outer tags, with the number of tags that may still come.
    It returns the type behind the tags and the offset of the IPv4 header. -/
def outerTags (data : List UInt8) : Nat → UInt16 → Nat → Except Fault (Option (UInt16 × Nat))
  | left, type, offset =>
    if isTag type then
      match left with
      | 0 => .ok none
      | left + 1 => do
        let remaining ← sizeSub data.length offset
        if remaining < 4 then return none
        let type ← read16 data (offset + 2)
        outerTags data left type (offset + 4)
    else .ok (some (type, offset))

/-- The inner Ethernet frame at `ether`, of which `remaining` bytes belong to
    the packet. -/
def parseInner (data : List UInt8) (ip ether remaining : Nat) :
    Except Fault (Option PayloadPacket) := do
  if remaining < 14 then return none
  let type ← read16 data (ether + 12)
  if type != 0x8100 || remaining < 18 then return none
  let innerType ← read16 data (ether + 16)
  if isTag innerType then return none
  let tci ← read16 data (ether + 14)
  let vlan := tci &&& (0x0fff : UInt16)
  if vlan < 1 || vlan > 4094 then return none
  let m0 ← read8 data (ether + 6)
  if m0 &&& (1 : UInt8) != 0 then return none
  let m1 ← read8 data (ether + 7)
  let m2 ← read8 data (ether + 8)
  let m3 ← read8 data (ether + 9)
  let m4 ← read8 data (ether + 10)
  let m5 ← read8 data (ether + 11)
  let nonzero := m0 ||| m1 ||| m2 ||| m3 ||| m4 ||| m5
  if nonzero == 0 then return none
  return some
    { remote := InAddr.ofBytes (← read8 data (ip + 12)) (← read8 data (ip + 13))
        (← read8 data (ip + 14)) (← read8 data (ip + 15))
      localAddr := InAddr.ofBytes (← read8 data (ip + 16)) (← read8 data (ip + 17))
        (← read8 data (ip + 18)) (← read8 data (ip + 19))
      mac := #v[m0, m1, m2, m3, m4, m5]
      vlan := vlan }

def payloadParse (data : List UInt8) : Except Fault (Option PayloadPacket) := do
  if data.length < 14 then return none
  let type ← read16 data 12
  let some (type, offset) ← outerTags data 2 type 14 | return none
  if type != 0x0800 then return none
  let remaining ← sizeSub data.length offset
  if remaining < 20 then return none
  let ip := offset
  let version ← read8 data ip
  let ihl := (version &&& (15 : UInt8)).toNat * 4
  let total := (← read16 data (ip + 2)).toNat
  if version >>> 4 != 4 || ihl < 20 || total < ihl + 4 then return none
  let remaining ← sizeSub data.length offset
  if total > remaining then return none
  let protocol ← read8 data (ip + 9)
  if protocol != 47 then return none
  let fragment ← read16 data (ip + 6)
  if fragment &&& (0xbfff : UInt16) != 0 then return none
  let gre := ip + ihl
  let flags ← read16 data gre
  if flags != 0 then return none
  let protocol ← read16 data (gre + 2)
  if protocol != 0x6558 then return none
  let remaining ← sizeSub total (ihl + 4)
  parseInner data ip (gre + 4) remaining

/-! ## What is accepted -/

/-- A test that rejects the frame was passed if something is accepted. -/
theorem guard_eq_ok_iff {c : Prop} [Decidable c] {x : Except Fault (Option PayloadPacket)}
    {packet : PayloadPacket} :
    (if c then pure none else x) = .ok (some packet) ↔ ¬ c ∧ x = .ok (some packet) := by
  by_cases hc : c
  · simp [hc, pure, Except.pure]
  · simp [hc]

/-- The address of a client: not a group address, and not all zero. -/
def UnicastMac (mac : Vector UInt8 6) : Prop :=
  mac[0] &&& (1 : UInt8) = 0 ∧ mac ≠ Vector.replicate 6 0

theorem parseInner_unicast {data : List UInt8} {ip ether remaining : Nat} {packet : PayloadPacket}
    (h : parseInner data ip ether remaining = .ok (some packet)) : UnicastMac packet.mac := by
  simp only [parseInner, Base.bind_eq_ok_iff, guard_eq_ok_iff] at h
  obtain ⟨-, _, -, -, _, -, -, _, -, -, m0, -, hgroup, m1, -, m2, -, m3, -, m4, -, m5, -, hzero, h⟩ := h
  obtain ⟨_, -, _, -, _, -, _, -, _, -, _, -, _, -, _, -, h⟩ := h
  cases h
  refine ⟨by simpa using hgroup, fun heq => hzero ?_⟩
  have hbytes := congrArg Vector.toList heq
  simp only [Vector.toList_mk, Vector.toList_replicate] at hbytes
  cases hbytes
  rfl

theorem payloadParse_unicast {data : List UInt8} {packet : PayloadPacket}
    (h : payloadParse data = .ok (some packet)) : UnicastMac packet.mac := by
  simp only [payloadParse, Base.bind_eq_ok_iff, guard_eq_ok_iff] at h
  obtain ⟨-, _, -, tags, -, h⟩ := h
  cases tags with
  | none => cases h
  | some tags =>
    simp only [Base.bind_eq_ok_iff, guard_eq_ok_iff] at h
    obtain ⟨-, _, -, -, _, -, _, -, -, _, -, -, _, -, -, _, -, -, _, -, -, _, -, -, _, -, h⟩ := h
    exact parseInner_unicast h

end Softgre
