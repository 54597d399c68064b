-- SUMMARY: The frame format the daemon learns from, with its encoding.
import Softgre.Base.Bytes
import Softgre.Payload

/-!
# The frame format

The format has three layers: an Ethernet frame with up to two outer tags, an
unfragmented IPv4 datagram that carries a GRE header without options, and an
inner Ethernet frame with exactly one tag. Each layer is a structure whose
fields are what a sender may choose, and `encode` lays it out on the wire.
-/

namespace Softgre

open Base

/-- The tagged Ethernet frame inside the tunnel. -/
structure InnerFrame where
  destination : Vector UInt8 6
  mac : Vector UInt8 6
  /-- The priority and drop-eligible bits of the tag. -/
  priority : Fin 16
  vlan : UInt16
  type : UInt16
  payload : List UInt8
  mac_unicast : UnicastMac mac
  vlan_valid : 1 ≤ vlan.toNat ∧ vlan.toNat ≤ 4094
  type_untagged : isTag type = false

namespace InnerFrame

/-- The tag: priority bits above the 12 bits of the VLAN id. -/
def tci (f : InnerFrame) : UInt16 := UInt16.ofNat (f.priority * 4096 + f.vlan.toNat)

def encode (f : InnerFrame) : List UInt8 :=
  f.destination.toList ++ f.mac.toList ++ be16 0x8100 ++ be16 f.tci ++ be16 f.type ++ f.payload

theorem toNat_tci (f : InnerFrame) : f.tci.toNat = f.priority * 4096 + f.vlan.toNat := by
  have hpriority := f.priority.isLt
  have hvlan := f.vlan_valid.2
  exact UInt16.toNat_ofNat_of_lt' (by rw [UInt16.size]; omega)

theorem length_encode (f : InnerFrame) : f.encode.length = 18 + f.payload.length := by
  simp only [encode, List.length_append, Vector.length_toList, length_be16]

theorem encode_eq_iff {f : InnerFrame}
    {d0 d1 d2 d3 d4 d5 m0 m1 m2 m3 m4 m5 t0 t1 c0 c1 i0 i1 : UInt8}
    {rest : List UInt8} :
    f.encode = d0 :: d1 :: d2 :: d3 :: d4 :: d5 :: m0 :: m1 :: m2 :: m3 :: m4 :: m5 ::
        t0 :: t1 :: c0 :: c1 :: i0 :: i1 :: rest ↔
      f.destination = #v[d0, d1, d2, d3, d4, d5] ∧ f.mac = #v[m0, m1, m2, m3, m4, m5] ∧
        0x8100 = word t0 t1 ∧ f.tci = word c0 c1 ∧ f.type = word i0 i1 ∧ f.payload = rest := by
  change _ = (#v[d0, d1, d2, d3, d4, d5]).toList ++ ((#v[m0, m1, m2, m3, m4, m5]).toList ++
    (t0 :: t1 :: c0 :: c1 :: i0 :: i1 :: rest)) ↔ _
  simp only [encode, List.append_assoc, toList_append_eq_iff, be16_append_eq_iff]

end InnerFrame

/-- An IPv4 datagram that carries `inner` in an unkeyed GRE header. -/
structure Datagram where
  tos : UInt8
  ident : UInt16
  dontFragment : Bool
  ttl : UInt8
  checksum : UInt16
  source : Vector UInt8 4
  destination : Vector UInt8 4
  /-- The IPv4 options, in words of four bytes. -/
  options : List (Vector UInt8 4)
  inner : InnerFrame
  options_le : options.length ≤ 10
  /-- The total length fits its field. -/
  fits : 24 + 4 * options.length + inner.encode.length < 65536

namespace Datagram

/-- The header length in words. -/
def ihl (d : Datagram) : Nat := 5 + d.options.length

def total (d : Datagram) : Nat := 4 * d.ihl + 4 + d.inner.encode.length

def encode (d : Datagram) : List UInt8 :=
  [UInt8.ofNat (0x40 + d.ihl), d.tos] ++ be16 (UInt16.ofNat d.total) ++
    be16 d.ident ++ be16 (if d.dontFragment then 0x4000 else 0) ++
    [d.ttl, 47] ++ be16 d.checksum ++ d.source.toList ++ d.destination.toList ++
    d.options.flatMap Vector.toList ++ be16 0 ++ be16 0x6558 ++ d.inner.encode

theorem total_lt (d : Datagram) : d.total < 65536 := by
  have hfits := d.fits
  rw [total, ihl]
  omega

theorem length_encode (d : Datagram) : d.encode.length = d.total := by
  have hoptions : (d.options.flatMap Vector.toList).length = 4 * d.options.length := by
    simp [List.length_flatMap, Nat.mul_comm]
  simp only [encode, List.length_append, Vector.length_toList, length_be16, hoptions, total, ihl,
    List.length_cons, List.length_nil]
  omega

/-- The GRE header and the inner frame, behind the IPv4 header. -/
def gre (d : Datagram) : List UInt8 := be16 0 ++ be16 0x6558 ++ d.inner.encode

theorem encode_append_eq_iff {d : Datagram} {trailing : List UInt8}
    {v tos l0 l1 i0 i1 f0 f1 ttl protocol c0 c1 s0 s1 s2 s3 d0 d1 d2 d3 : UInt8}
    {rest : List UInt8} :
    d.encode ++ trailing = v :: tos :: l0 :: l1 :: i0 :: i1 :: f0 :: f1 :: ttl :: protocol ::
        c0 :: c1 :: s0 :: s1 :: s2 :: s3 :: d0 :: d1 :: d2 :: d3 :: rest ↔
      v = UInt8.ofNat (0x40 + d.ihl) ∧ d.tos = tos ∧ UInt16.ofNat d.total = word l0 l1 ∧
        d.ident = word i0 i1 ∧ (if d.dontFragment then 0x4000 else 0) = word f0 f1 ∧
        d.ttl = ttl ∧ protocol = 47 ∧ d.checksum = word c0 c1 ∧ d.source = #v[s0, s1, s2, s3] ∧
        d.destination = #v[d0, d1, d2, d3] ∧
        d.options.flatMap Vector.toList ++ d.gre ++ trailing = rest := by
  change _ = v :: tos :: l0 :: l1 :: i0 :: i1 :: f0 :: f1 :: ttl :: protocol :: c0 :: c1 ::
    ((#v[s0, s1, s2, s3]).toList ++ ((#v[d0, d1, d2, d3]).toList ++ rest)) ↔ _
  simp only [encode, gre, List.append_assoc, List.cons_append, List.nil_append, List.cons.injEq,
    toList_append_eq_iff, be16_append_eq_iff, @eq_comm _ v, @eq_comm _ protocol]

end Datagram

/-- An outer VLAN tag. -/
structure OuterTag where
  tpid : UInt16
  tci : UInt16
  tpid_tag : isTag tpid = true

def OuterTag.encode (t : OuterTag) : List UInt8 := be16 t.tpid ++ be16 t.tci

/-- A captured frame; the bytes behind the datagram are padding. -/
structure Frame where
  addresses : Vector UInt8 12
  tags : List OuterTag
  datagram : Datagram
  trailing : List UInt8
  tags_le : tags.length ≤ 2

namespace Frame

def encode (f : Frame) : List UInt8 :=
  f.addresses.toList ++ f.tags.flatMap OuterTag.encode ++ be16 0x0800 ++ f.datagram.encode ++
    f.trailing

/-- What the daemon learns from the frame. -/
def packet (f : Frame) : PayloadPacket where
  remote := InAddr.ofBytes f.datagram.source[0] f.datagram.source[1] f.datagram.source[2]
    f.datagram.source[3]
  localAddr := InAddr.ofBytes f.datagram.destination[0] f.datagram.destination[1]
    f.datagram.destination[2] f.datagram.destination[3]
  mac := f.datagram.inner.mac
  vlan := f.datagram.inner.vlan

end Frame

end Softgre
