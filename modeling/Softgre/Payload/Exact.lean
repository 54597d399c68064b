-- SUMMARY: The frame parser accepts exactly the frame format and never faults.
import Softgre.Base.Checked
import Softgre.Payload.Frame
import Mathlib.Tactic.IntervalCases

/-!
# Exactness of the parser

The proofs walk through the parser layer by layer with the rules of `Decides`.
Behind a test that rejects, no structure of the layer encodes to the bytes at
hand; behind the last test, the structure is read off them.
-/

namespace Softgre

open Base

-- ---------------------------------------------------------------------------
-- Reads
-- ---------------------------------------------------------------------------

theorem read8_of_drop {data : List UInt8} {i k : Nat} {b : UInt8}
    (h : (data.drop i)[k]? = some b) : read8 data (i + k) = .ok b := by
  rw [List.getElem?_drop] at h
  simp only [read8, h]

theorem read16_of_drop {data : List UInt8} {i k : Nat} {a b : UInt8}
    (ha : (data.drop i)[k]? = some a) (hb : (data.drop i)[k + 1]? = some b) :
    read16 data (i + k) = .ok (word a b) := by
  rw [read16, read8_of_drop ha, Nat.add_assoc, read8_of_drop hb]
  rfl

theorem sizeSub_eq {a b : Nat} (h : b ≤ a) : sizeSub a b = .ok (a - b) := if_pos h

-- ---------------------------------------------------------------------------
-- The inner frame
-- ---------------------------------------------------------------------------

/-- What the parser returns for an inner frame between two addresses. -/
def InnerFrame.packet (f : InnerFrame) (remote localAddr : InAddr) : PayloadPacket :=
  ⟨remote, localAddr, f.mac, f.vlan⟩

theorem toNat_and_0x0fff (x : UInt16) : (x &&& (0x0fff : UInt16)).toNat = x.toNat % 4096 :=
  Nat.and_two_pow_sub_one_eq_mod x.toNat 12

theorem InnerFrame.vlan_eq_tci (f : InnerFrame) : f.vlan = f.tci &&& (0x0fff : UInt16) := by
  have hvlan := f.vlan_valid.2
  rw [← UInt16.toNat_inj, toNat_and_0x0fff, f.toNat_tci]
  omega

/-- The inner frame with a given tag. -/
def InnerFrame.ofTci (destination mac : Vector UInt8 6) (tci type : UInt16) (payload : List UInt8)
    (hmac : UnicastMac mac)
    (hvlan : 1 ≤ (tci &&& (0x0fff : UInt16)).toNat ∧ (tci &&& (0x0fff : UInt16)).toNat ≤ 4094)
    (htype : isTag type = false) : InnerFrame where
  destination := destination
  mac := mac
  priority := ⟨tci.toNat / 4096, by have := tci.toNat_lt; omega⟩
  vlan := tci &&& (0x0fff : UInt16)
  type := type
  payload := payload
  mac_unicast := hmac
  vlan_valid := hvlan
  type_untagged := htype

theorem InnerFrame.tci_ofTci {destination mac : Vector UInt8 6} {tci type : UInt16}
    {payload : List UInt8} (hmac : UnicastMac mac)
    (hvlan : 1 ≤ (tci &&& (0x0fff : UInt16)).toNat ∧ (tci &&& (0x0fff : UInt16)).toNat ≤ 4094)
    (htype : isTag type = false) :
    (ofTci destination mac tci type payload hmac hvlan htype).tci = tci := by
  rw [← UInt16.toNat_inj, toNat_tci]
  simp only [ofTci, toNat_and_0x0fff]
  omega

/-- The range check of the source, in terms of the value. -/
theorem vlanCheck_iff {vlan : UInt16} :
    1 ≤ vlan.toNat ∧ vlan.toNat ≤ 4094 ↔ ¬ (decide (vlan < 1) || decide (vlan > 4094)) = true := by
  simp only [Bool.or_eq_true, decide_eq_true_eq, UInt16.lt_iff_toNat_lt, gt_iff_lt]
  change _ ↔ ¬ (vlan.toNat < 1 ∨ 4094 < vlan.toNat)
  omega

theorem unicastMac_iff {m0 m1 m2 m3 m4 m5 : UInt8} :
    UnicastMac #v[m0, m1, m2, m3, m4, m5] ↔
      m0 &&& (1 : UInt8) = 0 ∧ m0 ||| m1 ||| m2 ||| m3 ||| m4 ||| m5 ≠ 0 := by
  have hzero : #v[m0, m1, m2, m3, m4, m5] = Vector.replicate 6 0 ↔
      m0 ||| m1 ||| m2 ||| m3 ||| m4 ||| m5 = 0 := by
    rw [← Vector.toList_inj]
    simp [UInt8.or_eq_zero_iff, and_assoc, List.replicate]
  rw [UnicastMac, ne_eq, hzero]
  rfl

section Inner

variable {data : List UInt8} {ip ether remaining : Nat} {remote localAddr : InAddr}

/-- The parser reads the addresses of the datagram last. -/
structure ReadsAddresses (data : List UInt8) (ip : Nat) (source destination : Vector UInt8 4) :
    Prop where
  source : ∀ k (hk : k < 4), read8 data (ip + 12 + k) = .ok source[k]
  destination : ∀ k (hk : k < 4), read8 data (ip + 16 + k) = .ok destination[k]

def addressOf (bytes : Vector UInt8 4) : InAddr :=
  InAddr.ofBytes (bytes.get 0) (bytes.get 1) (bytes.get 2) (bytes.get 3)

theorem parseInner_short (hlt : remaining < 18) (hremaining : remaining ≤ (data.drop ether).length)
    {P : PayloadPacket → Prop} (hno : ∀ p, ¬ P p) :
    Decides (parseInner data ip ether remaining) P := by
  refine .guard (fun _ => hno) fun h14 => ?_
  obtain ⟨_, _, _, _, l, hl, h10⟩ := exists_four (l := data.drop ether) (n := 10) (by omega)
  obtain ⟨_, _, _, _, l', rfl, h6⟩ := exists_four (n := 6) h10
  obtain ⟨_, _, _, _, l'', rfl, h2⟩ := exists_four (n := 2) h6
  obtain ⟨_, _, _, rfl, -⟩ := exists_two (n := 0) h2
  refine .bind (read16_of_drop (by rw [hl]; rfl) (by rw [hl]; rfl)) ?_
  exact .guard (fun _ => hno) fun h18 => by simp [hlt] at h18

theorem parseInner_decides {source destination : Vector UInt8 4}
    (haddr : ReadsAddresses data ip source destination)
    (hremaining : remaining ≤ (data.drop ether).length) :
    Decides (parseInner data ip ether remaining) fun p =>
      ∃ f : InnerFrame, f.encode = (data.drop ether).take remaining ∧
        p = f.packet (addressOf source) (addressOf destination) := by
  rcases Nat.lt_or_ge remaining 18 with hshort | hlong
  · refine parseInner_short hshort hremaining ?_
    rintro p ⟨f, hf, -⟩
    have hlength := congrArg List.length hf
    rw [f.length_encode, List.length_take] at hlength
    omega
  obtain ⟨d0, d1, d2, d3, l, hl, h14⟩ := exists_four (l := data.drop ether) (n := 14) (by omega)
  obtain ⟨d4, d5, m0, m1, l, rfl, h10⟩ := exists_four (n := 10) h14
  obtain ⟨m2, m3, m4, m5, l, rfl, h6⟩ := exists_four (n := 6) h10
  obtain ⟨t0, t1, c0, c1, l, rfl, h2⟩ := exists_four (n := 2) h6
  obtain ⟨i0, i1, l, rfl, -⟩ := exists_two (n := 0) h2
  have htake : (data.drop ether).take remaining = d0 :: d1 :: d2 :: d3 :: d4 :: d5 :: m0 :: m1 ::
      m2 :: m3 :: m4 :: m5 :: t0 :: t1 :: c0 :: c1 :: i0 :: i1 :: l.take (remaining - 18) := by
    obtain ⟨n, rfl⟩ : ∃ n, remaining = n + 18 := ⟨remaining - 18, by omega⟩
    rw [hl]
    rfl
  simp only [htake, InnerFrame.encode_eq_iff]
  refine .guard (fun h => absurd h (by omega)) fun _ => ?_
  refine .bind (read16_of_drop (by rw [hl]; rfl) (by rw [hl]; rfl)) ?_
  refine .guard ?_ fun htype => ?_
  · rintro htype p ⟨f, ⟨-, -, hf, -⟩, -⟩
    simp [← hf] at htype
    omega
  refine .bind (read16_of_drop (by rw [hl]; rfl) (by rw [hl]; rfl)) ?_
  refine .guard ?_ fun huntagged => ?_
  · rintro htag p ⟨f, ⟨-, -, -, -, hf, -⟩, -⟩
    rw [← hf, f.type_untagged] at htag
    cases htag
  refine .bind (read16_of_drop (by rw [hl]; rfl) (by rw [hl]; rfl)) ?_
  refine .guard ?_ fun hvlan => ?_
  · rintro hvlan p ⟨f, ⟨-, -, -, hf, -⟩, -⟩
    rw [← hf, ← f.vlan_eq_tci] at hvlan
    exact vlanCheck_iff.mp f.vlan_valid hvlan
  refine .bind (read8_of_drop (by rw [hl]; rfl)) ?_
  refine .guard ?_ fun hgroup => ?_
  · rintro hgroup p ⟨f, ⟨-, hf, -⟩, -⟩
    have hmac := f.mac_unicast
    rw [hf, unicastMac_iff] at hmac
    simp [hmac.1] at hgroup
  refine .bind (read8_of_drop (by rw [hl]; rfl)) ?_
  refine .bind (read8_of_drop (by rw [hl]; rfl)) ?_
  refine .bind (read8_of_drop (by rw [hl]; rfl)) ?_
  refine .bind (read8_of_drop (by rw [hl]; rfl)) ?_
  refine .bind (read8_of_drop (by rw [hl]; rfl)) ?_
  refine .guard ?_ fun hzero => ?_
  · rintro hzero p ⟨f, ⟨-, hf, -⟩, -⟩
    have hmac := f.mac_unicast
    rw [hf, unicastMac_iff] at hmac
    exact hmac.2 (by simpa using hzero)
  refine .bind (haddr.source 0 (by decide)) ?_
  refine .bind (haddr.source 1 (by decide)) ?_
  refine .bind (haddr.source 2 (by decide)) ?_
  refine .bind (haddr.source 3 (by decide)) ?_
  refine .bind (haddr.destination 0 (by decide)) ?_
  refine .bind (haddr.destination 1 (by decide)) ?_
  refine .bind (haddr.destination 2 (by decide)) ?_
  refine .bind (haddr.destination 3 (by decide)) ?_
  refine .accept fun p => ⟨?_, ?_⟩
  · rintro ⟨f, ⟨-, hmac, -, htci, -⟩, rfl⟩
    rw [InnerFrame.packet, hmac, f.vlan_eq_tci, htci]
    rfl
  · rintro rfl
    simp only [bne_iff_ne, ne_eq, not_not, Bool.or_eq_true, decide_eq_true_eq, not_or] at htype
    simp only [bne_iff_ne, ne_eq, not_not, beq_iff_eq] at hgroup hzero
    refine ⟨.ofTci #v[d0, d1, d2, d3, d4, d5] #v[m0, m1, m2, m3, m4, m5] (word c0 c1) (word i0 i1)
      (l.take (remaining - 18)) (unicastMac_iff.mpr ⟨hgroup, hzero⟩) (vlanCheck_iff.mpr hvlan)
      (by simpa using huntagged), ⟨rfl, rfl, htype.1.symm, ?_, rfl, rfl⟩, rfl⟩
    exact InnerFrame.tci_ofTci _ _ _

end Inner

-- ---------------------------------------------------------------------------
-- The datagram
-- ---------------------------------------------------------------------------

theorem toNat_version (v : UInt8) :
    (v >>> 4).toNat = v.toNat / 16 ∧ (v &&& (15 : UInt8)).toNat = v.toNat % 16 := by
  refine ⟨?_, Nat.and_two_pow_sub_one_eq_mod v.toNat 4⟩
  rw [UInt8.toNat_shiftRight]
  exact Nat.shiftRight_eq_div_pow v.toNat 4

theorem version_iff {v : UInt8} {n : Nat} (hn : n < 16) :
    v = UInt8.ofNat (0x40 + n) ↔ v >>> 4 = 4 ∧ (v &&& (15 : UInt8)).toNat = n := by
  obtain ⟨hhigh, hlow⟩ := toNat_version v
  have hsize : (UInt8.ofNat (0x40 + n)).toNat = 0x40 + n :=
    UInt8.toNat_ofNat_of_lt' (by rw [UInt8.size]; omega)
  rw [← UInt8.toNat_inj, ← UInt8.toNat_inj, hsize, hhigh, hlow]
  change _ ↔ v.toNat / 16 = 4 ∧ _
  omega

/-- All bits of the fragment field but DF are clear. -/
theorem fragment_iff {x : UInt16} : x &&& (0xbfff : UInt16) = 0 ↔ x = 0x4000 ∨ x = 0 := by
  constructor
  · intro h
    have hx : x.toNat < 65536 := x.toNat_lt
    have hand : x.toNat &&& 0xbfff = 0 := congrArg UInt16.toNat h
    have hlow : x.toNat % 2 ^ 14 = 0 := by
      rw [← Nat.and_two_pow_sub_one_eq_mod]
      calc x.toNat &&& 2 ^ 14 - 1 = (x.toNat &&& 0xbfff) &&& 2 ^ 14 - 1 := by rw [Nat.and_assoc]; rfl
        _ = 0 := by rw [hand, Nat.zero_and]
    have hhigh : x.toNat / 2 ^ 15 % 2 = 0 := by
      rw [← Nat.shiftRight_eq_div_pow, ← Nat.and_one_is_mod]
      calc x.toNat >>> 15 &&& 1 = (x.toNat &&& 0xbfff) >>> 15 := by
            rw [Nat.shiftRight_and_distrib]; rfl
        _ = 0 := by rw [hand]; rfl
    rw [← UInt16.toNat_inj, ← UInt16.toNat_inj]
    change x.toNat = 16384 ∨ x.toNat = 0
    omega
  · rintro (rfl | rfl) <;> decide


/-- What the parser returns for a datagram. -/
def Datagram.packet (d : Datagram) : PayloadPacket :=
  d.inner.packet (addressOf d.source) (addressOf d.destination)

section Datagram

variable {data : List UInt8} {ip : Nat}
  {v tos l0 l1 i0 i1 f0 f1 ttl protocol c0 c1 s0 s1 s2 s3 d0 d1 d2 d3 : UInt8}
  {rest : List UInt8}

theorem readsAddresses_of_drop
    (hl : data.drop ip = v :: tos :: l0 :: l1 :: i0 :: i1 :: f0 :: f1 :: ttl :: protocol ::
      c0 :: c1 :: s0 :: s1 :: s2 :: s3 :: d0 :: d1 :: d2 :: d3 :: rest) :
    ReadsAddresses data ip #v[s0, s1, s2, s3] #v[d0, d1, d2, d3] where
  source k hk := by
    rw [Nat.add_assoc]
    refine read8_of_drop ?_
    rw [hl]
    interval_cases k <;> rfl
  destination k hk := by
    rw [Nat.add_assoc]
    refine read8_of_drop ?_
    rw [hl]
    interval_cases k <;> rfl

/-- Behind the fixed header: the options, the GRE header, the inner frame. -/
theorem Datagram.rest_eq_iff {d : Datagram} {trailing : List UInt8} {n : Nat} (hn : d.ihl = n)
    {options g : List UInt8} (hoptions : options.length = 4 * (n - 5)) :
    d.options.flatMap Vector.toList ++ d.gre ++ trailing = options ++ g ↔
      d.options.flatMap Vector.toList = options ∧ d.gre ++ trailing = g := by
  have hlength : (d.options.flatMap Vector.toList).length = options.length := by
    rw [hoptions, ← hn, ihl]
    simp [List.length_flatMap, Nat.mul_comm]
  rw [List.append_assoc]
  exact ⟨fun h => List.append_inj h hlength, fun h => by rw [h.1, h.2]⟩

theorem Datagram.gre_eq_iff {d : Datagram} {trailing : List UInt8} {g0 g1 p0 p1 : UInt8}
    {g : List UInt8} :
    d.gre ++ trailing = g0 :: g1 :: p0 :: p1 :: g ↔
      0 = word g0 g1 ∧ 0x6558 = word p0 p1 ∧ d.inner.encode ++ trailing = g := by
  simp only [gre, List.append_assoc, be16_append_eq_iff]

theorem Datagram.toNat_total {d : Datagram} : (UInt16.ofNat d.total).toNat = d.total :=
  UInt16.toNat_ofNat_of_lt' d.total_lt

/-- The lengths a datagram announces in its header. -/
theorem Datagram.lengths {d : Datagram} {trailing : List UInt8}
    (hd : d.encode ++ trailing = v :: tos :: l0 :: l1 :: i0 :: i1 :: f0 :: f1 :: ttl :: protocol ::
      c0 :: c1 :: s0 :: s1 :: s2 :: s3 :: d0 :: d1 :: d2 :: d3 :: rest) :
    v >>> 4 = 4 ∧ (v &&& (15 : UInt8)).toNat = d.ihl ∧ (word l0 l1).toNat = d.total ∧
      d.total ≤ rest.length + 20 := by
  obtain ⟨hv, -, htotal, -⟩ := encode_append_eq_iff.mp hd
  have hihl : d.ihl < 16 := by have := d.options_le; rw [ihl]; omega
  obtain ⟨hversion, hn⟩ := (version_iff hihl).mp hv
  refine ⟨hversion, hn, by rw [← htotal, toNat_total], ?_⟩
  have hlength := congrArg List.length hd
  simp only [List.length_append, d.length_encode, List.length_cons] at hlength
  omega

/-- Bytes that pass the tests of the IPv4 and GRE headers are a datagram as soon
    as what follows is an inner frame. -/
theorem datagram_iff {n : Nat} (hn : 5 ≤ n ∧ n < 16) (hv : v = UInt8.ofNat (0x40 + n))
    (hprotocol : protocol = 47) (hfragment : word f0 f1 = 0x4000 ∨ word f0 f1 = 0)
    {options g : List UInt8} (hoptions : options.length = 4 * (n - 5))
    (htotal : 4 * n + 4 ≤ (word l0 l1).toNat) (hg : (word l0 l1).toNat ≤ 4 * n + 4 + g.length)
    {p : PayloadPacket} :
    (∃ (d : Datagram) (trailing : List UInt8), d.encode ++ trailing =
        v :: tos :: l0 :: l1 :: i0 :: i1 :: f0 :: f1 :: ttl :: protocol :: c0 :: c1 ::
          s0 :: s1 :: s2 :: s3 :: d0 :: d1 :: d2 :: d3 ::
          (options ++ (be16 0 ++ be16 0x6558 ++ g)) ∧ p = d.packet) ↔
      ∃ f : InnerFrame, f.encode = g.take ((word l0 l1).toNat - (4 * n + 4)) ∧
        p = f.packet (addressOf #v[s0, s1, s2, s3]) (addressOf #v[d0, d1, d2, d3]) := by
  constructor
  · rintro ⟨d, trailing, hd, rfl⟩
    obtain ⟨-, hihl, hlength, -⟩ := d.lengths hd
    have hn' : d.ihl = n := by rw [← hihl, ((version_iff hn.2).mp hv).2]
    obtain ⟨-, -, -, -, -, -, -, -, hsource, hdestination, hrest⟩ := Datagram.encode_append_eq_iff.mp hd
    obtain ⟨-, hgre⟩ := (Datagram.rest_eq_iff hn' hoptions).mp hrest
    simp only [Datagram.gre, List.append_assoc, List.append_cancel_left_eq] at hgre
    refine ⟨d.inner, ?_, by rw [Datagram.packet, hsource, hdestination]⟩
    rw [hlength, Datagram.total, hn', Nat.add_sub_cancel_left, ← hgre, List.take_left]
  · rintro ⟨f, hf, rfl⟩
    obtain ⟨words, hwords, hflat⟩ := exists_words hoptions
    have hlength := congrArg List.length hf
    rw [List.length_take] at hlength
    have hword : (word l0 l1).toNat < 65536 := (word l0 l1).toNat_lt
    have hfits : 24 + 4 * words.length + f.encode.length < 65536 := by omega
    refine ⟨⟨tos, word i0 i1, word f0 f1 = 0x4000, ttl, word c0 c1, #v[s0, s1, s2, s3],
      #v[d0, d1, d2, d3], words, f, by omega, hfits⟩, g.drop f.encode.length,
      Datagram.encode_append_eq_iff.mpr ⟨?_, rfl, ?_, rfl, ?_, rfl, hprotocol, rfl, rfl, rfl, ?_⟩, rfl⟩
    · rw [hv, Datagram.ihl]
      simp only [hwords]
      congr 2
      omega
    · rw [← UInt16.toNat_inj, Datagram.toNat_total, Datagram.total, Datagram.ihl]
      simp only
      omega
    · rcases hfragment with h | h <;> rw [h] <;> rfl
    · simp only [hflat, Datagram.gre, List.append_assoc]
      rw [hlength, Nat.min_eq_left (by omega), hf, List.take_append_drop]

theorem payloadParse_datagram {type : UInt16} (hlength : 14 ≤ data.length)
    (htype : read16 data 12 = .ok type)
    (htags : outerTags data 2 type 14 = .ok (some (0x0800, ip))) (hip : ip ≤ data.length) :
    Decides (payloadParse data) fun p =>
      ∃ (d : Datagram) (trailing : List UInt8), d.encode ++ trailing = data.drop ip ∧
        p = d.packet := by
  have hremaining : (data.drop ip).length = data.length - ip := List.length_drop
  refine .guard (fun h => absurd h (by omega)) fun _ => ?_
  refine .bind htype ?_
  refine .bind htags ?_
  refine .guard (fun h => by cases h) fun _ => ?_
  refine .bind (sizeSub_eq hip) ?_
  refine .guard ?_ fun h20 => ?_
  · rintro hshort p ⟨d, trailing, hd, -⟩
    have hd' := congrArg List.length hd
    rw [List.length_append, d.length_encode, hremaining, Datagram.total, Datagram.ihl] at hd'
    omega
  obtain ⟨v, tos, l0, l1, l, hl, h16⟩ := exists_four (l := data.drop ip) (n := 16) (by omega)
  obtain ⟨i0, i1, f0, f1, l, rfl, h12⟩ := exists_four (n := 12) h16
  obtain ⟨ttl, protocol, c0, c1, l, rfl, h8⟩ := exists_four (n := 8) h12
  obtain ⟨s0, s1, s2, s3, l, rfl, h4⟩ := exists_four (n := 4) h8
  obtain ⟨d0, d1, d2, d3, l, rfl, -⟩ := exists_four (n := 0) h4
  have hl' : l.length + 20 = data.length - ip := by rw [← hremaining, hl]; rfl
  refine .bind (read8_of_drop (k := 0) (by rw [hl]; rfl)) ?_
  refine .bind (read16_of_drop (by rw [hl]; rfl) (by rw [hl]; rfl)) ?_
  refine .guard ?_ fun hheader => ?_
  · rintro hheader p ⟨d, trailing, hd, -⟩
    obtain ⟨hversion, hihl, htotal, -⟩ := d.lengths (hd.trans hl)
    simp only [hversion, hihl, htotal, Datagram.total, Datagram.ihl] at hheader
    simp at hheader
    omega
  simp only [Bool.or_eq_true, bne_iff_ne, ne_eq, decide_eq_true_eq, not_or, not_not, not_lt]
    at hheader
  obtain ⟨⟨hversion, hihl⟩, htotal⟩ := hheader
  have hn : (v &&& (15 : UInt8)).toNat < 16 := by rw [(toNat_version v).2]; omega
  generalize hn' : (v &&& (15 : UInt8)).toNat = n at *
  refine .bind (sizeSub_eq hip) ?_
  refine .guard ?_ fun hfit => ?_
  · rintro hfit p ⟨d, trailing, hd, -⟩
    obtain ⟨-, -, htotal', hle⟩ := d.lengths (hd.trans hl)
    omega
  refine .bind (read8_of_drop (by rw [hl]; rfl)) ?_
  refine .guard ?_ fun hprotocol => ?_
  · rintro hprotocol p ⟨d, trailing, hd, -⟩
    obtain ⟨-, -, -, -, -, -, h47, -⟩ := Datagram.encode_append_eq_iff.mp (hd.trans hl)
    simp [h47] at hprotocol
  refine .bind (read16_of_drop (by rw [hl]; rfl) (by rw [hl]; rfl)) ?_
  refine .guard ?_ fun hfragment => ?_
  · rintro hfragment p ⟨d, trailing, hd, -⟩
    obtain ⟨-, -, -, -, hdf, -⟩ := Datagram.encode_append_eq_iff.mp (hd.trans hl)
    rw [← hdf] at hfragment
    cases hd : d.dontFragment <;> rw [hd] at hfragment <;> cases hfragment
  -- the options end where the GRE header starts
  obtain ⟨m, rfl⟩ : ∃ m, n = m + 5 := ⟨n - 5, by omega⟩
  obtain ⟨options, g, hsplit, hoptions⟩ : ∃ options g, l = options ++ g ∧ options.length = 4 * m :=
    ⟨l.take (4 * m), l.drop (4 * m), (List.take_append_drop _ _).symm, by
      rw [List.length_take]; omega⟩
  subst hsplit
  rw [List.length_append] at hl'
  obtain ⟨g0, g1, p0, p1, g, rfl, -⟩ := exists_four (l := g) (n := 0) (by omega)
  have hgre : data.drop (ip + (m + 5) * 4) = g0 :: g1 :: p0 :: p1 :: g := by
    have hskip : (m + 5) * 4 = options.length + 20 := by omega
    rw [← List.drop_drop, hl, hskip]
    exact List.drop_left
  have hether : data.drop (ip + (m + 5) * 4 + 4) = g := by rw [← List.drop_drop, hgre]; rfl
  have hfields : ∀ d trailing, Datagram.encode d ++ trailing = data.drop ip →
      0 = word g0 g1 ∧ 0x6558 = word p0 p1 := by
    intro d trailing hd
    obtain ⟨-, hihl', -, -⟩ := d.lengths (hd.trans hl)
    obtain ⟨-, -, -, -, -, -, -, -, -, -, hrest⟩ :=
      Datagram.encode_append_eq_iff.mp (hd.trans hl)
    obtain ⟨-, hg⟩ := (Datagram.rest_eq_iff (hihl'.symm.trans hn') hoptions).mp hrest
    obtain ⟨hflags, hteb, -⟩ := Datagram.gre_eq_iff.mp hg
    exact ⟨hflags, hteb⟩
  refine .bind (read16_of_drop (i := ip + (m + 5) * 4) (k := 0) (by rw [hgre]; rfl)
    (by rw [hgre]; rfl)) ?_
  refine .guard ?_ fun hflags => ?_
  · rintro hflags p ⟨d, trailing, hd, -⟩
    simp [← (hfields d trailing hd).1] at hflags
  refine .bind (read16_of_drop (i := ip + (m + 5) * 4) (by rw [hgre]; rfl)
    (by rw [hgre]; rfl)) ?_
  refine .guard ?_ fun hteb => ?_
  · rintro hteb p ⟨d, trailing, hd, -⟩
    simp [← (hfields d trailing hd).2] at hteb
  refine .bind (sizeSub_eq htotal) ?_
  simp only [bne_iff_ne, ne_eq, not_not] at hprotocol hfragment hflags hteb
  refine (parseInner_decides (readsAddresses_of_drop hl)
    (by rw [hether]; simp at hl'; omega)).congr fun p => ?_
  have hbytes : g0 :: g1 :: p0 :: p1 :: g = be16 0 ++ be16 0x6558 ++ g := by
    rw [← hflags, ← hteb, be16_word, be16_word]
    rfl
  rw [hether, hl, hbytes, datagram_iff ⟨by omega, hn⟩ ((version_iff hn).mpr ⟨hversion, hn'⟩)
    hprotocol (fragment_iff.mp hfragment) hoptions (by omega) (by simp at hl'; omega),
    Nat.mul_comm 4 (m + 5)]

end Datagram

-- ---------------------------------------------------------------------------
-- The outer frame
-- ---------------------------------------------------------------------------

/-- From a type field at `offset - 2` on, `tags` precede the type `t` and the
    position `o` behind it. -/
structure TagChain (data : List UInt8) (type : UInt16) (offset : Nat) (tags : List OuterTag)
    (t : UInt16) (o : Nat) : Prop where
  untagged : isTag t = false
  position : o = offset + 4 * tags.length
  inside : o ≤ data.length
  bytes : be16 type ++ data.drop offset = tags.flatMap OuterTag.encode ++ (be16 t ++ data.drop o)

section Tags

variable {data : List UInt8} {type t : UInt16} {offset o : Nat} {tags : List OuterTag}

theorem TagChain.nil_iff (hoffset : offset ≤ data.length) :
    TagChain data type offset [] t o ↔ isTag t = false ∧ t = type ∧ o = offset := by
  constructor
  · intro h
    exact ⟨h.untagged, (be16_append_inj.mp h.bytes).1.symm, h.position⟩
  · rintro ⟨huntagged, rfl, rfl⟩
    exact ⟨huntagged, rfl, hoffset, rfl⟩

theorem TagChain.cons_iff {tag : OuterTag} {a b c d : UInt8} {l : List UInt8}
    (hl : data.drop offset = a :: b :: c :: d :: l) :
    TagChain data type offset (tag :: tags) t o ↔
      type = tag.tpid ∧ tag.tci = word a b ∧ TagChain data (word c d) (offset + 4) tags t o := by
  have hdrop : data.drop (offset + 4) = l := by rw [← List.drop_drop, hl]; rfl
  have hbytes : be16 type ++ data.drop offset =
        (tag :: tags).flatMap OuterTag.encode ++ (be16 t ++ data.drop o) ↔
      type = tag.tpid ∧ tag.tci = word a b ∧
        be16 (word c d) ++ data.drop (offset + 4) =
          tags.flatMap OuterTag.encode ++ (be16 t ++ data.drop o) := by
    rw [hl, hdrop, be16_word, List.flatMap_cons, OuterTag.encode, List.append_assoc,
      List.append_assoc, be16_append_inj, eq_comm (a := a :: b :: c :: d :: l), be16_append_eq_iff,
      eq_comm (b := c :: d :: l)]
    rfl
  constructor
  · rintro ⟨huntagged, hposition, hinside, h⟩
    obtain ⟨htpid, htci, h'⟩ := hbytes.mp h
    exact ⟨htpid, htci, huntagged, by rw [hposition, List.length_cons]; omega, hinside, h'⟩
  · rintro ⟨htpid, htci, huntagged, hposition, hinside, h'⟩
    exact ⟨huntagged, by rw [hposition, List.length_cons]; omega, hinside,
      hbytes.mpr ⟨htpid, htci, h'⟩⟩

/-- Each tag takes four bytes, and the type behind the last one is there too. -/
theorem TagChain.length_le (h : TagChain data type offset tags t o)
    (hoffset : offset ≤ data.length) : 4 * tags.length ≤ data.length - offset := by
  have hposition := h.position
  have hinside := h.inside
  omega

theorem TagChain.type_eq {tag : OuterTag} (h : TagChain data type offset (tag :: tags) t o) :
    type = tag.tpid := by
  have hbytes := h.bytes
  rw [List.flatMap_cons, OuterTag.encode, List.append_assoc, List.append_assoc,
    be16_append_inj] at hbytes
  exact hbytes.1

theorem TagChain.untagged_iff (hoffset : offset ≤ data.length) (htype : isTag type = false) :
    TagChain data type offset tags t o ↔ tags = [] ∧ t = type ∧ o = offset := by
  cases tags with
  | nil =>
    rw [TagChain.nil_iff hoffset]
    constructor
    · rintro ⟨-, h⟩
      exact ⟨rfl, h⟩
    · rintro ⟨-, rfl, rfl⟩
      exact ⟨htype, rfl, rfl⟩
  | cons tag tags =>
    refine iff_of_false (fun h => ?_) fun h => List.cons_ne_nil _ _ h.1
    rw [h.type_eq, tag.tpid_tag] at htype
    cases htype

theorem outerTags_untagged (hoffset : offset ≤ data.length) (htype : isTag type = false)
    {left : Nat} :
    Decides (.ok (some (type, offset)) : Except Fault (Option (UInt16 × Nat))) fun r =>
      ∃ tags, tags.length ≤ left ∧ TagChain data type offset tags r.1 r.2 := by
  refine .accept fun r => ?_
  simp only [TagChain.untagged_iff hoffset htype, Prod.ext_iff]
  constructor
  · rintro ⟨tags, -, -, h⟩
    exact h
  · intro h
    exact ⟨[], Nat.zero_le _, rfl, h⟩

/-- A tag that may not come anymore rejects the frame. -/
theorem TagChain.nil_tagged (hoffset : offset ≤ data.length) (htype : isTag type = true) :
    ¬ TagChain data type offset [] t o := by
  rw [TagChain.nil_iff hoffset]
  rintro ⟨huntagged, rfl, -⟩
  rw [htype] at huntagged
  cases huntagged

variable (type) in
theorem outerTags_decides (left : Nat) (hoffset : offset ≤ data.length) :
    Decides (outerTags data left type offset) fun r =>
      ∃ tags, tags.length ≤ left ∧ TagChain data type offset tags r.1 r.2 := by
  -- one tag is read for each tag that may still come
  induction left generalizing type offset with
  | zero =>
    rw [outerTags]
    split
    · next htag =>
      refine .reject ?_
      rintro r ⟨tags, hlength, hchain⟩
      rw [List.length_eq_zero_iff.mp (Nat.le_zero.mp hlength)] at hchain
      exact TagChain.nil_tagged hoffset htag hchain
    · next htag =>
      exact outerTags_untagged hoffset (by simpa using htag)
  | succ left ih =>
    rw [outerTags]
    split
    · next htag =>
      refine .bind (sizeSub_eq hoffset) ?_
      refine .guard ?_ fun hroom => ?_
      · rintro hroom r ⟨tags, -, hchain⟩
        cases tags with
        | nil => exact TagChain.nil_tagged hoffset htag hchain
        | cons tag tags =>
          have hlength := hchain.length_le hoffset
          rw [List.length_cons] at hlength
          omega
      · obtain ⟨a, b, c, d, l, hl, -⟩ := exists_four (l := data.drop offset) (n := 0)
          (by rw [List.length_drop]; omega)
        refine .bind (read16_of_drop (by rw [hl]; rfl) (by rw [hl]; rfl)) ?_
        refine (ih _ (by omega)).congr fun r => ⟨?_, ?_⟩
        · rintro ⟨tags, hlength, hchain⟩
          exact ⟨⟨type, word a b, htag⟩ :: tags, Nat.succ_le_succ hlength,
            (TagChain.cons_iff hl).mpr ⟨rfl, rfl, hchain⟩⟩
        · rintro ⟨tags, hlength, hchain⟩
          cases tags with
          | nil => exact absurd hchain (TagChain.nil_tagged hoffset htag)
          | cons tag tags =>
            exact ⟨tags, Nat.le_of_succ_le_succ hlength, ((TagChain.cons_iff hl).mp hchain).2.2⟩
    · next htag =>
      exact outerTags_untagged hoffset (by simpa using htag)

end Tags

theorem Frame.length_encode_ge (f : Frame) : 14 ≤ f.encode.length := by
  simp only [Frame.encode, List.length_append, Vector.length_toList, length_be16]
  omega

section Frame

variable {data l : List UInt8} {addresses : Vector UInt8 12} {t0 t1 : UInt8}

theorem drop_addresses (hdata : data = addresses.toList ++ t0 :: t1 :: l) (k : Nat) :
    data.drop (12 + k) = (t0 :: t1 :: l).drop k := by
  rw [hdata, ← List.drop_drop]
  congr 1
  exact List.drop_left' addresses.length_toList

/-- A frame is its tags and a datagram behind them. -/
theorem frame_iff (hdata : data = addresses.toList ++ t0 :: t1 :: l) {p : PayloadPacket} :
    (∃ f : Frame, f.encode = data ∧ p = f.packet) ↔
      ∃ o, (∃ tags, tags.length ≤ 2 ∧ TagChain data (word t0 t1) 14 tags 0x0800 o) ∧
        ∃ (d : Datagram) (trailing : List UInt8), d.encode ++ trailing = data.drop o ∧
          p = d.packet := by
  have htail : be16 (word t0 t1) ++ data.drop 14 = t0 :: t1 :: l := by
    rw [be16_word, drop_addresses hdata 2]
    rfl
  constructor
  · rintro ⟨f, hf, rfl⟩
    have hbytes : addresses.toList ++ t0 :: t1 :: l = f.addresses.toList ++
        (f.tags.flatMap OuterTag.encode ++ (be16 0x0800 ++ (f.datagram.encode ++ f.trailing))) := by
      rw [← hdata, ← hf]
      simp only [Frame.encode, List.append_assoc]
    obtain ⟨-, hbytes⟩ := toList_append_eq_iff.mp hbytes
    have hlength : (f.tags.flatMap OuterTag.encode ++ be16 0x0800).length =
        4 * f.tags.length + 2 := by
      simp [List.length_flatMap, OuterTag.encode, Nat.mul_comm]
    have hrest : data.drop (14 + 4 * f.tags.length) = f.datagram.encode ++ f.trailing := by
      have hskip : 14 + 4 * f.tags.length = 12 + (4 * f.tags.length + 2) := by omega
      rw [hskip, drop_addresses hdata, hbytes, ← List.append_assoc]
      exact List.drop_left' hlength
    have hinside : 14 + 4 * f.tags.length ≤ data.length := by
      rw [← hf]
      simp [Frame.encode, List.length_flatMap, OuterTag.encode, Nat.mul_comm]
      omega
    refine ⟨_, ⟨f.tags, f.tags_le, by decide, rfl, hinside, ?_⟩, f.datagram, f.trailing,
      hrest.symm, rfl⟩
    rw [htail, hrest, hbytes]
  · rintro ⟨o, ⟨tags, htags, hchain⟩, d, trailing, hd, rfl⟩
    refine ⟨⟨addresses, tags, d, trailing, htags⟩, ?_, rfl⟩
    rw [hdata, ← htail, hchain.bytes, ← hd]
    simp only [Frame.encode, List.append_assoc]

end Frame

/-- The parser runs on every byte string without a fault, and returns what the
    frame says exactly on the frames of the format. -/
theorem payloadParse_decides (data : List UInt8) :
    Decides (payloadParse data) fun p => ∃ f : Frame, f.encode = data ∧ p = f.packet := by
  rcases Nat.lt_or_ge data.length 14 with hshort | hlong
  · refine .guard ?_ fun h => absurd hshort h
    rintro - p ⟨f, rfl, -⟩
    exact absurd f.length_encode_ge (by omega)
  obtain ⟨addresses, l, hdata, h2⟩ := exists_vector (n := 2) (k := 12) hlong
  obtain ⟨t0, t1, l, rfl, -⟩ := exists_two (n := 0) h2
  have htype : read16 data 12 = .ok (word t0 t1) := by
    have h12 := drop_addresses hdata 0
    exact read16_of_drop (i := 12) (k := 0) (by rw [h12]; rfl) (by rw [h12]; rfl)
  obtain ⟨r, htags, hr⟩ := outerTags_decides (word t0 t1) 2 hlong
  simp only [frame_iff hdata]
  cases r with
  | none =>
    refine .guard (fun h => absurd h (by omega)) fun _ => ?_
    refine .bind htype (.bind htags (.reject ?_))
    rintro p ⟨o, hchain, -⟩
    cases (hr (0x0800, o)).mpr hchain
  | some r =>
    obtain ⟨t, o⟩ := r
    by_cases ht : t = 0x0800
    · obtain ⟨tags, -, hchain⟩ := (hr (t, o)).mp rfl
      subst ht
      refine (payloadParse_datagram hlong htype htags hchain.inside).congr fun p => ?_
      constructor
      · intro h
        exact ⟨o, (hr (0x0800, o)).mp rfl, h⟩
      · rintro ⟨o', hchain', h⟩
        cases (hr (0x0800, o')).mpr hchain'
        exact h
    · refine .guard (fun h => absurd h (by omega)) fun _ => ?_
      refine .bind htype (.bind htags (.guard ?_ fun h => absurd h (by simpa using ht)))
      rintro - p ⟨o', hchain', -⟩
      cases (hr (0x0800, o')).mpr hchain'
      exact ht rfl

/-- `payload_parse` with its result and what `out` holds afterwards. -/
def payloadParseInto (data : List UInt8) (out : PayloadPacket) :
    Except Fault (Bool × PayloadPacket) := do
  match ← payloadParse data with
  | some packet => return (true, packet)
  | none => return (false, out)

/-- The parser accepts exactly the frames of the format. It then returns what the
    frame says; otherwise it leaves `out` alone. -/
theorem payloadParse_exact (data : List UInt8) (out : PayloadPacket) :
    ∃ accepted out', payloadParseInto data out = .ok (accepted, out') ∧
      (accepted = true ↔ ∃ f : Frame, f.encode = data) ∧
      (∀ f : Frame, f.encode = data → out' = f.packet) ∧ (accepted = false → out' = out) := by
  obtain ⟨r, hparse, hr⟩ := payloadParse_decides data
  cases r with
  | none =>
    have hno : ∀ f : Frame, f.encode ≠ data := fun f hf => by
      cases (hr f.packet).mpr ⟨f, hf, rfl⟩
    refine ⟨false, out, by rw [payloadParseInto, hparse]; rfl, ?_, ?_, fun _ => rfl⟩
    · exact iff_of_false Bool.false_ne_true fun ⟨f, hf⟩ => hno f hf
    · exact fun f hf => absurd hf (hno f)
  | some p =>
    obtain ⟨f, hf, hp⟩ := (hr p).mp rfl
    refine ⟨true, p, by rw [payloadParseInto, hparse]; rfl, ?_, ?_, ?_⟩
    · exact iff_of_true rfl ⟨f, hf⟩
    · intro f' hf'
      exact Option.some.inj ((hr f'.packet).mpr ⟨f', hf', rfl⟩)
    · exact fun h => absurd h (by decide)

end Softgre
