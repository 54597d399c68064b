-- SUMMARY: The capture path: what the filter and the receive buffer leave of a frame, and when that is enough.
import Softgre.Payload.Filter

/-!
# The capture path

The frame is the one the packet socket has, before its filter runs: the kernel has
by then taken the outermost VLAN tag off, so a frame with one tag on the link
arrives here without tags. The value the filter returns is the number of bytes the
kernel keeps of this frame, counted from the link header. The parser compares the
total length of the IPv4 datagram with what is left behind the link header. The two
limits differ by the link header, so the longest datagrams arrive cut short.
-/

namespace Softgre

open Base Base.Bpf

/-- `sizeof(buffer)` of `payload_receive`. -/
def bufferSize : Nat := 65536

/-- What `recvfrom` puts into the buffer for a frame of the packet socket. -/
def capture (short : ShortLoad) (frame : List UInt8) : Option (List UInt8) :=
  match run short code frame code.length 0 0 with
  | some halt =>
    if halt.value = 0 then none else some ((frame.take halt.value.toNat).take bufferSize)
  | none => none

/-- The number of outer tags the frame still has. -/
def tagDepth (frame : List UInt8) : Nat :=
  if (etherType frame 0).any isTag then
    if (etherType frame 1).any isTag then 2 else 1
  else 0

/-- The offset behind the IPv4 datagram: the link header and the total length. -/
def datagramEnd (frame : List UInt8) : Nat :=
  let ip := 14 + 4 * tagDepth frame
  ip + (word (frame.getD (ip + 2) 0) (frame.getD (ip + 3) 0)).toNat

-- ---------------------------------------------------------------------------
-- The snapshot
-- ---------------------------------------------------------------------------

theorem capture_of_carriesGre (short : ShortLoad) {frame : List UInt8} (h : CarriesGre frame) :
    capture short frame = some (frame.take 65535) := by
  obtain ⟨halt, hrun, -, hvalue⟩ := code_ends short frame 6 0
  have hne : halt.value ≠ 0 := hvalue.mpr h
  have hsnap : halt.value.toNat = 65535 := by
    cases halt with
    | shortLoad => exact absurd rfl hne
    | ret k =>
      have hmem := ret_mem_of_run hrun
      simp only [code, List.mem_cons, List.not_mem_nil, or_false, Insn.ret.injEq, reduceCtorEq,
        false_or] at hmem
      rcases hmem with rfl | rfl | rfl
      · exact absurd rfl hne
      · rfl
      · exact absurd rfl hne
  have hrun' : run short code frame code.length 0 0 = some halt := hrun
  rw [capture, hrun']
  simp only [hne, if_false, hsnap, bufferSize, List.take_take]
  rfl

-- ---------------------------------------------------------------------------
-- The end of the datagram
-- ---------------------------------------------------------------------------

/-- The end of the datagram is read from the first bytes. -/
theorem datagramEnd_take {frame : List UInt8} {n : Nat} (hn : 26 ≤ n) :
    datagramEnd (frame.take n) = datagramEnd frame := by
  have hget : ∀ i < 26, (frame.take n)[i]? = frame[i]? :=
    fun i hi => List.getElem?_take_of_lt (by omega)
  have htype : ∀ i < 2, etherType (frame.take n) i = etherType frame i := by
    intro i hi
    rw [etherType, etherType, hget _ (by omega), hget _ (by omega)]
  have hdepth : tagDepth (frame.take n) = tagDepth frame := by
    rw [tagDepth, htype 0 (by decide), htype 1 (by decide)]
    rfl
  have hle : tagDepth frame ≤ 2 := by
    rw [tagDepth]
    split
    · split <;> decide
    · decide
  simp only [datagramEnd, hdepth, List.getD_eq_getElem?_getD]
  rw [hget _ (by omega), hget _ (by omega)]

namespace Frame

variable (f : Frame)

theorem tagDepth_encode : tagDepth f.encode = f.tags.length := by
  have hle := f.tags_le
  have htag : ∀ i < f.tags.length, (etherType f.encode i).any isTag = true := by
    intro i hi
    obtain ⟨t, ht, htag⟩ := f.etherType_lt hi
    rw [ht]
    exact htag
  have hip : (etherType f.encode f.tags.length).any isTag = false := by
    have hdrop := f.drop_encode (Nat.le_refl f.tags.length)
    rw [List.drop_length, List.flatMap_nil, List.nil_append] at hdrop
    rw [etherType_of_drop hdrop]
    decide
  rw [tagDepth]
  generalize f.tags.length = n at *
  interval_cases n
  · simp [hip]
  · simp [hip, htag 0 (by decide)]
  · simp [htag 0 (by decide), htag 1 (by decide)]

theorem datagramEnd_encode :
    datagramEnd f.encode = 14 + 4 * f.tags.length + f.datagram.total := by
  have hdrop := f.drop_encode (Nat.le_refl f.tags.length)
  rw [List.drop_length, List.flatMap_nil, List.nil_append] at hdrop
  have hget : ∀ i, f.encode.getD (14 + 4 * f.tags.length + i) 0 =
      (be16 0x0800 ++ (f.datagram.encode ++ f.trailing)).getD (2 + i) 0 := by
    intro i
    have hindex : 14 + 4 * f.tags.length + i = 12 + 4 * f.tags.length + (2 + i) := by omega
    rw [hindex, List.getD_eq_getElem?_getD, List.getD_eq_getElem?_getD, ← hdrop,
      List.getElem?_drop]
  rw [datagramEnd, f.tagDepth_encode]
  simp only [hget]
  have hword : word ((be16 0x0800 ++ (f.datagram.encode ++ f.trailing)).getD 4 0)
      ((be16 0x0800 ++ (f.datagram.encode ++ f.trailing)).getD 5 0) =
        UInt16.ofNat f.datagram.total := by
    obtain ⟨rest, hrest⟩ : ∃ rest, f.datagram.encode ++ f.trailing =
        [UInt8.ofNat (0x40 + f.datagram.ihl), f.datagram.tos] ++
          be16 (UInt16.ofNat f.datagram.total) ++ rest := by
      simp only [Datagram.encode, List.append_assoc]
      exact ⟨_, rfl⟩
    rw [hrest]
    exact word_be16 _
  rw [hword, Datagram.toNat_total]

theorem length_encode :
    f.encode.length = 14 + 4 * f.tags.length + f.datagram.total + f.trailing.length := by
  have htags : (f.tags.flatMap OuterTag.encode).length = 4 * f.tags.length := by
    simp [List.length_flatMap, OuterTag.encode, Nat.mul_comm]
  simp only [encode, List.length_append, Vector.length_toList, length_be16, htags,
    f.datagram.length_encode]
  omega

/-- Cutting into the padding leaves a frame of the format. -/
theorem take_encode {n : Nat} (hn : datagramEnd f.encode ≤ n) :
    f.encode.take n =
      { f with trailing := f.trailing.take (n - datagramEnd f.encode) : Frame }.encode := by
  have hlength : (f.addresses.toList ++ f.tags.flatMap OuterTag.encode ++ be16 0x0800 ++
      f.datagram.encode).length = datagramEnd f.encode := by
    have hwhole := f.length_encode
    rw [encode, List.length_append] at hwhole
    rw [f.datagramEnd_encode]
    omega
  rw [← hlength] at hn ⊢
  rw [encode, encode, List.take_append, List.take_of_length_le hn]

end Frame

theorem payloadParse_encode (f : Frame) : payloadParse f.encode = .ok (some f.packet) := by
  obtain ⟨r, hparse, hr⟩ := payloadParse_decides f.encode
  rw [hparse, (hr f.packet).mpr ⟨f, rfl, rfl⟩]

theorem exists_frame_of_payloadParse {data : List UInt8} {packet : PayloadPacket}
    (h : payloadParse data = .ok (some packet)) : ∃ f : Frame, f.encode = data ∧ packet = f.packet := by
  obtain ⟨r, hparse, hr⟩ := payloadParse_decides data
  rw [h] at hparse
  cases hparse
  exact (hr packet).mp rfl

/-- The capture path hands the parser a part of the frame on which it finds the
    same packet. -/
def CaptureKeeps (short : ShortLoad) (frame : List UInt8) (packet : PayloadPacket) : Prop :=
  ∃ seen, capture short frame = some seen ∧ seen <+: frame ∧
    payloadParse seen = .ok (some packet)

theorem captureKeeps_encode_iff (short : ShortLoad) (f : Frame) :
    CaptureKeeps short f.encode f.packet ↔ datagramEnd f.encode ≤ 65535 := by
  have hcapture := capture_of_carriesGre short f.carriesGre
  constructor
  · rintro ⟨seen, hseen, -, hparse⟩
    rw [hcapture] at hseen
    cases hseen
    obtain ⟨g, hg, -⟩ := exists_frame_of_payloadParse hparse
    -- what was received says where its datagram ends, and the end lies inside
    have hinside : datagramEnd g.encode ≤ g.encode.length := by
      rw [g.datagramEnd_encode, g.length_encode]
      omega
    rw [hg, datagramEnd_take (by decide)] at hinside
    exact hinside.trans (List.length_take_le _ _)
  · intro hend
    refine ⟨_, hcapture, List.take_prefix _ _, ?_⟩
    rw [f.take_encode hend]
    exact payloadParse_encode _

/-- Of the frames the parser accepts, the capture path keeps exactly those whose
    datagram ends within the snapshot. -/
theorem capture_keeps_verdict_iff (short : ShortLoad) (frame : List UInt8)
    (packet : PayloadPacket) (h : payloadParse frame = .ok (some packet)) :
    CaptureKeeps short frame packet ↔ datagramEnd frame ≤ 65535 := by
  obtain ⟨f, rfl, rfl⟩ := exists_frame_of_payloadParse h
  exact captureKeeps_encode_iff short f

namespace Sample

/-- A frame without tags and options whose inner frame carries `n` zeros. -/
def zeros (n : Nat) (hn : n ≤ 65493) : Frame where
  addresses := Vector.replicate 12 0
  tags := []
  trailing := []
  tags_le := Nat.zero_le 2
  datagram :=
    { tos := 0
      ident := 0
      dontFragment := false
      ttl := 64
      checksum := 0
      source := #v[192, 0, 2, 1]
      destination := #v[192, 0, 2, 2]
      options := []
      options_le := Nat.zero_le 10
      inner :=
        { destination := Vector.replicate 6 255
          mac := #v[2, 0, 0, 0, 0, 77]
          priority := 0
          vlan := 10
          type := 0x0800
          payload := List.replicate n 0
          mac_unicast := ⟨by decide, by decide⟩
          vlan_valid := by decide
          type_untagged := by decide }
      fits := by
        rw [InnerFrame.length_encode, List.length_replicate, List.length_nil]
        omega }

theorem datagramEnd_zeros (n : Nat) (hn : n ≤ 65493) : datagramEnd (zeros n hn).encode = 56 + n := by
  rw [Frame.datagramEnd_encode, Datagram.total, InnerFrame.length_encode]
  simp only [zeros, Datagram.ihl, List.length_nil, List.length_replicate]
  omega

end Sample

theorem capture_keeps_verdict_short :
    CaptureKeeps .reject (Sample.zeros 46 (by decide)).encode (Sample.zeros 46 (by decide)).packet :=
  (capture_keeps_verdict_iff .reject _ _ (payloadParse_encode _)).mpr
    (by rw [Sample.datagramEnd_zeros]; decide)

/-- The longest datagram is accepted in the whole frame and not behind the snapshot. -/
theorem not_capture_keeps_longest :
    payloadParse (Sample.zeros 65493 (by decide)).encode =
        .ok (some (Sample.zeros 65493 (by decide)).packet) ∧
      ¬ CaptureKeeps .reject (Sample.zeros 65493 (by decide)).encode
        (Sample.zeros 65493 (by decide)).packet := by
  refine ⟨payloadParse_encode _, ?_⟩
  rw [captureKeeps_encode_iff, Sample.datagramEnd_zeros]
  decide

end Softgre
