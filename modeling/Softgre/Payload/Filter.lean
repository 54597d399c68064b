-- SUMMARY: The kernel filter of the capture socket: what it passes, and that it covers the parser.
import Softgre.Base.Bpf
import Softgre.Payload.Exact

/-!
# The kernel filter

`payload_loop_init` attaches a filter to the capture socket. It walks through the
same chain of types as the parser, with the offsets of each tag depth written
out, and passes IPv4 frames whose protocol is GRE.
-/

namespace Softgre

open Base Base.Bpf

/-- `code[]` of `payload_loop_init`. -/
def code : List Insn :=
  [.ldH 12,
   .jeq 0x0800 0 3,
   .ldB 23,
   .jeq 47 13 14,
   .ret 0,
   .jeq 0x8100 1 0,
   .jeq 0x88a8 0 11,
   .ldH 16,
   .jeq 0x0800 0 2,
   .ldB 27,
   .jeq 47 6 7,
   .jeq 0x8100 1 0,
   .jeq 0x88a8 0 5,
   .ldH 20,
   .jeq 0x0800 0 3,
   .ldB 31,
   .jeq 47 0 1,
   .ret 65535,
   .ret 0]

/-- The type field behind `i` outer tags. -/
def etherType (frame : List UInt8) (i : Nat) : Option UInt16 :=
  match frame[12 + 4 * i]?, frame[13 + 4 * i]? with
  | some hi, some lo => some (word hi lo)
  | _, _ => none

/-- At most two outer tags, then IPv4, and the protocol of the IPv4 header is
    there and is GRE. -/
def CarriesGre (frame : List UInt8) : Prop :=
  ∃ k ≤ 2, (∀ i < k, ∃ t, etherType frame i = some t ∧ isTag t = true) ∧
    etherType frame k = some 0x0800 ∧ frame[14 + 4 * k + 9]? = some 47

-- ---------------------------------------------------------------------------
-- What the filter sees
-- ---------------------------------------------------------------------------

/-- The accumulator after a load, when a missing field reads as 0. -/
def halfOr (frame : List UInt8) (k : Nat) : UInt32 := (half frame k).getD 0

def byteOr (frame : List UInt8) (k : Nat) : UInt32 := (byte frame k).getD 0

theorem half_eq (frame : List UInt8) (i : Nat) :
    half frame (12 + 4 * i) = (etherType frame i).map UInt16.toUInt32 := by
  have hnext : 12 + 4 * i + 1 = 13 + 4 * i := by omega
  rw [half, etherType, hnext]
  cases frame[12 + 4 * i]? with
  | none => rfl
  | some hi => cases frame[13 + 4 * i]? <;> rfl

theorem etherType_eq_some_iff (frame : List UInt8) (i : Nat) {t : UInt16} (ht : t ≠ 0) :
    etherType frame i = some t ↔ halfOr frame (12 + 4 * i) = t.toUInt32 := by
  rw [halfOr, half_eq]
  cases etherType frame i with
  | none =>
    have ht' : 0 ≠ t.toUInt32 := fun h => ht (UInt16.toUInt32_inj.mp h.symm)
    simp [ht']
  | some t' =>
    rw [Option.some.injEq, Option.map_some, Option.getD_some]
    exact UInt16.toUInt32_inj.symm

theorem getElem?_eq_47_iff {frame : List UInt8} {k : Nat} :
    frame[k]? = some 47 ↔ byteOr frame k = 47 := by
  rw [byteOr, byte]
  cases frame[k]? with
  | none => simp
  | some b =>
    rw [Option.some.injEq, Option.map_some, Option.getD_some]
    exact UInt8.toUInt32_inj.symm

/-- The type in the accumulator is a tag. -/
def IsTag (x : UInt32) : Prop := x = 0x8100 ∨ x = 0x88a8

theorem tagged_iff {frame : List UInt8} {i : Nat} :
    (∃ t, etherType frame i = some t ∧ isTag t = true) ↔ IsTag (halfOr frame (12 + 4 * i)) := by
  have hvlan := etherType_eq_some_iff frame i (t := 0x8100) (by decide)
  have hservice := etherType_eq_some_iff frame i (t := 0x88a8) (by decide)
  rw [IsTag]
  constructor
  · rintro ⟨t, ht, htag⟩
    simp only [isTag, Bool.or_eq_true, beq_iff_eq] at htag
    rcases htag with rfl | rfl
    · exact .inl (hvlan.mp ht)
    · exact .inr (hservice.mp ht)
  · rintro (h | h)
    · exact ⟨0x8100, hvlan.mpr h, by decide⟩
    · exact ⟨0x88a8, hservice.mpr h, by decide⟩

/-- The three tag depths, by the offsets that the filter uses. -/
theorem carriesGre_iff (frame : List UInt8) :
    CarriesGre frame ↔
      (halfOr frame 12 = 0x0800 ∧ byteOr frame 23 = 47) ∨
      (IsTag (halfOr frame 12) ∧ halfOr frame 16 = 0x0800 ∧ byteOr frame 27 = 47) ∨
      (IsTag (halfOr frame 12) ∧ IsTag (halfOr frame 16) ∧ halfOr frame 20 = 0x0800 ∧
        byteOr frame 31 = 47) := by
  have hip : ∀ i, etherType frame i = some 0x0800 ↔ halfOr frame (12 + 4 * i) = 0x0800 :=
    fun i => etherType_eq_some_iff frame i (by decide)
  simp only [CarriesGre, tagged_iff, hip, getElem?_eq_47_iff]
  constructor
  · rintro ⟨k, hk, htags, htype, hprotocol⟩
    interval_cases k
    · exact .inl ⟨htype, hprotocol⟩
    · exact .inr (.inl ⟨htags 0 (by decide), htype, hprotocol⟩)
    · exact .inr (.inr ⟨htags 0 (by decide), htags 1 (by decide), htype, hprotocol⟩)
  · rintro (⟨htype, hprotocol⟩ | ⟨h0, htype, hprotocol⟩ | ⟨h0, h1, htype, hprotocol⟩)
    · exact ⟨0, by decide, fun i hi => absurd hi (Nat.not_lt_zero i), htype, hprotocol⟩
    · refine ⟨1, by decide, fun i hi => ?_, htype, hprotocol⟩
      interval_cases i
      exact h0
    · refine ⟨2, by decide, fun i hi => ?_, htype, hprotocol⟩
      interval_cases i
      · exact h0
      · exact h1

-- ---------------------------------------------------------------------------
-- The program
-- ---------------------------------------------------------------------------

section Program

variable (short : ShortLoad) (frame : List UInt8) (fuel : Nat) (a : UInt32)

theorem halfOr_of_none {k : Nat} (h : half frame k = none) : halfOr frame k = 0 := by
  rw [halfOr, h]; rfl

theorem byteOr_of_none {k : Nat} (h : byte frame k = none) : byteOr frame k = 0 := by
  rw [byteOr, h]; rfl

/-- Behind two tags. -/
theorem code_ends_two :
    Ends short code frame (fuel + 5) 13 a (halfOr frame 20 = 0x0800 ∧ byteOr frame 31 = 47) := by
  refine .ldH rfl (fun h => ?_) (.jeq rfl (fun htype => ?_) fun htype => ?_)
  · simp [halfOr_of_none frame h]
  · refine .ldB rfl (fun h => ?_) (.jeq rfl (fun hgre => ?_) fun hgre => ?_)
    · simp [byteOr_of_none frame h]
    · exact .ret rfl (iff_of_true (by decide) ⟨htype, hgre⟩)
    · exact .ret rfl (iff_of_false (by decide) fun h => hgre h.2)
  · exact .ret rfl (iff_of_false (by decide) fun h => htype h.1)

/-- Two tests in a row recognise a tag. -/
theorem ends_tagTest {program : List Insn} {pc n : Nat} {P : Prop}
    (hvlan : program[pc]? = some (.jeq 0x8100 1 0))
    (hservice : program[pc + 1]? = some (.jeq 0x88a8 0 n))
    (htag : IsTag a → ∀ more, Ends short program frame (fuel + more) (pc + 2) a P)
    (hother : ¬ IsTag a → Ends short program frame fuel (pc + 2 + n) a P) :
    Ends short program frame (fuel + 2) pc a P := by
  refine .jeq hvlan (fun h => htag (.inl h) 1) fun hne => .jeq hservice (fun h => ?_) fun hne' => ?_
  · exact htag (.inr h) 0
  · exact hother fun h => h.elim hne hne'

/-- Behind one tag. -/
theorem code_ends_one :
    Ends short code frame (fuel + 9) 7 a ((halfOr frame 16 = 0x0800 ∧ byteOr frame 27 = 47) ∨
      (IsTag (halfOr frame 16) ∧ halfOr frame 20 = 0x0800 ∧ byteOr frame 31 = 47)) := by
  refine .ldH rfl (fun h => ?_) (.jeq rfl (fun htype => ?_) fun htype => ?_)
  · simp [halfOr_of_none frame h, IsTag]
  · change halfOr frame 16 = _ at htype
    have htag : ¬ IsTag (halfOr frame 16) := by rw [htype]; unfold IsTag; decide
    refine .ldB rfl (fun h => ?_) (.jeq rfl (fun hgre => ?_) fun hgre => ?_)
    · simp [byteOr_of_none frame h, htag]
    · exact .ret rfl (iff_of_true (by decide) (.inl ⟨htype, hgre⟩))
    · exact .ret rfl (iff_of_false (by decide) fun h => h.elim (hgre ·.2) (htag ·.1))
  · refine ends_tagTest _ _ _ _ rfl rfl (fun htag more => ?_) fun htag => ?_
    · rw [Nat.add_right_comm]
      exact (code_ends_two short frame _ _).congr
        ⟨fun h => .inr ⟨htag, h⟩, fun h => h.elim (fun h => absurd h.1 htype) (·.2)⟩
    · exact .ret rfl (iff_of_false (by decide) fun h => h.elim (htype ·.1) (htag ·.1))

theorem code_ends : Ends short code frame (fuel + 13) 0 a (CarriesGre frame) := by
  rw [carriesGre_iff]
  refine .ldH rfl (fun h => ?_) (.jeq rfl (fun htype => ?_) fun htype => ?_)
  · simp [halfOr_of_none frame h, IsTag]
  · change halfOr frame 12 = _ at htype
    have htag : ¬ IsTag (halfOr frame 12) := by rw [htype]; unfold IsTag; decide
    refine .ldB rfl (fun h => ?_) (.jeq rfl (fun hgre => ?_) fun hgre => ?_)
    · simp [byteOr_of_none frame h, htag]
    · exact .ret rfl (iff_of_true (by decide) (.inl ⟨htype, hgre⟩))
    · exact .ret rfl (iff_of_false (by decide) fun h =>
        h.elim (hgre ·.2) fun h => h.elim (htag ·.1) (htag ·.1))
  · refine ends_tagTest _ _ _ _ rfl rfl (fun htag more => ?_) fun htag => ?_
    · rw [Nat.add_right_comm]
      refine (code_ends_one short frame _ _).congr ⟨?_, ?_⟩
      · rintro (h | h)
        · exact .inr (.inl ⟨htag, h⟩)
        · exact .inr (.inr ⟨htag, h⟩)
      · rintro (h | ⟨-, h⟩ | ⟨-, h⟩)
        · exact absurd h.1 htype
        · exact .inl h
        · exact .inr h
    · exact .ret rfl (iff_of_false (by decide) fun h =>
        h.elim (htype ·.1) fun h => h.elim (htag ·.1) (htag ·.1))

end Program

-- ---------------------------------------------------------------------------
-- Frames of the format
-- ---------------------------------------------------------------------------

theorem etherType_of_drop {frame l : List UInt8} {i : Nat} {t : UInt16}
    (h : frame.drop (12 + 4 * i) = be16 t ++ l) : etherType frame i = some t := by
  have hhi : frame[12 + 4 * i]? = some (t >>> 8).toUInt8 := by
    rw [← Nat.add_zero (12 + 4 * i), ← List.getElem?_drop, h]
    rfl
  have hlo : frame[13 + 4 * i]? = some t.toUInt8 := by
    rw [Nat.add_comm 13, ← Nat.add_assoc (4 * i) 12 1, Nat.add_comm (4 * i), ← List.getElem?_drop, h]
    rfl
  simp only [etherType, hhi, hlo, word_be16]

theorem drop_tags (tags : List OuterTag) (l : List UInt8) {i : Nat} (hi : i ≤ tags.length) :
    (tags.flatMap OuterTag.encode ++ l).drop (4 * i) =
      (tags.drop i).flatMap OuterTag.encode ++ l := by
  induction i generalizing tags with
  | zero => rfl
  | succ i ih =>
    cases tags with
    | nil => simp at hi
    | cons tag tags =>
      rw [Nat.mul_succ, Nat.add_comm, ← List.drop_drop]
      exact ih tags (Nat.le_of_succ_le_succ hi)

namespace Frame

variable (f : Frame)

theorem drop_encode {i : Nat} (hi : i ≤ f.tags.length) :
    f.encode.drop (12 + 4 * i) = (f.tags.drop i).flatMap OuterTag.encode ++
      (be16 0x0800 ++ (f.datagram.encode ++ f.trailing)) := by
  rw [← List.drop_drop]
  simp only [encode, List.append_assoc]
  rw [List.drop_left' f.addresses.length_toList]
  exact drop_tags f.tags _ hi

theorem etherType_lt {i : Nat} (hi : i < f.tags.length) :
    ∃ t, etherType f.encode i = some t ∧ isTag t = true := by
  have hdrop := f.drop_encode (Nat.le_of_lt hi)
  rw [List.drop_eq_getElem_cons hi, List.flatMap_cons, OuterTag.encode, List.append_assoc,
    List.append_assoc] at hdrop
  exact ⟨_, etherType_of_drop hdrop, f.tags[i].tpid_tag⟩

theorem carriesGre : CarriesGre f.encode := by
  have hdrop := f.drop_encode (Nat.le_refl f.tags.length)
  rw [List.drop_length, List.flatMap_nil, List.nil_append] at hdrop
  refine ⟨f.tags.length, f.tags_le, fun i hi => f.etherType_lt hi, etherType_of_drop hdrop, ?_⟩
  have hprotocol : 14 + 4 * f.tags.length + 9 = 12 + 4 * f.tags.length + 11 := by omega
  rw [hprotocol, ← List.getElem?_drop, hdrop]
  rfl

end Frame

/-- The filter ends on every frame, whatever a load past the end does, and passes
    exactly the frames that carry GRE. Everything the parser accepts is among
    them. -/
theorem filter_covers_parsing (short : ShortLoad) (frame : List UInt8) :
    ∃ halt, run short code frame code.length 0 0 = some halt ∧
      (short = .zero → ∃ k, halt = .ret k) ∧ (halt.value ≠ 0 ↔ CarriesGre frame) ∧
      ∀ packet, payloadParse frame = .ok (some packet) → halt.value ≠ 0 := by
  obtain ⟨halt, hrun, hret, hvalue⟩ := code_ends short frame 6 0
  refine ⟨halt, hrun, hret, hvalue, fun packet hparse => hvalue.mpr ?_⟩
  obtain ⟨r, hr, haccepted⟩ := payloadParse_decides frame
  rw [hparse] at hr
  cases hr
  obtain ⟨f, rfl, -⟩ := (haccepted packet).mp rfl
  exact f.carriesGre

end Softgre
