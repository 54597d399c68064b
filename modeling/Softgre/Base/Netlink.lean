-- SUMMARY: The netlink formats of the Linux headers: words in memory, alignment, attributes, messages.
import Mathlib.Data.List.Basic
import Mathlib.Data.UInt
import Mathlib.Tactic.NormNum

/-!
# Netlink formats

Words are stored in the byte order of the machine, whichever that is. Attributes
have a header of four bytes, with their length and type, and are padded to whole
words; an attribute with the nested flag holds attributes itself. `encode` writes
a tree of them, and `attributes` walks it with the tests of the headers. Messages
have a header of sixteen bytes, and `messages` are those a datagram is walked into.
-/

namespace Base

-- ---------------------------------------------------------------------------
-- Words in memory
-- ---------------------------------------------------------------------------

/-- The byte order of a machine. -/
inductive Endian where
  | little | big
deriving DecidableEq, Repr

/-- The `k` low bytes of a number, the lowest first. -/
def lowBytes : Nat → Nat → List UInt8
  | 0, _ => []
  | k + 1, n => UInt8.ofNat n :: lowBytes k (n / 256)

def lowValue : List UInt8 → Nat
  | [] => 0
  | b :: rest => b.toNat + 256 * lowValue rest

/-- A number as it is stored in `k` bytes of memory. -/
def Endian.bytes (e : Endian) (k n : Nat) : List UInt8 :=
  match e with
  | .little => lowBytes k n
  | .big => (lowBytes k n).reverse

/-- The number some bytes of memory hold. -/
def Endian.value (e : Endian) (bytes : List UInt8) : Nat :=
  match e with
  | .little => lowValue bytes
  | .big => lowValue bytes.reverse

@[simp] theorem length_lowBytes (k n : Nat) : (lowBytes k n).length = k := by
  induction k generalizing n with
  | zero => rfl
  | succ k ih => rw [lowBytes, List.length_cons, ih]

theorem lowValue_lowBytes (k n : Nat) : lowValue (lowBytes k n) = n % 256 ^ k := by
  induction k generalizing n with
  | zero => rw [Nat.pow_zero, Nat.mod_one, lowBytes, lowValue]
  | succ k ih =>
    have hlow : (UInt8.ofNat n).toNat = n % 256 := UInt8.toNat_ofNat'
    rw [lowBytes, lowValue, ih, hlow, Nat.pow_succ', Nat.mod_mul]

section Endian

variable (e : Endian)

@[simp] theorem Endian.length_bytes (k n : Nat) : (e.bytes k n).length = k := by
  cases e with
  | little => exact length_lowBytes k n
  | big => exact (List.length_reverse).trans (length_lowBytes k n)

theorem Endian.value_bytes (k n : Nat) : e.value (e.bytes k n) = n % 256 ^ k := by
  cases e with
  | little => exact lowValue_lowBytes k n
  | big => rw [Endian.bytes, Endian.value, List.reverse_reverse, lowValue_lowBytes]

theorem Endian.value_bytes_of_lt {k n : Nat} (h : n < 256 ^ k) : e.value (e.bytes k n) = n := by
  rw [Endian.value_bytes, Nat.mod_eq_of_lt h]

/-- The number in the `k` bytes at `offset`. -/
def Endian.read (k : Nat) (memory : List UInt8) (offset : Nat) : Nat :=
  e.value ((memory.drop offset).take k)

variable {e} {k n offset : Nat} {before after : List UInt8}

theorem Endian.read_append (hoffset : before.length = offset) (hn : n < 256 ^ k) :
    e.read k (before ++ e.bytes k n ++ after) offset = n := by
  rw [Endian.read, List.append_assoc, List.drop_left' hoffset,
    List.take_left' (e.length_bytes k n), e.value_bytes_of_lt hn]

theorem Endian.read_drop (memory : List UInt8) (start : Nat) :
    e.read k (memory.drop start) offset = e.read k memory (start + offset) := by
  rw [Endian.read, Endian.read, List.drop_drop]

theorem Endian.read_take {memory : List UInt8} {len : Nat} (hle : offset + k ≤ len) :
    e.read k (memory.take len) offset = e.read k memory offset := by
  have hmin : min k (len - offset) = k := by omega
  rw [Endian.read, Endian.read, List.drop_take, List.take_take, hmin]

end Endian

-- ---------------------------------------------------------------------------
-- Alignment
-- ---------------------------------------------------------------------------

/-- The mask of `NLMSG_ALIGN` and `RTA_ALIGN`, an `unsigned int`. -/
def alignMask : Nat := 2 ^ 32 - 4

/-- `NLMSG_ALIGN` of an `unsigned int`. -/
def nlmsgAlign (len : Nat) : Nat := (len + 3) % 2 ^ 32 &&& alignMask

/-- `RTA_ALIGN` of a `size_t`: the mask has no high bits. -/
def rtaAlign (len : Nat) : Nat := (len + 3) % 2 ^ 64 &&& alignMask

/-- `RTA_LENGTH` of a `size_t`. -/
def rtaLength (len : Nat) : Nat := (4 + len) % 2 ^ 64

theorem and_alignMask (n : Nat) : n &&& alignMask = n % 2 ^ 32 / 4 * 4 := by
  have hmask : alignMask = (2 ^ 30 - 1) <<< 2 := by decide
  have hshift : n % 2 ^ 32 / 4 * 4 = (n % 2 ^ 32) >>> 2 <<< 2 := by
    rw [Nat.shiftLeft_eq, Nat.shiftRight_eq_div_pow]
  rw [hmask, hshift]
  refine Nat.eq_of_testBit_eq fun i => ?_
  rw [Nat.testBit_and, Nat.testBit_shiftLeft, Nat.testBit_shiftLeft, Nat.testBit_shiftRight,
    Nat.testBit_two_pow_sub_one, Nat.testBit_mod_two_pow]
  by_cases hi : 2 ≤ i
  · have hsplit : 2 + (i - 2) = i := by omega
    have hlt : i - 2 < 30 ↔ i < 32 := by omega
    simp [hi, hsplit, hlt, Bool.and_comm]
  · simp [hi]

theorem nlmsgAlign_eq {len : Nat} (hlt : len + 3 < 2 ^ 32) :
    nlmsgAlign len = (len + 3) / 4 * 4 := by
  rw [nlmsgAlign, and_alignMask]
  omega

theorem nlmsgAlign_of_dvd {len : Nat} (hdvd : 4 ∣ len) (hlt : len < 2 ^ 16) :
    nlmsgAlign len = len := by
  rw [nlmsgAlign_eq (by omega)]
  omega

theorem rtaAlign_eq {len : Nat} (hlt : len + 3 < 2 ^ 32) : rtaAlign len = (len + 3) / 4 * 4 := by
  rw [rtaAlign, and_alignMask]
  omega

theorem rtaLength_eq {len : Nat} (hlt : len + 7 < 2 ^ 64) : rtaLength len = 4 + len :=
  Nat.mod_eq_of_lt (by omega)

-- ---------------------------------------------------------------------------
-- Attributes
-- ---------------------------------------------------------------------------

/-- Attributes one after the other, nested ones with those inside. -/
inductive Attrs where
  | nil
  | data (type : Nat) (payload : List UInt8) (rest : Attrs)
  | nested (type : Nat) (children rest : Attrs)
deriving DecidableEq, Repr

def nlaFNested : Nat := 2 ^ 15

/-- `NLA_TYPE_MASK` of a 16-bit type. -/
def nlaTypeMask : Nat := 2 ^ 14 - 1

/-- `struct rtattr`. -/
def rtattr (e : Endian) (len type : Nat) : List UInt8 := e.bytes 2 len ++ e.bytes 2 type

/-- What lies between an attribute and the next one. -/
def padding (len : Nat) : List UInt8 := List.replicate (rtaAlign len - len) 0

namespace Attrs

def append : Attrs → Attrs → Attrs
  | nil, more => more
  | data type payload rest, more => data type payload (rest.append more)
  | nested type children rest, more => nested type children (rest.append more)

def encode (e : Endian) : Attrs → List UInt8
  | nil => []
  | data type payload rest =>
    rtattr e (rtaLength payload.length) type ++ payload ++ padding (rtaLength payload.length) ++
      rest.encode e
  | nested type children rest =>
    rtattr e (rtaLength (children.encode e).length) (type ||| nlaFNested) ++ children.encode e ++
      rest.encode e

/-- Types that leave the two flags free. -/
def TypesLt : Attrs → Prop
  | nil => True
  | data type _ rest => type < 2 ^ 14 ∧ rest.TypesLt
  | nested type children rest => type < 2 ^ 14 ∧ children.TypesLt ∧ rest.TypesLt

end Attrs

section Walk

variable (e : Endian)

/-- `RTA_OK`, with the bytes that remain. -/
def rtaOk (bytes : List UInt8) : Bool :=
  decide (4 ≤ bytes.length) && decide (4 ≤ e.read 2 bytes 0) &&
    decide (e.read 2 bytes 0 ≤ bytes.length)

/-- The attributes in some bytes, if these can be walked to their end. -/
def walkAttrs : Nat → List UInt8 → Option Attrs
  | 0, bytes => if bytes.isEmpty then some .nil else none
  | fuel + 1, bytes =>
    if bytes.isEmpty then some .nil
    else if rtaOk e bytes then do
      let len := e.read 2 bytes 0
      let type := e.read 2 bytes 2
      let payload := (bytes.drop 4).take (len - 4)
      let rest ← walkAttrs fuel (bytes.drop (rtaAlign len))
      if type &&& nlaFNested = 0 then return .data (type &&& nlaTypeMask) payload rest
      else
        let children ← walkAttrs fuel payload
        return .nested (type &&& nlaTypeMask) children rest
    else none

/-- Every attribute takes four bytes, so that there is fuel for all of them. -/
def attributes (bytes : List UInt8) : Option Attrs := walkAttrs e bytes.length bytes

end Walk

section RoundTrip

variable {e : Endian} {type len fuel : Nat} {payload pad rest : List UInt8}

theorem length_rtattr (e : Endian) (len type : Nat) : (rtattr e len type).length = 4 := by
  rw [rtattr, List.length_append, e.length_bytes, e.length_bytes]

theorem length_padding (len : Nat) (hlen : 4 + len < 2 ^ 16) :
    4 + len + (padding (rtaLength len)).length = (len + 7) / 4 * 4 := by
  rw [padding, List.length_replicate, rtaLength_eq (by omega), rtaAlign_eq (by omega)]
  omega

theorem and_nlaFNested (h : type < 2 ^ 14) :
    type &&& nlaFNested = 0 ∧ type &&& nlaTypeMask = type := by
  refine ⟨Nat.eq_of_testBit_eq fun i => ?_, ?_⟩
  · rw [Nat.testBit_and, nlaFNested, Nat.testBit_two_pow, Nat.zero_testBit]
    by_cases hi : 15 = i
    · rw [← hi, Nat.testBit_lt_two_pow (by omega)]
      rfl
    · simp [hi]
  · rw [nlaTypeMask, Nat.and_two_pow_sub_one_eq_mod, Nat.mod_eq_of_lt h]

theorem Attrs.encode_append (a more : Attrs) :
    (a.append more).encode e = a.encode e ++ more.encode e := by
  induction a with
  | nil => rfl
  | data type payload rest ih => simp only [append, encode, ih, List.append_assoc]
  | nested type children rest _ ih => simp only [append, encode, ih, List.append_assoc]

theorem Attrs.TypesLt.append {a more : Attrs} (h : a.TypesLt) (hmore : more.TypesLt) :
    (a.append more).TypesLt := by
  induction a with
  | nil => exact hmore
  | data type payload rest ih => exact ⟨h.1, ih h.2⟩
  | nested type children rest _ ih => exact ⟨h.1, h.2.1, ih h.2.2⟩

theorem or_nlaFNested (h : type < 2 ^ 14) :
    (type ||| nlaFNested) < 2 ^ 16 ∧ (type ||| nlaFNested) &&& nlaFNested ≠ 0 ∧
      (type ||| nlaFNested) &&& nlaTypeMask = type := by
  refine ⟨Nat.or_lt_two_pow (by omega) (by decide), fun hzero => ?_, ?_⟩
  · rw [Nat.and_or_distrib_right, (and_nlaFNested h).1, Nat.and_self] at hzero
    exact absurd hzero (by decide)
  · rw [Nat.and_or_distrib_right, (and_nlaFNested h).2]
    exact Nat.or_zero type

/-- One step of the walk. -/
theorem walkAttrs_step (hlen : len < 2 ^ 16) (htype : type < 2 ^ 16)
    (hbody : 4 + payload.length = len) (hpad : 4 + payload.length + pad.length = rtaAlign len) :
    walkAttrs e (fuel + 1) (rtattr e len type ++ payload ++ pad ++ rest) =
      (walkAttrs e fuel rest).bind fun attrs =>
        if type &&& nlaFNested = 0 then some (.data (type &&& nlaTypeMask) payload attrs)
        else (walkAttrs e fuel payload).bind fun children =>
          some (.nested (type &&& nlaTypeMask) children attrs) := by
  generalize hbytes : rtattr e len type ++ payload ++ pad ++ rest = bytes
  have hlength : bytes.length = 4 + payload.length + pad.length + rest.length := by
    rw [← hbytes, List.length_append, List.length_append, List.length_append, length_rtattr]
  have hreadLen : e.read 2 bytes 0 = len := by
    have hsplit : bytes = [] ++ e.bytes 2 len ++ (e.bytes 2 type ++ payload ++ pad ++ rest) := by
      rw [← hbytes, rtattr]
      simp only [List.append_assoc, List.nil_append]
    rw [hsplit]
    exact Endian.read_append rfl hlen
  have hreadType : e.read 2 bytes 2 = type := by
    have hsplit : bytes = e.bytes 2 len ++ e.bytes 2 type ++ (payload ++ pad ++ rest) := by
      rw [← hbytes, rtattr]
      simp only [List.append_assoc]
    rw [hsplit]
    exact Endian.read_append (e.length_bytes 2 len) htype
  have hpayload : (bytes.drop 4).take (len - 4) = payload := by
    rw [← hbytes, List.append_assoc, List.append_assoc, List.drop_left' (length_rtattr e len type)]
    exact List.take_left' (by omega)
  have hrest : bytes.drop (rtaAlign len) = rest := by
    rw [← hbytes]
    refine List.drop_left' ?_
    rw [List.length_append, List.length_append, length_rtattr, hpad]
  have hempty : bytes.isEmpty = false := by
    rw [List.isEmpty_eq_false_iff, ← List.length_pos_iff]
    omega
  have hok : rtaOk e bytes = true := by
    rw [rtaOk, hreadLen, Bool.and_eq_true, Bool.and_eq_true]
    refine ⟨⟨decide_eq_true ?_, decide_eq_true ?_⟩, decide_eq_true ?_⟩
    · omega
    · omega
    · omega
  simp only [walkAttrs, hempty, hok, hreadLen, hreadType, hpayload, hrest, Bool.false_eq_true,
    if_true, if_false]
  rfl

/-- Attributes fill whole words. -/
theorem four_dvd_length_encode (a : Attrs) (hlength : (a.encode e).length < 2 ^ 16) :
    4 ∣ (a.encode e).length := by
  induction a with
  | nil => exact Nat.dvd_zero 4
  | data type payload rest ih =>
    rw [Attrs.encode] at hlength ⊢
    simp only [List.length_append, length_rtattr] at hlength ⊢
    have hpadding := length_padding payload.length (by omega)
    have hrest := ih (by omega)
    omega
  | nested type children rest ihc ihr =>
    rw [Attrs.encode] at hlength ⊢
    simp only [List.length_append, length_rtattr] at hlength ⊢
    have hchildren := ihc (by omega)
    have hrest := ihr (by omega)
    omega

/-- Reading what was written. -/
theorem walkAttrs_encode (a : Attrs) (htypes : a.TypesLt) (hlength : (a.encode e).length < 2 ^ 16)
    (hfuel : (a.encode e).length ≤ fuel) : walkAttrs e fuel (a.encode e) = some a := by
  induction a generalizing fuel with
  | nil =>
    cases fuel with
    | zero => rfl
    | succ fuel => rfl
  | data type payload rest ih =>
    obtain ⟨htype, htypes⟩ := htypes
    rw [Attrs.encode] at hlength hfuel ⊢
    simp only [List.length_append, length_rtattr] at hlength hfuel
    have hpadding := length_padding payload.length (by omega)
    obtain ⟨fuel, rfl⟩ : ∃ n, fuel = n + 1 := ⟨fuel - 1, by omega⟩
    rw [rtaLength_eq (by omega)] at hpadding ⊢
    rw [walkAttrs_step (by omega) (by omega) rfl (by rw [rtaAlign_eq (by omega)]; omega),
      ih htypes (by omega) (by omega), (and_nlaFNested htype).1, (and_nlaFNested htype).2]
    rfl
  | nested type children rest ihc ihr =>
    obtain ⟨htype, hchildren, htypes⟩ := htypes
    obtain ⟨htype', hflag, hmask⟩ := or_nlaFNested htype
    rw [Attrs.encode] at hlength hfuel ⊢
    simp only [List.length_append, length_rtattr] at hlength hfuel
    have hdvd := four_dvd_length_encode children (e := e) (by omega)
    obtain ⟨fuel, rfl⟩ : ∃ n, fuel = n + 1 := ⟨fuel - 1, by omega⟩
    have hstep : walkAttrs e (fuel + 1)
        (rtattr e (4 + (children.encode e).length) (type ||| nlaFNested) ++ children.encode e ++ [] ++
          rest.encode e) = _ :=
      walkAttrs_step (by omega) htype' rfl (by rw [rtaAlign_eq (by omega), List.length_nil]; omega)
    rw [List.append_nil] at hstep
    rw [rtaLength_eq (by omega), hstep, ihr htypes (by omega) (by omega),
      ihc hchildren (by omega) (by omega), hmask]
    exact if_neg hflag

end RoundTrip

-- ---------------------------------------------------------------------------
-- Looking attributes up
-- ---------------------------------------------------------------------------

/-- The last attribute of a type, which is the one a parser of the kernel keeps. -/
def Attrs.payload (t : Nat) : Attrs → Option (List UInt8)
  | nil => none
  | data type bytes rest => rest.payload t <|> if type = t then some bytes else none
  | nested _ _ rest => rest.payload t

/-- The attributes inside the last one of a type. -/
def Attrs.inside (t : Nat) : Attrs → Option Attrs
  | nil => none
  | data _ _ rest => rest.inside t
  | nested type children rest => rest.inside t <|> if type = t then some children else none

/-- A number of `k` bytes. -/
def numberOf (e : Endian) (k : Nat) (bytes : List UInt8) : Option Nat :=
  if bytes.length = k then some (e.value bytes) else none

theorem numberOf_bytes {e : Endian} {k n : Nat} (hn : n < 256 ^ k) :
    numberOf e k (e.bytes k n) = some n := by
  rw [numberOf, if_pos (e.length_bytes k n), e.value_bytes_of_lt hn]

-- ---------------------------------------------------------------------------
-- Messages
-- ---------------------------------------------------------------------------

section Messages

variable (e : Endian)

/-- `NLMSG_OK`, with the bytes that remain. -/
def nlmsgOk (bytes : List UInt8) : Bool :=
  decide (16 ≤ bytes.length) && decide (16 ≤ e.read 4 bytes 0) &&
    decide (e.read 4 bytes 0 ≤ bytes.length)

def walkMessages : Nat → List UInt8 → List (List UInt8)
  | 0, _ => []
  | fuel + 1, bytes =>
    if nlmsgOk e bytes then
      let len := e.read 4 bytes 0
      bytes.take len :: walkMessages fuel (bytes.drop (nlmsgAlign len))
    else []

/-- The messages in some bytes, up to the first that is not complete. Every message
    takes sixteen bytes, so that there is fuel for all of them. -/
def messages (bytes : List UInt8) : List (List UInt8) := walkMessages e bytes.length bytes

variable {e} {bytes : List UInt8} {n m : Nat}

theorem nlmsgOk_iff : nlmsgOk e bytes = true ↔
    16 ≤ bytes.length ∧ 16 ≤ e.read 4 bytes 0 ∧ e.read 4 bytes 0 ≤ bytes.length := by
  rw [nlmsgOk, Bool.and_eq_true, Bool.and_eq_true, decide_eq_true_iff, decide_eq_true_iff,
    decide_eq_true_iff, and_assoc]

/-- The walk gets on by a header at least. -/
theorem length_drop_nlmsgAlign (hlt : bytes.length + 3 < 2 ^ 32) (hok : nlmsgOk e bytes = true) :
    (bytes.drop (nlmsgAlign (e.read 4 bytes 0))).length + 16 ≤ bytes.length := by
  obtain ⟨hheader, hlen, hle⟩ := nlmsgOk_iff.mp hok
  rw [List.length_drop, nlmsgAlign_eq (by omega)]
  omega

theorem walkMessages_of_not_ok (hok : ¬ nlmsgOk e bytes = true) : walkMessages e n bytes = [] := by
  cases n with
  | zero => rfl
  | succ fuel => rw [walkMessages, if_neg hok]

/-- More fuel than bytes does not matter. -/
theorem walkMessages_congr (hlt : bytes.length + 3 < 2 ^ 32) (hn : bytes.length ≤ n)
    (hm : bytes.length ≤ m) : walkMessages e n bytes = walkMessages e m bytes := by
  induction n generalizing bytes m with
  | zero =>
    have hok : ¬ nlmsgOk e bytes = true := by
      rw [nlmsgOk_iff]
      omega
    rw [walkMessages_of_not_ok hok, walkMessages_of_not_ok hok]
  | succ n ih =>
    by_cases hok : nlmsgOk e bytes = true
    · have hrest := length_drop_nlmsgAlign hlt hok
      obtain ⟨m, rfl⟩ : ∃ k, m = k + 1 := ⟨m - 1, by omega⟩
      rw [walkMessages, walkMessages, if_pos hok, if_pos hok]
      exact congrArg _ (ih (by omega) (by omega) (by omega))
    · rw [walkMessages_of_not_ok hok, walkMessages_of_not_ok hok]

theorem messages_of_ok (hlt : bytes.length + 3 < 2 ^ 32) (hok : nlmsgOk e bytes = true) :
    messages e bytes = bytes.take (e.read 4 bytes 0) ::
      messages e (bytes.drop (nlmsgAlign (e.read 4 bytes 0))) := by
  have hrest := length_drop_nlmsgAlign hlt hok
  have hfuel : walkMessages e bytes.length bytes = walkMessages e (bytes.length + 1) bytes :=
    walkMessages_congr hlt (Nat.le_refl _) (Nat.le_succ _)
  rw [messages, hfuel, walkMessages, if_pos hok]
  exact congrArg _ (walkMessages_congr (by omega) (by omega) (Nat.le_refl _))

theorem messages_of_not_ok (hok : ¬ nlmsgOk e bytes = true) : messages e bytes = [] :=
  walkMessages_of_not_ok hok

end Messages

end Base
