-- SUMMARY: The allowlist of an accepted file is membership in one of the networks it lists.
import Softgre.Config.Load
import Mathlib.Data.List.Forall2

/-!
# The allowlist

Read as it is written, `allow-remotes` is a list of networks. The loaded list
admits exactly the addresses in one of them, and a key that is present never
leaves the list empty.
-/

namespace Softgre

/-- An address with the length of the part that counts. -/
structure Cidr where
  address : InAddr
  bits : Nat
  bits_le : bits ≤ 32

namespace Cidr

/-- The text of an entry: an address, alone or with a slash and a number. -/
def Reads (e : Cidr) (text : CStr) : Prop :=
  (inetPton text = some e.address ∧ e.bits = 32) ∨
    ∃ address digits, text = address ++ '/' :: digits ∧ inetPton address = some e.address ∧
      IsDecimal digits e.bits

/-- The top bits of `r`, a host-order address, are those of the entry. -/
def Covers (e : Cidr) (r : UInt32) : Prop :=
  r.toNat >>> (32 - e.bits) = (ntohl e.address.sAddr).toNat >>> (32 - e.bits)

def mask (e : Cidr) : UInt32 := ntohl (prefixMask e.bits)

/-- The slot `parse_allow` fills for the entry. -/
def slot (e : Cidr) : AllowRemote := ⟨ntohl e.address.sAddr &&& e.mask, e.mask⟩

theorem getLsbD_mask (e : Cidr) {i : Nat} (hi : i < 32) :
    e.mask.toBitVec.getLsbD i = decide (32 - e.bits ≤ i) := by
  have hmask : ∀ bits ≤ 32, (ntohl (prefixMask bits)).toBitVec =
      BitVec.allOnes 32 <<< (32 - bits) := by decide
  rw [mask, hmask e.bits e.bits_le, BitVec.getLsbD_shiftLeft, BitVec.getLsbD_allOnes]
  by_cases h : 32 - e.bits ≤ i
  · simp [h, hi, Nat.not_lt.mpr h, show i - (32 - e.bits) < 32 by omega]
  · simp [h, Nat.lt_of_not_le h]

/-- Masking off the rest of the address compares the top bits. -/
theorem covers_iff (e : Cidr) (r : UInt32) :
    e.Covers r ↔ (r &&& e.slot.mask) = e.slot.network := by
  have hshift : ∀ x : UInt32, x.toNat >>> (32 - e.bits) = (x.toBitVec >>> (32 - e.bits)).toNat :=
    fun x => (BitVec.toNat_ushiftRight ..).symm
  rw [Covers, hshift, hshift, BitVec.toNat_inj, ← UInt32.toBitVec_inj, slot, UInt32.toBitVec_and,
    UInt32.toBitVec_and]
  constructor
  · intro h
    refine BitVec.eq_of_getLsbD_eq fun i hi => ?_
    rw [BitVec.getLsbD_and, BitVec.getLsbD_and, e.getLsbD_mask hi]
    by_cases hle : 32 - e.bits ≤ i
    · have hbit := congrArg (fun x => x.getLsbD (i - (32 - e.bits))) h
      simp only [BitVec.getLsbD_ushiftRight, Nat.add_sub_cancel' hle] at hbit
      rw [hbit]
    · rw [decide_eq_false hle, Bool.and_false, Bool.and_false]
  · intro h
    refine BitVec.eq_of_getLsbD_eq fun i hi => ?_
    rw [BitVec.getLsbD_ushiftRight, BitVec.getLsbD_ushiftRight]
    by_cases hlt : 32 - e.bits + i < 32
    · have hbit := congrArg (fun x => x.getLsbD (32 - e.bits + i)) h
      simpa [BitVec.getLsbD_and, e.getLsbD_mask hlt] using hbit
    · rw [BitVec.getLsbD_of_ge _ _ (Nat.le_of_not_lt hlt),
        BitVec.getLsbD_of_ge _ _ (Nat.le_of_not_lt hlt)]

end Cidr

-- ---------------------------------------------------------------------------
-- Parsing
-- ---------------------------------------------------------------------------

theorem prefixBits_spec {slash : Option CStr} {bits : Nat} (h : prefixBits slash = some bits) :
    bits ≤ 32 ∧ ((slash = none ∧ bits = 32) ∨ ∃ digits, slash = some digits ∧ IsDecimal digits bits) := by
  cases slash with
  | none =>
    cases h
    exact ⟨Nat.le_refl 32, .inl ⟨rfl, rfl⟩⟩
  | some text =>
    rw [prefixBits] at h
    split at h
    · next hreads =>
      rw [Bool.and_eq_true, decide_eq_true_eq] at hreads
      cases h
      exact ⟨hreads.2, .inr ⟨text, rfl, readsAll_isDecimal hreads.1⟩⟩
    · cases h

/-- A round of `parse_allow` that goes through has read an entry. -/
theorem parseAllowField_spec {allow allow' : List AllowRemote} {field : CStr}
    (h : parseAllowField allow field = some allow') :
    ∃ e : Cidr, e.Reads (strTrim field) ∧ allow' = allow ++ [e.slot] ∧ allow'.length ≤ maxAllow := by
  simp only [parseAllowField] at h
  split at h
  · cases h
  · next hgo =>
    simp only [Bool.or_eq_true, not_or, decide_eq_true_eq, not_le] at hgo
    generalize hsplit : strchr (strTrim field) '/' = parts at h
    obtain ⟨address, slash⟩ := parts
    obtain ⟨bits, hbits, h⟩ := Option.bind_eq_some_iff.mp h
    obtain ⟨addr, haddr, h⟩ := Option.bind_eq_some_iff.mp h
    cases h
    obtain ⟨hle, hcase⟩ := prefixBits_spec hbits
    refine ⟨⟨addr, bits, hle⟩, ?_, rfl, ?_⟩
    · rcases hcase with ⟨rfl, rfl⟩ | ⟨digits, rfl, hdecimal⟩
      · rw [strchr_none hsplit]
        exact .inl ⟨haddr, rfl⟩
      · exact .inr ⟨address, digits, (strchr_eq_some_iff.mp hsplit).1, haddr, hdecimal⟩
    · rw [List.length_append, List.length_singleton]
      exact hgo.2

/-- What `parse_allow` accepts is a list of entries, and it stores a slot for each. -/
theorem parseAllow_spec {list : CStr} {allow : List AllowRemote} (h : parseAllow list = some allow) :
    ∃ entries : List Cidr, List.Forall₂ (fun e field => e.Reads (strTrim field)) entries
        (list.splitOn ',') ∧ allow = entries.map Cidr.slot ∧ entries.length ≤ maxAllow := by
  refine Base.foldlM_invariant (P := fun done allow => ∃ entries : List Cidr,
    List.Forall₂ (fun e field => e.Reads (strTrim field)) entries done ∧
      allow = entries.map Cidr.slot ∧ entries.length ≤ maxAllow) (list.splitOn ',')
    ⟨[], .nil, rfl, Nat.zero_le _⟩ ?_ h
  rintro done field _ allow' ⟨entries, hreads, rfl, -⟩ hfield
  obtain ⟨e, he, rfl, hle⟩ := parseAllowField_spec hfield
  refine ⟨entries ++ [e], List.rel_append hreads (.cons he .nil), by rw [List.map_append]; rfl, ?_⟩
  rw [List.length_append, List.length_map, List.length_singleton] at hle
  rwa [List.length_append, List.length_singleton]

-- ---------------------------------------------------------------------------
-- The loaded list
-- ---------------------------------------------------------------------------

/-- The list is that of the last definition, and empty without one. -/
theorem loadAllow_spec {ini : List IniPair} {allow : List AllowRemote}
    (h : loadAllow ini = .ok allow) :
    (∀ value, iniGet ini global allowRemotes = some value → parseAllow value = some allow) ∧
      (iniGet ini global allowRemotes = none → allow = []) := by
  rw [loadAllow, iniHas, readString] at h
  cases hget : iniGet ini global allowRemotes with
  | none =>
    rw [hget] at h
    cases h
    exact ⟨fun value hvalue => (by cases hvalue), fun _ => rfl⟩
  | some value =>
    rw [hget] at h
    refine ⟨fun value' hvalue => ?_, fun hnone => by cases hnone⟩
    cases hvalue
    simp only [Option.isSome_some, if_true, Option.some_or, Option.getD_some] at h
    split at h
    · cases h
    · next hparse =>
      cases h
      exact hparse

theorem softgredConfigLoadConf_ok {pidFile : CStr} {cli : CliOptions} {file : ConfigFile}
    {st : Settings} (h : softgredConfigLoadConf pidFile cli file = .ok st) : st.Ok := by
  obtain ⟨ini, -, hnames, hallow⟩ := softgredConfigLoadConf_spec h
  obtain ⟨hifname, hstart, hlength, hbridge, hpos⟩ := loadNames_ok hnames
  obtain ⟨hdefined, habsent⟩ := loadAllow_spec hallow
  refine ⟨hifname, hstart, hlength, hpos, hbridge, ?_⟩
  cases hget : iniGet ini global allowRemotes with
  | none =>
    rw [habsent hget]
    exact Nat.zero_le _
  | some value =>
    obtain ⟨entries, -, heq, hle⟩ := parseAllow_spec (hdefined value hget)
    rwa [heq, List.length_map]

/-- The list of slots admits what one of the entries covers. -/
theorem any_slot_iff (entries : List Cidr) (r : UInt32) :
    (entries.map Cidr.slot).any (fun a => (r &&& a.mask) == a.network) = true ↔
      ∃ e ∈ entries, e.Covers r := by
  simp only [List.any_map, List.any_eq_true, Function.comp, beq_iff_eq, Cidr.covers_iff]

/-- A file that is accepted either defines no allowlist, and then every address is
    allowed, or its last definition lists between 1 and 64 networks, and then the
    addresses in one of them are. -/
theorem allowlist_is_membership {pidFile : CStr} {cli : CliOptions} {file : ConfigFile}
    {st : Settings} (h : softgredConfigLoadConf pidFile cli file = .ok st) (localAddr : InAddr) :
    ∃ ini, iniLoad file = .ok ini ∧
      (∀ value, (definitions ini global allowRemotes).getLast? = some value →
        (st.config (softgredConfigLoadConf_ok h) localAddr).allow ≠ [] ∧
        ∃ entries : List Cidr, 1 ≤ entries.length ∧ entries.length ≤ 64 ∧
          List.Forall₂ (fun e field => e.Reads (strTrim field)) entries (value.splitOn ',') ∧
          ∀ r, configRemoteAllowed (st.config (softgredConfigLoadConf_ok h) localAddr) r = true ↔
            ∃ e ∈ entries, e.Covers r) ∧
      (definitions ini global allowRemotes = [] →
        ∀ r, configRemoteAllowed (st.config (softgredConfigLoadConf_ok h) localAddr) r = true) := by
  obtain ⟨ini, hini, -, hallow⟩ := softgredConfigLoadConf_spec h
  obtain ⟨hdefined, habsent⟩ := loadAllow_spec hallow
  refine ⟨ini, hini, fun value hvalue => ?_, fun hnone r => ?_⟩
  · rw [← iniGet_eq] at hvalue
    obtain ⟨entries, hreads, heq, hle⟩ := parseAllow_spec (hdefined value hvalue)
    have hpos : 0 < entries.length := by
      rw [hreads.length_eq]
      exact List.length_pos_of_ne_nil (List.splitOn_ne_nil ',' value)
    have hne : st.allow ≠ [] := by
      rw [heq, ← List.length_pos_iff, List.length_map]
      exact hpos
    refine ⟨hne, entries, hpos, hle, hreads, fun r => ?_⟩
    rw [← any_slot_iff, ← heq, configRemoteAllowed]
    show (st.allow.isEmpty || _) = true ↔ _
    rw [List.isEmpty_eq_false_iff.mpr hne, Bool.false_or]
    rfl
  · rw [configRemoteAllowed]
    show (st.allow.isEmpty || _) = true
    rw [habsent (by rw [iniGet_eq, hnone]; rfl)]
    rfl

/-- Two networks, behind an earlier definition that does not count. -/
def Sample.conf : ConfigFile :=
  .opened ("[global]\ninterface = eth0\nbridge-map = 10@br0\nallow-remotes = 0.0.0.0/0\n" ++
    "# last one wins\nallow-remotes = 10.0.0.0/8, 192.0.2.1\n").toList none

def Sample.cli : CliOptions := ⟨none, none, 0, false⟩

def Sample.settings : Settings where
  ifname := "eth0".toList
  tunnelPrefix := "sgre".toList
  bridge := [⟨"br0".toList, 10⟩]
  allow := [⟨0x0a000000, 0xff000000⟩, ⟨0xc0000201, 0xffffffff⟩]
  pidFile := "/run/softgred.pid".toList
  logFile := "/var/log/softgred.log".toList
  srvBindIn := "lo".toList
  bridgeForce := false
  dbgEnable := false
  dbgTime := false
  dbgMode := 0
  srvPort := 8888
  srvMaxListen := 10

theorem load_conf :
    softgredConfigLoadConf "/run/softgred.pid".toList Sample.cli Sample.conf =
      .ok Sample.settings := by
  decide +kernel

theorem allowlist_is_membership_conf :
    ∃ entries : List Cidr, List.Forall₂ (fun e field => e.Reads (strTrim field)) entries
        ["10.0.0.0/8".toList, " 192.0.2.1".toList] ∧
      ∀ r, configRemoteAllowed
          (Sample.settings.config (softgredConfigLoadConf_ok load_conf) ⟨0⟩) r = true ↔
        ∃ e ∈ entries, e.Covers r := by
  obtain ⟨ini, hini, hdefined, -⟩ := allowlist_is_membership load_conf ⟨0⟩
  have hlast : (iniLoad Sample.conf).map (fun ini => (definitions ini global allowRemotes).getLast?) =
      .ok (some "10.0.0.0/8, 192.0.2.1".toList) := by decide +kernel
  rw [hini] at hlast
  obtain ⟨-, entries, -, -, hreads, hallowed⟩ := hdefined _ (Except.ok.inj hlast)
  have hfields : List.splitOn ',' "10.0.0.0/8, 192.0.2.1".toList =
      ["10.0.0.0/8".toList, " 192.0.2.1".toList] := by decide +kernel
  rw [hfields] at hreads
  exact ⟨entries, hreads, hallowed⟩

end Softgre
