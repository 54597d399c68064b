-- SUMMARY: Tunnel names, VLAN names and firewall patterns: nothing is cut off and nothing collides.
import Softgre.Config
import Softgre.Iface.Links
import Softgre.Iface.Ebtables

/-!
# Names

The names the daemon gives its links and the patterns it puts into rules are
short enough for their buffers, so they are read off the printed text. The dot
behind the slot number then tells the tunnels apart, whatever the configured
prefix holds.
-/

namespace Softgre

theorem length_tunnelName_le (cfg : SoftgredConfig) {id : Nat} (hid : id < maxSlots) :
    (tunnelName cfg id).length ≤ 10 := by
  have hdec : (dec id).length ≤ 4 := length_dec_le (by decide) (Nat.lt_of_lt_of_le hid (by decide))
  have hstart := cfg.prefix_length
  rw [tunnelName_eq cfg hid, List.length_append]
  omega

theorem vlanPattern_eq {name : CStr} (h : name.length < ifNamSiz) :
    vlanPattern name = name ++ ['.', '+'] := by
  apply snprintf_of_length_lt
  rw [List.length_append]
  exact Nat.add_lt_add_right h 2

theorem vlanPattern_injective {a b : CStr} (ha : a.length < ifNamSiz) (hb : b.length < ifNamSiz)
    (h : vlanPattern a = vlanPattern b) : a = b := by
  rw [vlanPattern_eq ha, vlanPattern_eq hb] at h
  exact List.append_cancel_right h

theorem vlanPattern_tunnelName_injective (cfg : SoftgredConfig) {i j : Nat} (hi : i < maxSlots)
    (hj : j < maxSlots) (h : vlanPattern (tunnelName cfg i) = vlanPattern (tunnelName cfg j)) :
    tunnelName cfg i = tunnelName cfg j :=
  vlanPattern_injective (Nat.lt_of_le_of_lt (length_tunnelName_le cfg hi) (by decide))
    (Nat.lt_of_le_of_lt (length_tunnelName_le cfg hj) (by decide)) h

theorem vlanName_eq (cfg : SoftgredConfig) {id : Nat} (hid : id < maxSlots) {vlan : UInt16}
    (hvlan : vlan.toNat ≤ 4094) :
    vlanName (tunnelName cfg id) vlan = tunnelName cfg id ++ '.' :: dec vlan.toNat := by
  apply snprintf_of_length_lt
  have hname := length_tunnelName_le cfg hid
  have hdec : (dec vlan.toNat).length ≤ 4 := length_dec_le (by decide) (by omega)
  simp only [vlanText, List.length_append, List.length_cons, ifNamSiz]
  omega

theorem dot_notMem_dec (n : Nat) : '.' ∉ dec n := fun h => by
  have := Nat.isDigit_of_mem_toDigits (by decide) (by decide) h
  cases this

/-- A VLAN link never has the name of a tunnel. -/
theorem vlanName_ne_tunnelName (cfg : SoftgredConfig) {i j : Nat} (hi : i < maxSlots)
    (hj : j < maxSlots) {vlan : UInt16} (hvlan : vlan.toNat ≤ 4094) :
    vlanName (tunnelName cfg i) vlan ≠ tunnelName cfg j := by
  intro h
  rw [vlanName_eq cfg hi hvlan, tunnelName_eq cfg hi, tunnelName_eq cfg hj, List.append_assoc] at h
  have hdot : '.' ∈ dec j := by
    rw [← List.append_cancel_left h]
    simp
  exact dot_notMem_dec j hdot

theorem dot_dec_inj {i j : Nat} {tail : CStr} {vlan : Nat} :
    dec j ++ '.' :: dec vlan = dec i ++ '.' :: tail ↔ i = j ∧ dec vlan = tail := by
  rw [List.append_cons_inj_of_notMem (dot_notMem_dec j) (dot_notMem_dec vlan)]
  constructor
  · rintro ⟨hname, -, htail⟩
    exact ⟨(dec_injective hname).symm, htail⟩
  · rintro ⟨rfl, htail⟩
    exact ⟨rfl, rfl, htail⟩

theorem vlanName_injective (cfg : SoftgredConfig) {i j : Nat} (hi : i < maxSlots)
    (hj : j < maxSlots) {v w : UInt16} (hv : v.toNat ≤ 4094) (hw : w.toNat ≤ 4094)
    (h : vlanName (tunnelName cfg i) v = vlanName (tunnelName cfg j) w) : i = j ∧ v = w := by
  rw [vlanName_eq cfg hi hv, vlanName_eq cfg hj hw, tunnelName_eq cfg hi, tunnelName_eq cfg hj,
    List.append_assoc, List.append_assoc] at h
  obtain ⟨hij, hvlan⟩ := dot_dec_inj.mp (List.append_cancel_left h)
  exact ⟨hij.symm, UInt16.toNat_inj.mp (dec_injective hvlan)⟩

-- ---------------------------------------------------------------------------
-- Interface patterns of ebtables
-- ---------------------------------------------------------------------------

/-- How `ebtables` compares an interface name with the name in a rule: a `+` at
    the end stands for any continuation. -/
def patternMatches (pattern name : CStr) : Bool :=
  if pattern.getLast? = some '+' then pattern.dropLast.isPrefixOf name else pattern == name

theorem patternMatches_vlanPattern (cfg : SoftgredConfig) {i : Nat} (hi : i < maxSlots)
    (text : CStr) :
    patternMatches (vlanPattern (tunnelName cfg i)) (cfg.tunnelPrefix ++ text) ↔
      dec i ++ ['.'] <+: text := by
  have hname : (tunnelName cfg i).length < ifNamSiz :=
    Nat.lt_of_le_of_lt (length_tunnelName_le cfg hi) (by decide)
  have hsplit : tunnelName cfg i ++ ['.', '+'] =
      (cfg.tunnelPrefix ++ (dec i ++ ['.'])) ++ ['+'] := by
    simp [tunnelName_eq cfg hi]
  rw [patternMatches, vlanPattern_eq hname, hsplit, List.getLast?_concat, if_pos rfl,
    List.dropLast_concat, List.isPrefixOf_iff_prefix, List.prefix_append_right_inj]

theorem patternMatches_vlanName (cfg : SoftgredConfig) {i j : Nat} (hi : i < maxSlots)
    (hj : j < maxSlots) {w : UInt16} (hw : w.toNat ≤ 4094) :
    patternMatches (vlanPattern (tunnelName cfg i)) (vlanName (tunnelName cfg j) w) ↔ i = j := by
  rw [vlanName_eq cfg hj hw, tunnelName_eq cfg hj, List.append_assoc,
    patternMatches_vlanPattern cfg hi]
  constructor
  · rintro ⟨tail, htail⟩
    rw [List.append_assoc, List.singleton_append] at htail
    exact (dot_dec_inj.mp htail.symm).1
  · rintro rfl
    exact ⟨dec w.toNat, by simp⟩

theorem not_patternMatches_tunnelName (cfg : SoftgredConfig) {i j : Nat} (hi : i < maxSlots)
    (hj : j < maxSlots) :
    ¬ patternMatches (vlanPattern (tunnelName cfg i)) (tunnelName cfg j) := by
  rw [tunnelName_eq cfg hj, patternMatches_vlanPattern cfg hi]
  intro hstart
  exact dot_notMem_dec j (hstart.subset (by simp))

/-- Under every accepted prefix, names are printed whole and determine the
    tunnel, and the pattern of a tunnel stands for exactly its VLAN links. -/
theorem names_isolate_tunnels (cfg : SoftgredConfig) {i j : Nat} (hi : i < maxSlots)
    (hj : j < maxSlots) {v w : UInt16} (hv : 1 ≤ v.toNat ∧ v.toNat ≤ 4094)
    (hw : 1 ≤ w.toNat ∧ w.toNat ≤ 4094) :
    tunnelName cfg i = cfg.tunnelPrefix ++ dec i ∧
      vlanName (tunnelName cfg i) v = cfg.tunnelPrefix ++ dec i ++ '.' :: dec v.toNat ∧
      vlanPattern (tunnelName cfg i) = cfg.tunnelPrefix ++ dec i ++ ['.', '+'] ∧
      (vlanName (tunnelName cfg i) v = vlanName (tunnelName cfg j) w → i = j ∧ v = w) ∧
      vlanName (tunnelName cfg i) v ≠ tunnelName cfg j ∧
      (patternMatches (vlanPattern (tunnelName cfg i)) (vlanName (tunnelName cfg j) w) ↔ i = j) ∧
      ¬ patternMatches (vlanPattern (tunnelName cfg i)) (tunnelName cfg j) := by
  have hname : (tunnelName cfg i).length < ifNamSiz :=
    Nat.lt_of_le_of_lt (length_tunnelName_le cfg hi) (by decide)
  refine ⟨tunnelName_eq cfg hi, ?_, ?_, vlanName_injective cfg hi hj hv.2 hw.2,
    vlanName_ne_tunnelName cfg hi hj hv.2, patternMatches_vlanName cfg hi hj hw.2,
    not_patternMatches_tunnelName cfg hi hj⟩
  · rw [vlanName_eq cfg hi hv.2, tunnelName_eq cfg hi]
  · rw [vlanPattern_eq hname, tunnelName_eq cfg hi]

/-- A prefix that ends in a dot and a digit, as long as allowed. -/
def Sample.dotted : SoftgredConfig where
  ifname := ['e', 't', 'h', '1']
  tunnelPrefix := ['s', 'g', '-', 'a', '.', '1']
  bridge := [⟨['b', 'r', '1'], 200⟩]
  allow := [⟨0x0a000000, 0xff000000⟩]
  localAddr := InAddr.ofBytes 10 0 0 1
  ifname_valid := by decide
  prefix_valid := by decide
  prefix_length := by decide
  bridge_pos := by decide
  bridge_le := by decide
  bridge_valid := by decide
  bridge_distinct := by decide
  allow_le := by decide

/-- Slots 1 and 10, where the one name continues the other. -/
theorem names_isolate_tunnels_dotted :
    ¬ patternMatches (vlanPattern (tunnelName Sample.dotted 1))
        (vlanName (tunnelName Sample.dotted 10) 4094) ∧
      ¬ patternMatches (vlanPattern (tunnelName Sample.dotted 1))
        (tunnelName Sample.dotted 10) := by
  obtain ⟨-, -, -, -, -, hvlan, htunnel⟩ :=
    names_isolate_tunnels Sample.dotted (i := 1) (j := 10) (by decide) (by decide) (v := 1)
      (w := 4094) (by decide) (by decide)
  exact ⟨mt hvlan.mp (by decide), htunnel⟩

end Softgre
