-- SUMMARY: The part of the configuration that provisioning reads, with what loading guarantees.
import Softgre.Compat

/-!
# Configuration

`SoftgredConfig` holds the fields of `struct softgred_config` that the
provisioning path reads, together with the checks `softgred_config_load_conf`
makes before it accepts a file. A value of this type is an accepted
configuration.
-/

namespace Softgre

/-- `struct tunnel_bridge`. -/
structure TunnelBridge where
  ifname : CStr
  vlanId : UInt16
deriving DecidableEq, Repr

/-- `struct allow_remote`, in host byte order. -/
structure AllowRemote where
  network : UInt32
  mask : UInt32
deriving DecidableEq, Repr

def maxAttach : Nat := 10
def maxSlots : Nat := 4096
def maxClients : Nat := 1024
def maxAllow : Nat := 64

def isAlnum (c : Char) : Bool :=
  ('0' ≤ c ∧ c ≤ '9') || ('a' ≤ c ∧ c ≤ 'z') || ('A' ≤ c ∧ c ≤ 'Z')

def configValidIfname (name : CStr) : Bool :=
  !name.isEmpty && decide (name.length < ifNamSiz) && name != ['.'] && name != ['.', '.'] &&
    name.all fun c => isAlnum c || c == '_' || c == '-' || c == '.'

structure SoftgredConfig where
  ifname : CStr
  tunnelPrefix : CStr
  bridge : List TunnelBridge
  allow : List AllowRemote
  localAddr : InAddr
  ifname_valid : configValidIfname ifname = true
  prefix_valid : configValidIfname tunnelPrefix = true
  prefix_length : tunnelPrefix.length ≤ 6
  bridge_pos : 0 < bridge.length
  bridge_le : bridge.length ≤ maxAttach
  bridge_valid : ∀ b ∈ bridge, configValidIfname b.ifname = true ∧ 1 ≤ b.vlanId.toNat ∧
    b.vlanId.toNat ≤ 4094
  bridge_distinct : (bridge.map TunnelBridge.vlanId).Nodup
  allow_le : allow.length ≤ maxAllow

/-- True when no allowlist is configured, or the remote, in host byte order, is
    in it. -/
def configRemoteAllowed (cfg : SoftgredConfig) (remote : UInt32) : Bool :=
  cfg.allow.isEmpty || cfg.allow.any fun a => (remote &&& a.mask) == a.network

/-- The name of the tunnel in slot `id`. -/
def tunnelName (cfg : SoftgredConfig) (id : Nat) : CStr :=
  snprintf ifNamSiz (cfg.tunnelPrefix ++ dec id)

/-- The slot names fit their buffers, so nothing is cut off. -/
theorem tunnelName_eq (cfg : SoftgredConfig) {id : Nat} (hid : id < maxSlots) :
    tunnelName cfg id = cfg.tunnelPrefix ++ dec id := by
  apply snprintf_of_length_lt
  have hdec : (dec id).length ≤ 4 := length_dec_le (by decide) (Nat.lt_of_lt_of_le hid (by decide))
  have hstart := cfg.prefix_length
  simp only [List.length_append, ifNamSiz]
  omega

theorem tunnelName_injective (cfg : SoftgredConfig) {i j : Nat} (hi : i < maxSlots)
    (hj : j < maxSlots) (h : tunnelName cfg i = tunnelName cfg j) : i = j := by
  rw [tunnelName_eq cfg hi, tunnelName_eq cfg hj] at h
  exact dec_injective (List.append_cancel_left h)

end Softgre
