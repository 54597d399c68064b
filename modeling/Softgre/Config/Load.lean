-- SUMMARY: Loading the configuration: its checks, and what they guarantee.
import Softgre.Base.Checked
import Softgre.Base.Folds
import Softgre.Compat.Inet
import Softgre.Config
import Softgre.Config.Ini

/-!
# Loading the configuration

`softgred_config_load_conf` reads its settings from the pairs of the file and
stops at the first check that fails. What it accepts is a `SoftgredConfig`.
-/

namespace Softgre

-- ---------------------------------------------------------------------------
-- Settings
-- ---------------------------------------------------------------------------

/-- `htonl` on a little-endian host. -/
def htonl (x : UInt32) : UInt32 := ntohl x

/-- The mask of a prefix length, in network order. -/
def prefixMask (bits : Nat) : UInt32 :=
  if bits ≠ 0 then htonl ((0xffffffff : UInt32) <<< UInt32.ofNat (32 - bits)) else 0

/-- The prefix length behind the slash of an entry. -/
def prefixBits : Option CStr → Option Nat
  | none => some 32
  | some text =>
    if readsAll text && (strtoul text).value ≤ 32 then some (strtoul text).value else none

/-- One round of the loop of `parse_allow`, over the list as far as it is filled. -/
def parseAllowField (allow : List AllowRemote) (field : CStr) : Option (List AllowRemote) :=
  let entry := strTrim field
  if entry.isEmpty || allow.length ≥ maxAllow then none
  else do
    let (address, slash) := strchr entry '/'
    let bits ← prefixBits slash
    let addr ← inetPton address
    let mask := ntohl (prefixMask bits)
    return allow ++ [⟨ntohl addr.sAddr &&& mask, mask⟩]

def parseAllow (list : CStr) : Option (List AllowRemote) :=
  (list.splitOn ',').foldlM parseAllowField []

/-- One round of the loop of `parse_bridges`. -/
def parseBridgeField (bridge : List TunnelBridge) (field : CStr) : Option (List TunnelBridge) :=
  match strchr (strTrim field) '@' with
  | (_, none) => none
  | (vlan, some at_) =>
    let vlan := strTrim vlan
    let name := strTrim at_
    let id := (strtoul vlan).value
    if bridge.length ≥ maxAttach then none
    else if !readsAll vlan || id < 1 || id > 4094 || !configValidIfname name then none
    else if bridge.any (·.vlanId.toNat == id) then none
    else some (bridge ++ [⟨snprintf ifNamSiz name, UInt16.ofNat id⟩])

def parseBridges (map : CStr) : Option (List TunnelBridge) := do
  let bridge ← (map.splitOn ',').foldlM parseBridgeField []
  if bridge.length > 0 then some bridge else none

/-- What the command line leaves in the configuration before the file is read. -/
structure CliOptions where
  pidFile : Option CStr
  logFile : Option CStr
  dbgMode : Nat
  dbgTime : Bool
deriving DecidableEq, Repr

/-- The fields that `softgred_config_load_conf` fills in, the clock and `uname`
    apart. -/
structure Settings where
  ifname : CStr
  tunnelPrefix : CStr
  bridge : List TunnelBridge
  allow : List AllowRemote
  pidFile : CStr
  logFile : CStr
  srvBindIn : CStr
  bridgeForce : Bool
  dbgEnable : Bool
  dbgTime : Bool
  dbgMode : Nat
  srvPort : Nat
  srvMaxListen : Nat
deriving DecidableEq, Repr

def global : CStr := "global".toList
def service : CStr := "service".toList
def debug : CStr := "debug".toList
def allowRemotes : CStr := "allow-remotes".toList

/-- `read_bool`: the value stays if the key is absent. -/
def readBool (ini : List IniPair) (group : CStr) (key : CStr) (value : Bool) :
    Except CStr Bool :=
  match iniGet ini group key with
  | none => .ok value
  | some text =>
    if text == "true".toList || text == "1".toList then .ok true
    else if text == "false".toList || text == "0".toList then .ok false
    else .error (configSetError ("[".toList ++ group ++ "] ".toList ++ key ++
      " must be true, false, 1 or 0".toList))

/-- `read_uint`: the value stays if the key is absent. -/
def readUint (ini : List IniPair) (group : CStr) (key : CStr) (value min max : Nat) :
    Except CStr Nat :=
  match iniGet ini group key with
  | none => .ok value
  | some text =>
    if readsAll text && (strtoul text).value ≥ min && (strtoul text).value ≤ max then
      .ok (strtoul text).value
    else .error (configSetError ("[".toList ++ group ++ "] ".toList ++ key ++
      " must be between ".toList ++ dec min ++ " and ".toList ++ dec max))

def readString (ini : List IniPair) (group : CStr) (key : CStr) (fallback : Option CStr) :
    Option CStr :=
  (iniGet ini group key).or fallback

/-- What is reported where no check has set `config_error`. -/
def configInvalid : CStr := "invalid interface, prefix, bridge map or log path".toList

def allowError : CStr :=
  configSetError "allow-remotes requires nonempty IPv4 addresses or CIDRs".toList

/-- The allowlist of the file; without the key it is empty. -/
def loadAllow (ini : List IniPair) : Except CStr (List AllowRemote) :=
  if iniHas ini global allowRemotes then
    match parseAllow ((readString ini global allowRemotes (some [])).getD []) with
    | none => .error allowError
    | some allow => .ok allow
  else .ok []

/-- The interface, the prefix of the tunnel names and the bridges. -/
def loadNames (ini : List IniPair) : Option (CStr × CStr × List TunnelBridge) := do
  let ifname ← readString ini global "interface".toList none
  let tunnelPrefix ← readString ini global "tunnel-prefix".toList (some "sgre".toList)
  let map ← readString ini global "bridge-map".toList none
  if configValidIfname ifname && configValidIfname tunnelPrefix && tunnelPrefix.length ≤ 6 then
    return (ifname, tunnelPrefix, ← parseBridges map)
  else none

/-- `strpbrk(path, "\r\n")` finds nothing in an absolute path. -/
def validLogFile (path : CStr) : Bool :=
  path.head? == some '/' && !path.any fun c => c == '\r' || c == '\n'

/-- `softgred_config_load_conf`, with what it reports if it fails. `pidFile` is
    `SOFTGRED_DEFAULT_PIDFILE`, which the build decides. -/
def softgredConfigLoadConf (pidFile : CStr) (cli : CliOptions) (file : ConfigFile) :
    Except CStr Settings := do
  let ini ← iniLoad file
  let (ifname, tunnelPrefix, bridge) ← (loadNames ini).elim (.error configInvalid) .ok
  let allow ← loadAllow ini
  let pidFile := (cli.pidFile.or (readString ini global "pid-file".toList (some pidFile))).getD []
  let logFile := (cli.logFile.or
    (readString ini global "log-file".toList (some "/var/log/softgred.log".toList))).getD []
  if !validLogFile logFile then .error configInvalid
  else
    let srvBindIn := (readString ini service "bind-in".toList (some "lo".toList)).getD []
    if !(configValidIfname srvBindIn || srvBindIn == "any".toList) then .error configInvalid
    else
      let bridgeForce ← readBool ini global "bridge-force".toList false
      let dbgEnable ← readBool ini debug "enable".toList false
      let timestamp ← readBool ini debug "print-time".toList false
      let timestamp ← readBool ini debug "time".toList timestamp
      let srvPort ← readUint ini service "port".toList 8888 1 65535
      let srvMaxListen ← readUint ini service "max-listen".toList 10 1 128
      return {
        ifname, tunnelPrefix, bridge, allow, pidFile, logFile, srvBindIn, bridgeForce, dbgEnable
        dbgTime := cli.dbgTime || timestamp
        dbgMode := if dbgEnable && cli.dbgMode == 0 then 1 else cli.dbgMode
        srvPort, srvMaxListen }

-- ---------------------------------------------------------------------------
-- What is accepted
-- ---------------------------------------------------------------------------

/-- What `parse_bridges` keeps up while it fills the list. -/
structure BridgesOk (bridge : List TunnelBridge) : Prop where
  le : bridge.length ≤ maxAttach
  valid : ∀ b ∈ bridge, configValidIfname b.ifname = true ∧ 1 ≤ b.vlanId.toNat ∧
    b.vlanId.toNat ≤ 4094
  distinct : (bridge.map TunnelBridge.vlanId).Nodup

theorem length_of_configValidIfname {name : CStr} (h : configValidIfname name = true) :
    name.length < ifNamSiz := by
  simp only [configValidIfname, Bool.and_eq_true, decide_eq_true_eq] at h
  exact h.1.1.1.2

/-- The tests that an accepted field has passed, and the entry it adds. -/
theorem parseBridgeField_cases {bridge bridge' : List TunnelBridge} {field : CStr}
    (h : parseBridgeField bridge field = some bridge') :
    ∃ vlan name, strchr (strTrim field) '@' = (vlan, some name) ∧ bridge.length < maxAttach ∧
      readsAll (strTrim vlan) = true ∧ configValidIfname (strTrim name) = true ∧
      ∃ id : UInt16, id.toNat = (strtoul (strTrim vlan)).value ∧ 1 ≤ id.toNat ∧
        id.toNat ≤ 4094 ∧ (∀ b ∈ bridge, b.vlanId ≠ id) ∧ bridge' = bridge ++ [⟨strTrim name, id⟩] := by
  rw [parseBridgeField] at h
  split at h
  · cases h
  · next vlan name hsplit =>
    simp only at h
    split at h
    · cases h
    next hroom =>
    split at h
    · cases h
    next hvalid =>
    split at h
    · cases h
    next hnew =>
    cases h
    simp only [Bool.or_eq_true, not_or, Bool.not_eq_true', decide_eq_true_eq, Bool.not_eq_false]
      at hvalid
    obtain ⟨⟨⟨hreads, hlow⟩, hhigh⟩, hname⟩ := hvalid
    have hid : (UInt16.ofNat (strtoul (strTrim vlan)).value).toNat =
        (strtoul (strTrim vlan)).value := UInt16.toNat_ofNat_of_lt' (by rw [UInt16.size]; omega)
    rw [snprintf_of_length_lt (length_of_configValidIfname hname)]
    refine ⟨vlan, name, hsplit, Nat.lt_of_not_ge hroom, hreads, hname, _, hid, by omega, by omega,
      fun b hb heq => hnew (List.any_eq_true.mpr ⟨b, hb, ?_⟩), rfl⟩
    rw [heq, hid, beq_self_eq_true]

theorem parseBridgeField_ok {bridge bridge' : List TunnelBridge} {field : CStr}
    (hok : BridgesOk bridge) (h : parseBridgeField bridge field = some bridge') :
    BridgesOk bridge' := by
  obtain ⟨vlan, name, -, hroom, -, hname, id, -, hlow, hhigh, hnew, rfl⟩ :=
    parseBridgeField_cases h
  refine ⟨?_, ?_, ?_⟩
  · rw [List.length_append, List.length_singleton]
    exact hroom
  · rw [List.forall_mem_append, List.forall_mem_singleton]
    exact ⟨hok.valid, hname, hlow, hhigh⟩
  · rw [List.map_append, List.map_singleton, List.nodup_append]
    refine ⟨hok.distinct, List.nodup_cons.mpr ⟨List.not_mem_nil, List.nodup_nil⟩, ?_⟩
    intro vid hvid vid' hvid' heq
    obtain ⟨b, hb, rfl⟩ := List.mem_map.mp hvid
    exact hnew b hb (heq.trans (List.mem_singleton.mp hvid'))

theorem parseBridges_ok {map : CStr} {bridge : List TunnelBridge}
    (h : parseBridges map = some bridge) : BridgesOk bridge ∧ 0 < bridge.length := by
  obtain ⟨bridge', hfold, h⟩ := Option.bind_eq_some_iff.mp h
  split at h
  · next hpos =>
    cases h
    refine ⟨?_, hpos⟩
    exact Base.foldlM_invariant (P := fun _ bridge => BridgesOk bridge) (map.splitOn ',')
      ⟨Nat.zero_le _, by simp, by simp⟩ (fun _ _ _ _ hok h => parseBridgeField_ok hok h) hfold
  · cases h

/-- What `softgred_config_load_conf` checks of the settings that provisioning reads. -/
structure Settings.Ok (st : Settings) : Prop where
  ifname_valid : configValidIfname st.ifname = true
  prefix_valid : configValidIfname st.tunnelPrefix = true
  prefix_length : st.tunnelPrefix.length ≤ 6
  bridge_pos : 0 < st.bridge.length
  bridge_ok : BridgesOk st.bridge
  allow_le : st.allow.length ≤ maxAllow

/-- The configuration that provisioning works with, on the address of the interface. -/
def Settings.config (st : Settings) (hok : st.Ok) (localAddr : InAddr) : SoftgredConfig where
  ifname := st.ifname
  tunnelPrefix := st.tunnelPrefix
  bridge := st.bridge
  allow := st.allow
  localAddr := localAddr
  ifname_valid := hok.ifname_valid
  prefix_valid := hok.prefix_valid
  prefix_length := hok.prefix_length
  bridge_pos := hok.bridge_pos
  bridge_le := hok.bridge_ok.le
  bridge_valid := hok.bridge_ok.valid
  bridge_distinct := hok.bridge_ok.distinct
  allow_le := hok.allow_le

theorem loadNames_ok {ini : List IniPair} {ifname tunnelPrefix : CStr} {bridge : List TunnelBridge}
    (h : loadNames ini = some (ifname, tunnelPrefix, bridge)) :
    configValidIfname ifname = true ∧ configValidIfname tunnelPrefix = true ∧
      tunnelPrefix.length ≤ 6 ∧ BridgesOk bridge ∧ 0 < bridge.length := by
  obtain ⟨ifname', -, h⟩ := Option.bind_eq_some_iff.mp h
  obtain ⟨start, -, h⟩ := Option.bind_eq_some_iff.mp h
  obtain ⟨map, -, h⟩ := Option.bind_eq_some_iff.mp h
  split at h
  · next hvalid =>
    obtain ⟨bridge', hbridge, h⟩ := Option.bind_eq_some_iff.mp h
    cases h
    simp only [Bool.and_eq_true, decide_eq_true_eq] at hvalid
    exact ⟨hvalid.1.1, hvalid.1.2, hvalid.2, parseBridges_ok hbridge⟩
  · cases h

/-- The parts of a load that succeeds. -/
theorem softgredConfigLoadConf_spec {pidFile : CStr} {cli : CliOptions} {file : ConfigFile}
    {st : Settings} (h : softgredConfigLoadConf pidFile cli file = .ok st) :
    ∃ ini, iniLoad file = .ok ini ∧ loadNames ini = some (st.ifname, st.tunnelPrefix, st.bridge) ∧
      loadAllow ini = .ok st.allow := by
  obtain ⟨ini, hini, h⟩ := Base.bind_eq_ok_iff.mp h
  obtain ⟨⟨ifname, start, bridge⟩, hnames, h⟩ := Base.bind_eq_ok_iff.mp h
  obtain ⟨allow, hallow, h⟩ := Base.bind_eq_ok_iff.mp h
  have hloaded : loadNames ini = some (ifname, start, bridge) := by
    cases hcase : loadNames ini with
    | none =>
      rw [hcase] at hnames
      cases hnames
    | some names =>
      rw [hcase] at hnames
      cases hnames
      rfl
  refine ⟨ini, hini, ?_⟩
  dsimp only at h
  split at h
  · cases h
  split at h
  · cases h
  obtain ⟨_, -, h⟩ := Base.bind_eq_ok_iff.mp h
  obtain ⟨_, -, h⟩ := Base.bind_eq_ok_iff.mp h
  obtain ⟨_, -, h⟩ := Base.bind_eq_ok_iff.mp h
  obtain ⟨_, -, h⟩ := Base.bind_eq_ok_iff.mp h
  obtain ⟨_, -, h⟩ := Base.bind_eq_ok_iff.mp h
  obtain ⟨_, -, h⟩ := Base.bind_eq_ok_iff.mp h
  cases h
  exact ⟨hloaded, hallow⟩

end Softgre
