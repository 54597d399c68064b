-- SUMMARY: The link operations down to the bytes they send, as a refinement of the commands.
import Softgre.Iface.Wire
import Softgre.Iface.Links

/-!
# Link operations over bytes

Here a link operation looks up the indices of its links, fills a request and sends
it. The kernel reads the request, finds the links behind the indices, and carries
out what it is asked for. On every world this comes to the same as the operations
of `Softgre.Iface.Links`, which name the command.
-/

namespace Softgre

open Base

-- ---------------------------------------------------------------------------
-- Indices
-- ---------------------------------------------------------------------------

/-- Few enough links for an index each. -/
def Kernel.Indexable (k : Kernel) : Prop := k.links.length < 2 ^ 31

/-- How the kernel numbers its links: 0 is no link, no two links share an index, and
    a link keeps its index when another is added. -/
structure Numbering where
  index : Kernel → CStr → UInt32
  ne_zero_iff : ∀ {k name}, k.Indexable → (index k name ≠ 0 ↔ k.hasLink name = true)
  injective : ∀ {k a b}, k.Indexable → k.hasLink a = true → k.hasLink b = true →
    index k a = index k b → a = b
  kept : ∀ {k l name}, (k.addLink l).Indexable → k.hasLink name = true →
    index (k.addLink l) name = index k name

/-- The link behind an index. -/
def Numbering.nameOf (num : Numbering) (k : Kernel) (i : Nat) : Option CStr :=
  (k.links.find? fun l => (num.index k l.name).toNat = i).map Link.name

/-- The command a request comes to. A bridge that is made or brought up is not one
    of the commands. -/
def Ask.cmd (num : Numbering) (k : Kernel) : Ask → Option Cmd
  | .gretap name link loc rem _ => do return .newGretap name (← num.nameOf k link) loc rem
  | .vlan name link vid => do return .newVlan name (← num.nameOf k link) (UInt16.ofNat vid)
  | .enslave index master => do
    return .setMaster (← num.nameOf k index) (← num.nameOf k master)
  | .remove index => do return .delLink (← num.nameOf k index)
  | .bridge _ | .raise _ | .nolink => none

theorem Numbering.nameOf_index (num : Numbering) {k : Kernel} {name : CStr} (hk : k.Indexable)
    (hlink : k.hasLink name = true) : num.nameOf k (num.index k name).toNat = some name := by
  obtain ⟨l, hl, hname⟩ := Kernel.hasLink_iff.mp hlink
  rw [nameOf]
  cases hfind : k.links.find? fun l => (num.index k l.name).toNat = (num.index k name).toNat with
  | none =>
    have hnot := List.find?_eq_none.mp hfind l hl
    rw [hname] at hnot
    exact absurd (decide_eq_true rfl) hnot
  | some found =>
    have hsame := List.find?_some hfind
    rw [decide_eq_true_iff] at hsame
    have hfound : k.hasLink found.name = true :=
      Kernel.hasLink_iff.mpr ⟨found, List.mem_of_find?_eq_some hfind, rfl⟩
    exact congrArg some (num.injective hk hfound hlink (UInt32.toNat_inj.mp hsame))

-- ---------------------------------------------------------------------------
-- The operations
-- ---------------------------------------------------------------------------

/-- A program that may fault. -/
abbrev WireM := StateT World (Except Fault)

def WireM.of {α : Type} (m : WorldM α) : WireM α := fun w => .ok (m.run w)

namespace Wire

variable (num : Numbering) (e : Endian) (env : Env)

/-- `if_nametoindex`: 0 where there is no such link, and where it could not ask. -/
def ifNametoindex (name : CStr) : WireM UInt32 := do
  let w ← get
  let index := if (env (.lookup name) w.moment).ok then num.index w.kernel name else 0
  if index = 0 then
    modify fun w => { w with errno := if w.kernel.hasLink name then EMFILE else ENODEV }
  return index

/-- Fail with an error, without a trace. -/
def failWith (err : Errno) : WireM Ret := do
  modify fun w => { w with errno := err }
  return .fail

/-- `link_send`: the kernel turns a request away that names no link, or that it does not
    understand. -/
def linkSend (req : LinkRequest) : WireM Ret := do
  if req.ask e = some .nolink then WireM.of (unresolved (.lookup []) ENODEV)
  else
    match req.ask e >>= Ask.cmd num (← get).kernel with
    | some c => WireM.of (Softgre.linkSend env c)
    | none => failWith EINVAL

/-- Fill a request and send it. -/
def sendBy (send : LinkRequest → WireM Ret) (m : Requests LinkRequest) : WireM Ret := do
  match ← m.run with
  | .ok req => send req
  | .error err => failWith err

def send (m : Requests LinkRequest) : WireM Ret := sendBy (linkSend num e env) m

def ifaceGreAdd (name kind dev : CStr) (loc rem : InAddr) : WireM Ret := do
  let index ← ifNametoindex num env dev
  if index = 0 then WireM.of (unresolved (.lookup dev) ENODEV)
  else send num e env (greAddRequest e name kind index loc rem)

def ifaceGreDel (name : CStr) : WireM Ret := do
  let index ← ifNametoindex num env name
  if index = 0 then WireM.of (unresolved (.delLink name) ENODEV)
  else linkSend num e env (greDelRequest e index)

def setMaster (index master : UInt32) : WireM Ret :=
  send num e env (setMasterRequest e index master)

def ifaceBridgeAttach (gre bridge : CStr) (vlan : UInt16) : WireM Ret := do
  let parent ← ifNametoindex num env gre
  let master ← ifNametoindex num env bridge
  if ifNamSiz ≤ (vlanText gre vlan).length || parent = 0 || master = 0 then
    WireM.of (unresolved (.lookup gre) EINVAL)
  else
    match ← send num e env (vlanAddRequest e (vlanName gre vlan) parent vlan) with
    | .fail => return .fail
    | .ok => setMaster num e env (← ifNametoindex num env (vlanName gre vlan)) master

/-- `link_send` for the requests about bridges, which the kernel answers with `reply`. -/
def bridgeSend (reply : BridgeReply) (req : LinkRequest) : WireM Ret := do
  match req.ask e with
  | some (.bridge name) => WireM.of (createBridge reply name)
  | some (.raise index) =>
    if (num.nameOf (← get).kernel index).isSome then WireM.of (raiseBridge reply)
    else failWith ENODEV
  | _ => failWith EINVAL

def ifaceBridgePrepare (reply : BridgeReply) (create : Bool) (name : CStr) : WireM Ret := do
  let index ← ifNametoindex num env name
  if index ≠ 0 then
    if reply.isBridge then sendBy (bridgeSend num e reply) (bridgeUpRequest e index)
    else failWith EINVAL
  else if create then sendBy (bridgeSend num e reply) (bridgeCreateRequest e name)
  else failWith ENODEV

end Wire

-- ---------------------------------------------------------------------------
-- Refinement
-- ---------------------------------------------------------------------------

section Refines

variable {num : Numbering} {e : Endian} {env : Env} {name : CStr} {w : World}

theorem WireM.bind_eq {α β : Type} {m : WireM α} {f : α → WireM β} {a : α} {w' : World}
    (hm : m w = .ok (a, w')) : (m >>= f) w = f a w' := by
  show (m w >>= _) = _
  rw [hm]
  rfl

/-- A name resolves to the link there is. -/
def World.finds (env : Env) (w : World) (name : CStr) : Bool :=
  w.kernel.hasLink name && (env (.lookup name) w.moment).ok

/-- The world after a name was looked up. -/
def World.looked (env : Env) (w : World) (name : CStr) : World :=
  if w.finds env name then w
  else { w with errno := if w.kernel.hasLink name then EMFILE else ENODEV }

theorem World.kernel_looked (w : World) (name : CStr) : (w.looked env name).kernel = w.kernel := by
  rw [looked]
  split <;> rfl

theorem World.finds_looked (w : World) (name other : CStr) :
    (w.looked env name).finds env other = w.finds env other := by
  rw [looked]
  split <;> rfl

theorem World.looked_of_finds (h : w.finds env name = true) : w.looked env name = w := if_pos h

theorem World.hasLink_of_finds (h : w.finds env name = true) : w.kernel.hasLink name = true :=
  (Bool.and_eq_true_iff.mp h).1

/-- What a lookup returns. -/
def Numbering.found (num : Numbering) (env : Env) (w : World) (name : CStr) : UInt32 :=
  if w.finds env name then num.index w.kernel name else 0

theorem Numbering.found_eq_zero_iff (num : Numbering) (env : Env) (name : CStr)
    (hw : w.kernel.Indexable) :
    num.found env w name = 0 ↔ w.finds env name = false := by
  rw [found]
  by_cases hfinds : w.finds env name = true
  · have hne : num.index w.kernel name ≠ 0 :=
      (num.ne_zero_iff hw).mpr (World.hasLink_of_finds hfinds)
    simp [hfinds, hne]
  · simp [hfinds]

theorem ifNametoindex_bind {α : Type} (name : CStr) (f : Bool → WorldM α) (w : World) :
    (Softgre.ifNametoindex env name >>= f).run w =
      (f (w.finds env name)).run (w.looked env name) := by
  have hrun : (Softgre.ifNametoindex env name).run w = (w.finds env name, w.looked env name) := by
    show StateT.run (if w.finds env name then _ else _) w = _
    rw [World.looked]
    by_cases hfinds : w.finds env name = true
    · rw [if_pos hfinds, if_pos hfinds, hfinds]
      rfl
    · rw [if_neg hfinds, if_neg hfinds, Bool.of_not_eq_true hfinds]
      rfl
  rw [StateT.run_bind, hrun]
  rfl

theorem Wire.ifNametoindex_eq (hw : w.kernel.Indexable) :
    Wire.ifNametoindex num env name w = .ok (num.found env w name, w.looked env name) := by
  have hindex : (if (env (.lookup name) w.moment).ok then num.index w.kernel name else 0) =
      num.found env w name := by
    rw [Numbering.found, World.finds]
    by_cases hlink : w.kernel.hasLink name = true
    · rw [hlink, Bool.true_and]
    · have hzero : num.index w.kernel name = 0 :=
        not_not.mp (mt (num.ne_zero_iff hw).mp hlink)
      simp [hzero, hlink]
  simp only [Wire.ifNametoindex]
  refine (WireM.bind_eq rfl).trans ?_
  rw [hindex, World.looked]
  by_cases hfinds : w.finds env name = true
  · have hne : num.found env w name ≠ 0 := by
      rw [ne_eq, num.found_eq_zero_iff env name hw, hfinds]
      exact Bool.true_eq_false_eq_False
    rw [if_neg hne, if_pos hfinds]
    rfl
  · rw [if_pos ((num.found_eq_zero_iff env name hw).mpr (Bool.of_not_eq_true hfinds)), if_neg hfinds]
    rfl

theorem Wire.linkSend_eq {req : LinkRequest} {ask : Ask} {c : Cmd} (hask : req.ask e = some ask)
    (hc : ask.cmd num w.kernel = some c) :
    Wire.linkSend num e env req w = .ok ((Softgre.linkSend env c).run w) := by
  have hnot : req.ask e ≠ some .nolink := by
    rw [hask]
    rintro ⟨⟩
    cases hc
  have hread : (req.ask e >>= Ask.cmd num w.kernel) = some c := by
    rw [hask]
    exact hc
  rw [Wire.linkSend, if_neg hnot]
  refine (WireM.bind_eq rfl).trans ?_
  rw [hread]
  rfl

theorem Wire.sendBy_eq {m : Requests LinkRequest} {ask : Ask} {send : LinkRequest → WireM Ret}
    {out : Ret × World} (hm : Makes m fun req => req.ask e = some ask)
    (hsend : ∀ req : LinkRequest, req.ask e = some ask → send req w = .ok out) :
    Wire.sendBy send m w = .ok out := by
  obtain ⟨req, hrun, hask⟩ := hm
  have hlift : (monadLift m.run : WireM (Except Errno LinkRequest)) w = .ok (.ok req, w) := by
    rw [hrun]
    rfl
  exact (WireM.bind_eq hlift).trans (hsend req hask)

theorem Wire.send_eq {m : Requests LinkRequest} {ask : Ask} {c : Cmd}
    (hm : Makes m fun req => req.ask e = some ask) (hc : ask.cmd num w.kernel = some c) :
    Wire.send num e env m w = .ok ((Softgre.linkSend env c).run w) :=
  Wire.sendBy_eq hm fun _ hask => Wire.linkSend_eq hask hc

theorem Wire.ifaceGreAdd_eq {dev : CStr} (hw : w.kernel.Indexable) (hname : CStr.Plain name)
    (hlen : name.length < ifNamSiz) (loc rem : InAddr) :
    Wire.ifaceGreAdd num e env name kindGretap dev loc rem w =
      .ok ((Softgre.ifaceGreAdd env name dev loc rem).run w) := by
  have hzero := num.found_eq_zero_iff env dev hw
  refine (WireM.bind_eq (Wire.ifNametoindex_eq hw)).trans ?_
  rw [Softgre.ifaceGreAdd, ifNametoindex_bind]
  by_cases hfinds : w.finds env dev = true
  · have hlink := World.hasLink_of_finds hfinds
    rw [if_neg (by rw [hzero, hfinds]; exact Bool.noConfusion), if_pos hfinds,
      World.looked_of_finds hfinds, Numbering.found, if_pos hfinds]
    exact Wire.send_eq (greAddRequest_makes hname hlen _ loc rem)
      (by rw [Ask.cmd, num.nameOf_index hw hlink]; rfl)
  · rw [if_pos (hzero.mpr (Bool.of_not_eq_true hfinds)), if_neg hfinds]
    rfl

theorem Wire.ifaceGreDel_eq (hw : w.kernel.Indexable) :
    Wire.ifaceGreDel num e env name w = .ok ((Softgre.ifaceGreDel env name).run w) := by
  have hzero := num.found_eq_zero_iff env name hw
  refine (WireM.bind_eq (Wire.ifNametoindex_eq hw)).trans ?_
  rw [Softgre.ifaceGreDel, ifNametoindex_bind]
  by_cases hfinds : w.finds env name = true
  · have hlink := World.hasLink_of_finds hfinds
    have hne : num.index w.kernel name ≠ 0 := (num.ne_zero_iff hw).mpr hlink
    rw [Numbering.found, if_pos hfinds, if_neg hne, if_pos hfinds, World.looked_of_finds hfinds]
    exact Wire.linkSend_eq (greDelRequest_ask _ hne)
      (by rw [Ask.cmd, num.nameOf_index hw hlink]; rfl)
  · rw [if_pos (hzero.mpr (Bool.of_not_eq_true hfinds)), if_neg hfinds]
    rfl

theorem Wire.setMaster_eq {bridge : CStr} (hw : w.kernel.Indexable)
    (hbridge : w.kernel.hasLink bridge = true) :
    (Wire.ifNametoindex num env name >>= fun index =>
      Wire.setMaster num e env index (num.index w.kernel bridge)) w =
      .ok ((Softgre.setMaster env name bridge).run w) := by
  refine (WireM.bind_eq (Wire.ifNametoindex_eq hw)).trans ?_
  rw [Softgre.setMaster, ifNametoindex_bind]
  by_cases hfinds : w.finds env name = true
  · have hlink := World.hasLink_of_finds hfinds
    have hne : num.index w.kernel name ≠ 0 := (num.ne_zero_iff hw).mpr hlink
    rw [Numbering.found, if_pos hfinds, if_pos hfinds, World.looked_of_finds hfinds]
    refine Wire.send_eq (setMasterRequest_makes _ _) ?_
    rw [if_neg hne, Ask.cmd, num.nameOf_index hw hlink, num.nameOf_index hw hbridge]
    rfl
  · rw [Numbering.found, if_neg hfinds, if_neg hfinds]
    -- the request names no link
    refine Wire.sendBy_eq (setMasterRequest_makes _ _) fun req hask => ?_
    rw [if_pos rfl] at hask
    rw [Wire.linkSend, if_pos hask]
    rfl

theorem plain_vlanName {gre : CStr} (hgre : CStr.Plain gre) (vlan : UInt16) :
    CStr.Plain (vlanName gre vlan) := by
  intro c hc
  rw [vlanName, snprintf, vlanText] at hc
  rcases List.mem_append.mp (List.mem_of_mem_take hc) with hc | hc
  · exact hgre c hc
  · rcases List.mem_cons.mp hc with rfl | hc
    · decide
    · have hdigit := Nat.isDigit_of_mem_toDigits (by decide) (by decide) hc
      rw [Char.isDigit, Bool.and_eq_true, decide_eq_true_iff, decide_eq_true_iff] at hdigit
      exact ⟨Nat.lt_of_lt_of_le (by decide) hdigit.1, Nat.lt_of_le_of_lt hdigit.2 (by decide)⟩

theorem Wire.ifaceBridgeAttach_eq {gre bridge : CStr} (hw : w.kernel.links.length + 1 < 2 ^ 31)
    (hgre : CStr.Plain gre) (vlan : UInt16) :
    Wire.ifaceBridgeAttach num e env gre bridge vlan w =
      .ok ((Softgre.ifaceBridgeAttach env gre bridge vlan).run w) := by
  have hk : w.kernel.Indexable := Nat.lt_of_succ_lt hw
  have hkernel : (w.looked env gre).kernel = w.kernel := w.kernel_looked gre
  have hzero : ∀ {w : World} {name}, w.kernel.Indexable →
      decide (num.found env w name = 0) = !w.finds env name := by
    intro w name hw
    rw [Bool.eq_iff_iff, decide_eq_true_iff, num.found_eq_zero_iff env name hw, Bool.not_eq_true']
  refine (WireM.bind_eq (Wire.ifNametoindex_eq hk)).trans ?_
  refine (WireM.bind_eq (Wire.ifNametoindex_eq (by rw [hkernel]; exact hk))).trans ?_
  rw [Softgre.ifaceBridgeAttach, ifNametoindex_bind, ifNametoindex_bind, hzero hk,
    hzero (by rw [hkernel]; exact hk), World.finds_looked]
  by_cases hbad : (decide (ifNamSiz ≤ (vlanText gre vlan).length) || !w.finds env gre ||
      !w.finds env bridge) = true
  · rw [if_pos hbad, if_pos hbad]
    rfl
  · rw [if_neg hbad, if_neg hbad]
    simp only [Bool.or_eq_true, decide_eq_true_iff, Bool.not_eq_true', not_or,
      Bool.not_eq_false] at hbad
    obtain ⟨⟨hlen, hfinds⟩, hfindsBridge⟩ := hbad
    have hlink := World.hasLink_of_finds hfinds
    have hbridge := World.hasLink_of_finds hfindsBridge
    rw [World.looked_of_finds hfinds, World.looked_of_finds hfindsBridge, Numbering.found,
      if_pos hfinds, Numbering.found, if_pos hfindsBridge]
    have hname : (vlanName gre vlan).length < ifNamSiz := by
      rw [vlanName, snprintf_of_length_lt (Nat.lt_of_not_le hlen)]
      exact Nat.lt_of_not_le hlen
    have hcmd : (Ask.vlan (vlanName gre vlan) (num.index w.kernel gre).toNat vlan.toNat).cmd num
        w.kernel = some (.newVlan (vlanName gre vlan) gre vlan) := by
      rw [Ask.cmd, num.nameOf_index hk hlink, UInt16.ofNat_toNat]
      rfl
    have hsend : Wire.send num e env (vlanAddRequest e (vlanName gre vlan) (num.index w.kernel gre)
        vlan) w = _ :=
      Wire.send_eq (vlanAddRequest_makes (plain_vlanName hgre vlan) hname _ vlan) hcmd
    have hdone := perform_spec env (some EAGAIN) (.newVlan (vlanName gre vlan) gre vlan) w
    rcases hrun : (Softgre.linkSend env (.newVlan (vlanName gre vlan) gre vlan)).run w with ⟨ret, w'⟩
    rw [Softgre.linkSend] at hrun
    rw [wp, hrun] at hdone
    rw [Softgre.linkSend, hrun] at hsend
    refine (WireM.bind_eq hsend).trans ?_
    rw [StateT.run_bind, Softgre.linkSend, hrun]
    obtain ⟨ev, rfl, -, ⟨rfl, -, happly⟩ | ⟨rfl, -⟩⟩ := hdone
    · obtain ⟨-, -, hadded⟩ := Kernel.apply_newVlan_iff.mp happly.apply
      have hkernel' : (w.record ev).kernel =
          w.kernel.addLink ⟨vlanName gre vlan, .vlan gre vlan, none⟩ := hadded
      have hk' : (w.record ev).kernel.Indexable := by
        rw [hkernel']
        exact hw
      have hbridge' : (w.record ev).kernel.hasLink bridge = true := by
        obtain ⟨l, hl, hname⟩ := Kernel.hasLink_iff.mp hbridge
        rw [hkernel']
        exact Kernel.hasLink_iff.mpr ⟨l, List.mem_cons_of_mem _ hl, hname⟩
      have hmaster' : num.index w.kernel bridge = num.index (w.record ev).kernel bridge := by
        rw [hkernel']
        exact (num.kept (hkernel' ▸ hk') hbridge).symm
      rw [hmaster']
      exact Wire.setMaster_eq hk' hbridge'
    · rfl

theorem Wire.ifaceBridgePrepare_eq (hw : w.kernel.Indexable) (hname : CStr.Plain name)
    (hlen : name.length < ifNamSiz) (reply : BridgeReply) (create : Bool) :
    Wire.ifaceBridgePrepare num e env reply create name w =
      .ok ((Softgre.ifaceBridgePrepare env reply create name).run w) := by
  have hzero := num.found_eq_zero_iff env name hw
  refine (WireM.bind_eq (Wire.ifNametoindex_eq hw)).trans ?_
  rw [Softgre.ifaceBridgePrepare, ifNametoindex_bind]
  by_cases hfinds : w.finds env name = true
  · have hlink := World.hasLink_of_finds hfinds
    have hne : num.index w.kernel name ≠ 0 := (num.ne_zero_iff hw).mpr hlink
    rw [Numbering.found, if_pos hfinds, if_pos hne, if_pos hfinds, World.looked_of_finds hfinds]
    by_cases hbridge : reply.isBridge = true
    · rw [if_pos hbridge, if_pos hbridge]
      refine Wire.sendBy_eq (bridgeUpRequest_makes _ hne) fun req hask => ?_
      simp only [Wire.bridgeSend, hask]
      refine (WireM.bind_eq rfl).trans ?_
      rw [num.nameOf_index hw hlink]
      rfl
    · rw [if_neg hbridge, if_neg hbridge]
      rfl
  · rw [if_neg (not_not.mpr (hzero.mpr (Bool.of_not_eq_true hfinds))), if_neg hfinds]
    by_cases hcreate : create = true
    · rw [if_pos hcreate, if_pos hcreate]
      refine Wire.sendBy_eq (bridgeCreateRequest_makes hname hlen) fun req hask => ?_
      simp only [Wire.bridgeSend, hask]
      rfl
    · rw [if_neg hcreate, if_neg hcreate]
      rfl

end Refines

/-- Down to the bytes they send, for either byte order, the link operations never leave
    the request, and change every world as the commands do. -/
theorem link_operations_refine (num : Numbering) (e : Endian) (env : Env) (w : World)
    (hw : w.kernel.links.length + 1 < 2 ^ 31) :
    (∀ name dev loc rem, CStr.Plain name → name.length < ifNamSiz →
      Wire.ifaceGreAdd num e env name kindGretap dev loc rem w =
        .ok ((ifaceGreAdd env name dev loc rem).run w)) ∧
    (∀ name, Wire.ifaceGreDel num e env name w = .ok ((ifaceGreDel env name).run w)) ∧
    (∀ gre bridge vlan, CStr.Plain gre →
      Wire.ifaceBridgeAttach num e env gre bridge vlan w =
        .ok ((ifaceBridgeAttach env gre bridge vlan).run w)) ∧
    ∀ reply create name, CStr.Plain name → name.length < ifNamSiz →
      Wire.ifaceBridgePrepare num e env reply create name w =
        .ok ((ifaceBridgePrepare env reply create name).run w) := by
  have hk : w.kernel.Indexable := Nat.lt_of_succ_lt hw
  exact ⟨fun name dev loc rem hname hlen => Wire.ifaceGreAdd_eq hk hname hlen loc rem,
    fun name => Wire.ifaceGreDel_eq hk,
    fun gre bridge vlan hgre => Wire.ifaceBridgeAttach_eq hw hgre vlan,
    fun reply create name hname hlen => Wire.ifaceBridgePrepare_eq hk hname hlen reply create⟩

-- ---------------------------------------------------------------------------
-- Indices by age
-- ---------------------------------------------------------------------------

/-- How many links are older than the one with a name. -/
def Kernel.age (k : Kernel) (name : CStr) : Option Nat :=
  k.links.reverse.findIdx? fun l => l.name == name

namespace Kernel

variable {k : Kernel} {name a b : CStr} {i : Nat}

theorem exists_age (h : k.hasLink name = true) : ∃ i, k.age name = some i := by
  obtain ⟨l, hl, hname⟩ := hasLink_iff.mp h
  exact ⟨_, List.findIdx?_eq_some_of_exists
    ⟨l, List.mem_reverse.mpr hl, beq_iff_eq.mpr hname⟩⟩

theorem age_some (h : k.age name = some i) :
    i < k.links.length ∧ ∃ l, k.links.reverse[i]? = some l ∧ l.name = name := by
  obtain ⟨hlt, hname, -⟩ := List.findIdx?_eq_some_iff_getElem.mp h
  refine ⟨by rwa [List.length_reverse] at hlt, _, List.getElem?_eq_getElem hlt, ?_⟩
  exact beq_iff_eq.mp hname

theorem hasLink_of_age (h : k.age name = some i) : k.hasLink name = true := by
  obtain ⟨-, l, hl, hname⟩ := age_some h
  exact hasLink_iff.mpr ⟨l, List.mem_reverse.mp (List.mem_of_getElem? hl), hname⟩

theorem eq_of_age (ha : k.age a = some i) (hb : k.age b = some i) : a = b := by
  obtain ⟨-, l, hl, hname⟩ := age_some ha
  obtain ⟨-, l', hl', hname'⟩ := age_some hb
  rw [hl, Option.some.injEq] at hl'
  rw [← hname, ← hname', hl']

theorem age_addLink (h : k.age name = some i) (l : Link) : (k.addLink l).age name = some i := by
  rw [age] at h ⊢
  rw [addLink, List.reverse_cons, List.findIdx?_append, h]
  rfl

end Kernel

/-- Links numbered in the order in which they were added. -/
def Numbering.byAge : Numbering where
  index k name := ((k.age name).map fun i => UInt32.ofNat (i + 1)).getD 0
  ne_zero_iff := by
    intro k name hk
    cases hage : k.age name with
    | none =>
      refine ⟨fun h => absurd rfl h, fun hlink => ?_⟩
      obtain ⟨i, hi⟩ := Kernel.exists_age hlink
      rw [hage] at hi
      cases hi
    | some i =>
      refine ⟨fun _ => Kernel.hasLink_of_age hage, fun _ hzero => ?_⟩
      have hlt := Nat.lt_of_lt_of_le (Kernel.age_some hage).1 (Nat.le_of_lt hk)
      have hnat := congrArg UInt32.toNat hzero
      rw [Option.map_some, Option.getD_some, UInt32.toNat_ofNat_of_lt' (by rw [UInt32.size]; omega)]
        at hnat
      exact absurd hnat (Nat.succ_ne_zero i)
  injective := by
    intro k a b hk ha hb hsame
    obtain ⟨i, hi⟩ := Kernel.exists_age ha
    obtain ⟨j, hj⟩ := Kernel.exists_age hb
    have hltI := Nat.lt_of_lt_of_le (Kernel.age_some hi).1 (Nat.le_of_lt hk)
    have hltJ := Nat.lt_of_lt_of_le (Kernel.age_some hj).1 (Nat.le_of_lt hk)
    have hnat := congrArg UInt32.toNat hsame
    rw [hi, hj, Option.map_some, Option.map_some, Option.getD_some, Option.getD_some,
      UInt32.toNat_ofNat_of_lt' (by rw [UInt32.size]; omega),
      UInt32.toNat_ofNat_of_lt' (by rw [UInt32.size]; omega)] at hnat
    exact Kernel.eq_of_age hi (Nat.succ.inj hnat ▸ hj)
  kept := by
    intro k l name _ hlink
    obtain ⟨i, hi⟩ := Kernel.exists_age hlink
    rw [hi, Kernel.age_addLink hi]

/-- A capture interface, a bridge, and a tunnel that is to be attached to it. -/
def Sample.linked : World where
  kernel := {
    links := [⟨['s', 'g', '0'], .gretap ['e', 't', 'h', '1'] ⟨1⟩ ⟨2⟩, none⟩,
      ⟨['b', 'r', '1'], .foreign [], none⟩, ⟨['e', 't', 'h', '1'], .foreign [], none⟩]
    chain := fun _ _ => none }
  trace := []
  errno := 0
  clock := 0
  initialized := true

theorem link_operations_refine_sg0 :
    Wire.ifaceBridgeAttach .byAge .big (fun _ _ => ⟨true, none, 0⟩) ['s', 'g', '0'] ['b', 'r', '1'] 100
        Sample.linked =
      .ok ((ifaceBridgeAttach (fun _ _ => ⟨true, none, 0⟩) ['s', 'g', '0'] ['b', 'r', '1'] 100).run
        Sample.linked) :=
  (link_operations_refine .byAge .big _ Sample.linked (by decide)).2.2.1 _ _ 100 (by simp [CStr.Plain])

end Softgre
