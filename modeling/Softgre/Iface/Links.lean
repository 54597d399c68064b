-- SUMMARY: The link operations of `iface_gre.c` and `iface_bridge.c`, with what each can do.
import Softgre.Host.World

/-!
# Tunnel and VLAN links

The netlink messages themselves are not modelled here: a request is the command
it asks the kernel to carry out. A request that is not sent because the name of
its link does not resolve counts as one that was refused.
-/

namespace Softgre

open Base

def ifaceGreAdd (env : Env) (name dev : CStr) (loc rem : InAddr) : WorldM Ret := do
  if ← ifNametoindex env dev then linkSend env (.newGretap name dev loc rem)
  else unresolved (.lookup dev) ENODEV

def ifaceGreDel (env : Env) (name : CStr) : WorldM Ret := do
  if ← ifNametoindex env name then linkSend env (.delLink name)
  else unresolved (.delLink name) ENODEV

/-- `set_master(if_nametoindex(name), master)`. A request about index 0 names no link, and
    the kernel answers it with `ENODEV`. -/
def setMaster (env : Env) (name bridge : CStr) : WorldM Ret := do
  if ← ifNametoindex env name then linkSend env (.setMaster name bridge)
  else unresolved (.lookup []) ENODEV

/-- The name `iface_bridge_attach` gives the VLAN link, before it is cut. -/
def vlanText (gre : CStr) (vlan : UInt16) : CStr := gre ++ '.' :: dec vlan.toNat

def vlanName (gre : CStr) (vlan : UInt16) : CStr := snprintf ifNamSiz (vlanText gre vlan)

def ifaceBridgeAttach (env : Env) (gre bridge : CStr) (vlan : UInt16) : WorldM Ret := do
  let parent ← ifNametoindex env gre
  let master ← ifNametoindex env bridge
  if ifNamSiz ≤ (vlanText gre vlan).length || !parent || !master then
    unresolved (.lookup gre) EINVAL
  else
    match ← linkSend env (.newVlan (vlanName gre vlan) gre vlan) with
    | .fail => return .fail
    | .ok => setMaster env (vlanName gre vlan) bridge

/-- What `iface_bridge_prepare` sees under `/sys/class/net` for a name, and how the kernel
    answers its request. -/
structure BridgeReply where
  isBridge : Bool
  sent : Bool
  errno : Errno

/-- The request for a link that is there. That a bridge is up is not part of the kernel
    here. -/
def raiseBridge (reply : BridgeReply) : WorldM Ret := do
  if reply.sent then return .ok
  modify fun w => { w with errno := reply.errno }
  return .fail

/-- The request for a new bridge, which is refused while the name is taken. -/
def createBridge (reply : BridgeReply) (name : CStr) : WorldM Ret := do
  if reply.sent && !(← get).kernel.hasLink name then
    modify fun w => { w with kernel := w.kernel.addLink ⟨name, .foreign [], none⟩ }
    return .ok
  modify fun w => { w with errno := reply.errno }
  return .fail

def ifaceBridgePrepare (env : Env) (reply : BridgeReply) (create : Bool) (name : CStr) :
    WorldM Ret := do
  if ← ifNametoindex env name then
    if reply.isBridge then raiseBridge reply
    else
      modify fun w => { w with errno := EINVAL }
      return .fail
  else if create then createBridge reply name
  else
    modify fun w => { w with errno := ENODEV }
    return .fail

/-! ## Truthful answers -/

/-- A deletion that ends with `ENODEV` was one of a link that is not there. -/
def Event.EnodevSound (ev : Event) : Prop :=
  ∀ name, ev.cmd = .delLink name → ev.ok = false → ev.errno = some ENODEV →
    ev.kernel.hasLink name = false

def Event.enodevSound (ev : Event) : Bool :=
  match ev.cmd with
  | .delLink name => ev.ok || ev.errno != some ENODEV || !ev.kernel.hasLink name
  | _ => true

theorem Event.enodevSound_iff {ev : Event} : ev.enodevSound = true ↔ ev.EnodevSound := by
  rw [Event.enodevSound, Event.EnodevSound]
  cases ev.cmd with
  | delLink name =>
    cases ev.ok with
    | true => simp
    | false => simp [or_iff_not_imp_left]
  | _ => simp

instance (ev : Event) : Decidable ev.EnodevSound := decidable_of_iff _ Event.enodevSound_iff

/-- So far no `iface_gre_del` of a link that is there has ended with `ENODEV`, neither
    because of the kernel's answer nor because the name did not resolve. -/
def World.EnodevSound (w : World) : Prop := ∀ ev ∈ w.trace, ev.EnodevSound

instance (w : World) : Decidable w.EnodevSound :=
  inferInstanceAs (Decidable (∀ ev ∈ w.trace, ev.EnodevSound))

theorem World.EnodevSound.of_suffix {w w' : World} (h : w'.EnodevSound)
    (hsuffix : w.trace <:+ w'.trace) : w.EnodevSound := fun ev hev => h ev (hsuffix.mem hev)

/-! ## Specifications -/

theorem ifaceGreAdd_spec (env : Env) (name dev : CStr) (loc rem : InAddr) (w : World) :
    wp (ifaceGreAdd env name dev loc rem) (fun ret w' => ∃ ev, w' = w.record ev ∧
      ((ret = .ok ∧ ev.Done w.kernel (.newGretap name dev loc rem)) ∨
      (ret = .fail ∧ ev.Refused w.kernel ∧ ¬ ev.Vain))) w := by
  simp only [ifaceGreAdd, wp_bind]
  refine wp_mono (ifNametoindex_spec env dev w) fun found w' hfound => ?_
  rcases hfound with ⟨rfl, -, -, rfl⟩ | ⟨rfl, -, _, -, rfl⟩
  · refine wp_mono (perform_spec env _ _ w') fun ret w'' ⟨ev, hw, hcmd, h⟩ => ⟨ev, hw, ?_⟩
    rcases h with ⟨hret, _, hdone⟩ | ⟨hret, _, hrefused, _⟩
    · exact .inl ⟨hret, hdone⟩
    · exact .inr ⟨hret, hrefused, Event.not_vain_of_builds hcmd rfl⟩
  · refine wp_mono (unresolved_spec _ ENODEV w rfl) fun ret w' ⟨hret, ev, hcmd, _, hev, hw⟩ => ?_
    exact ⟨ev, hw, .inr ⟨hret, hev, Event.not_vain_of_builds hcmd rfl⟩⟩

/-- What a deletion of `name` that starts in `w` makes of the links: it takes effect if
    the environment carries it out, unless there is no such link. -/
def World.Unlinks (env : Env) (w : World) (name : CStr) (w' : World) : Prop :=
  (w.Grants env (.delLink name) ∧ w'.kernel.links = (w.kernel.dropLink name).links) ∨
  (w'.kernel.links = w.kernel.links ∧
    (w'.EnodevSound → w.Grants env (.delLink name) → w.kernel.hasLink name = false))

theorem World.Unlinks.extend {env : Env} {w w' w'' : World} {name : CStr}
    (h : w.Unlinks env name w') (hsuffix : w'.trace <:+ w''.trace)
    (hlinks : w''.kernel.links = w'.kernel.links) : w.Unlinks env name w'' :=
  h.imp (fun h => ⟨h.1, hlinks.trans h.2⟩) fun h =>
    ⟨hlinks.trans h.1, fun hsound => h.2 (hsound.of_suffix hsuffix)⟩

theorem World.errno_record_eq {w : World} {ev : Event} {e : Errno} (hsome : ev.errno.isSome = true) :
    (w.record ev).errno = e ↔ ev.errno = some e := by
  obtain ⟨e', he⟩ := Option.isSome_iff_exists.mp hsome
  rw [World.record, he]
  simp

/-- Deleting a link removes it, or fails. When the caller sees anything but a failure
    with `ENODEV`, the link existed. -/
theorem ifaceGreDel_spec (env : Env) (name : CStr) (w : World) :
    wp (ifaceGreDel env name) (fun ret w' => ∃ ev, w' = w.record ev ∧ ev.cmd = .delLink name ∧
      w.Unlinks env name w' ∧
      ((ret = .ok ∧ ev.Done w.kernel (.delLink name)) ∨
      (ret = .fail ∧ ev.Refused w.kernel ∧ (w'.errno = ENODEV → ev.errno = some ENODEV) ∧
        (w'.errno ≠ ENODEV → w.kernel.hasLink name = true)))) w := by
  simp only [ifaceGreDel, wp_bind]
  refine wp_mono (ifNametoindex_spec env name w) fun found w' hfound => ?_
  rcases hfound with ⟨rfl, hlink, -, rfl⟩ | ⟨rfl, -, _, -, rfl⟩
  · refine wp_mono (perform_spec env _ _ w') fun ret w'' hperform => ?_
    obtain ⟨ev, rfl, hcmd, h⟩ := hperform
    refine ⟨ev, rfl, hcmd, ?_⟩
    rcases h with ⟨hret, hgrant, hdone⟩ | ⟨hret, hgrant, hrefused, herrno⟩
    · obtain ⟨-, hk⟩ := Kernel.apply_delLink_iff.mp hdone.apply
      exact ⟨.inl ⟨hgrant, congrArg Kernel.links hk⟩, .inl ⟨hret, hdone⟩⟩
    · have hnot : ¬ w'.Grants env (.delLink name) := by
        intro hyes
        have := hgrant hyes
        rw [Kernel.apply, if_pos hlink] at this
        cases this
      refine ⟨.inr ⟨congrArg Kernel.links hrefused.kernel, fun _ hyes => absurd hyes hnot⟩,
        .inr ⟨hret, hrefused, ?_, fun _ => hlink⟩⟩
      refine (World.errno_record_eq ?_).mp
      rw [herrno, Option.isSome_or]
      exact Bool.or_true _
  · refine wp_mono (unresolved_spec (.delLink name) ENODEV w rfl) fun ret w' hfail => ?_
    obtain ⟨hret, ev, hcmd, herrno, hev, rfl⟩ := hfail
    refine ⟨ev, rfl, hcmd, .inr ⟨congrArg Kernel.links hev.kernel, fun hsound _ => ?_⟩,
      .inr ⟨hret, hev, fun _ => herrno, fun hne => ?_⟩⟩
    · rw [← hev.kernel]
      exact hsound ev List.mem_cons_self name hcmd hev.ok herrno
    · rw [World.record, herrno] at hne
      exact absurd rfl hne

theorem setMaster_spec (env : Env) (name bridge : CStr) (w : World) :
    wp (setMaster env name bridge) (fun ret w' => ∃ ev, w' = w.record ev ∧
      (ev.cmd = .setMaster name bridge ∨ ev.cmd = .lookup []) ∧
      ((ret = .ok ∧ ev.Done w.kernel (.setMaster name bridge)) ∨
      (ret = .fail ∧ ev.Refused w.kernel))) w := by
  simp only [setMaster, wp_bind]
  refine wp_mono (ifNametoindex_spec env name w) fun found w' hfound => ?_
  rcases hfound with ⟨rfl, -, -, rfl⟩ | ⟨rfl, -, _, -, rfl⟩
  · refine wp_mono (perform_spec env _ _ w') fun ret w'' ⟨ev, hw, hcmd, h⟩ =>
      ⟨ev, hw, .inl hcmd, ?_⟩
    exact h.imp (fun h => ⟨h.1, h.2.2⟩) fun h => ⟨h.1, h.2.2.1⟩
  · refine wp_mono (unresolved_spec _ ENODEV w rfl) fun ret w' ⟨hret, ev, hcmd, _, hev, hw⟩ => ?_
    exact ⟨ev, hw, .inr hcmd, .inr ⟨hret, hev⟩⟩

/-- The states an attachment goes through: nothing, the VLAN link created, or the
    VLAN link created and put into the bridge. -/
theorem ifaceBridgeAttach_spec (env : Env) (gre bridge : CStr) (vlan : UInt16) (w : World) :
    wp (ifaceBridgeAttach env gre bridge vlan) (fun ret w' => ∃ ev,
      (ret = .fail ∧ w' = w.record ev ∧ ev.Refused w.kernel ∧ ¬ ev.Vain) ∨
      (ev.Done w.kernel (.newVlan (vlanName gre vlan) gre vlan) ∧ ∃ ev',
        w' = (w.record ev).record ev' ∧
        ((ret = .fail ∧ ev'.Refused ev.kernel ∧ ¬ ev'.Vain) ∨
        (ret = .ok ∧ ev'.Done ev.kernel (.setMaster (vlanName gre vlan) bridge))))) w := by
  simp only [ifaceBridgeAttach, wp_bind]
  refine wp_mono (ifNametoindex_spec env gre w) fun parent w₁ hparent => ?_
  refine wp_mono (ifNametoindex_spec env bridge w₁) fun master w₂ hmaster => ?_
  have hsame : { w₂ with errno := 0 } = { w with errno := 0 } := by
    rcases hparent with ⟨-, -, -, rfl⟩ | ⟨-, -, _, -, rfl⟩
    · rcases hmaster with ⟨-, -, -, rfl⟩ | ⟨-, -, _, -, rfl⟩ <;> rfl
    · rcases hmaster with ⟨-, -, -, rfl⟩ | ⟨-, -, _, -, rfl⟩ <;> rfl
  refine wp_ite (fun _ => ?_) (fun hyes => ?_)
  · refine wp_mono (unresolved_spec _ EINVAL w hsame) fun ret w' hfail => ?_
    obtain ⟨hret, ev, hcmd, -, hev, hw⟩ := hfail
    exact ⟨ev, .inl ⟨hret, hw, hev, Event.not_vain_of_builds hcmd rfl⟩⟩
  · obtain rfl : w₂ = w := by
      simp only [Bool.or_eq_true, Bool.not_eq_true', not_or, Bool.not_eq_false] at hyes
      rcases hparent with ⟨-, -, -, rfl⟩ | ⟨hp, -, -⟩
      · rcases hmaster with ⟨-, -, -, rfl⟩ | ⟨hm, -, -⟩
        · rfl
        · exact absurd hyes.2 (by simp [hm])
      · exact absurd hyes.1.2 (by simp [hp])
    rw [wp_bind]
    refine wp_mono (perform_spec env _ _ w₂) fun ret w' hsent => ?_
    obtain ⟨ev, hw, hcmd, ⟨rfl, -, hdone⟩ | ⟨rfl, -, hrefused, -⟩⟩ := hsent
    · refine wp_mono (setMaster_spec env _ bridge w') fun ret' w'' hsent' => ?_
      obtain ⟨ev', hw', hcmd', h'⟩ := hsent'
      subst hw
      refine ⟨ev, .inr ⟨hdone, ev', hw', ?_⟩⟩
      rcases h' with ⟨hret, hdone'⟩ | ⟨hret, hrefused'⟩
      · exact .inr ⟨hret, hdone'⟩
      · refine .inl ⟨hret, hrefused', ?_⟩
        rcases hcmd' with hcmd' | hcmd'
        · exact Event.not_vain_of_builds hcmd' rfl
        · exact Event.not_vain_of_builds hcmd' rfl
    · exact ⟨ev, .inl ⟨rfl, hw, hrefused, Event.not_vain_of_builds hcmd rfl⟩⟩

end Softgre
