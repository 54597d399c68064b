-- SUMMARY: One cleanup of everything ends where the removals of all remotes end, in whatever order.
import Softgre.Daemon.Peers
import Softgre.Daemon.Permissions
import Softgre.Daemon.Recovery
import Softgre.Provision.Removal

/-!
# Bulk cleanup

`provision_delall` flushes both chains and builds them again, while `provision_del`
takes out the rules of one address after the other. As long as the chains hold each
rule once and nothing else above their tails, both leave the tails.
-/

namespace Softgre

open Base

variable {cfg : SoftgredConfig} {env : Env} {host : Kernel} {s s' : Sys} {p : Ptr}
  {restIn restOut : List Rule}

/-! ## Nothing fails from outside -/

/-- Whatever can be carried out is carried out. -/
def Env.Obliging (env : Env) : Prop := ∀ cmd n, (env cmd n).ok = true

/-- No command failed that could have taken effect. -/
def World.Willing (w w' : World) : Prop := w.Only (¬ ·.Unwilling) w'

theorem World.Willing.not_leaks {w w' : World} (h : w.Willing w') : ¬ w.Leaks w' :=
  fun ⟨_, hnew, hleaves⟩ => h.of_new hnew hleaves.2

namespace Env.Obliging

variable (h : env.Obliging) (w : World)

include h

theorem perform (fallback : Option Errno) (cmd : Cmd) :
    Keeps w.Willing (Softgre.perform env fallback cmd) := by
  intro w₁ h₁
  refine wp_mono (perform_spec env fallback cmd w₁) fun ret w' hperform => ?_
  obtain ⟨ev, rfl, rfl, ⟨-, -, hdone⟩ | ⟨-, hgrant, hrefused, -⟩⟩ := hperform
  · refine h₁.trans (World.Only.record fun hunwilling => ?_)
    cases hdone.ok.symm.trans hunwilling.1
  · refine h₁.trans (World.Only.record fun hunwilling => ?_)
    have hsome := hunwilling.2
    rw [hrefused.kernel, hgrant (h _ _)] at hsome
    cases hsome

/-- A name that does not resolve is that of no link. -/
theorem ifaceGreDel (name : CStr) : Keeps w.Willing (Softgre.ifaceGreDel env name) := by
  intro w₁ h₁
  rw [Softgre.ifaceGreDel, wp_bind]
  refine wp_mono (ifNametoindex_spec env name w₁) fun found w₂ hfound => ?_
  rcases hfound with ⟨rfl, -, -, rfl⟩ | ⟨rfl, hnone, _, -, rfl⟩
  · exact h.perform w _ _ w₂ h₁
  · refine World.Only.trans h₁ (World.Only.record fun hunwilling => ?_)
    have hsome : (w₁.kernel.apply (.delLink name)).isSome = true := hunwilling.2
    rw [Kernel.apply, hnone (h _ _)] at hsome
    cases hsome

theorem willing : Kept env w.Willing := by
  have hlookup : ∀ name e, Keeps w.Willing (unresolved (.lookup name) e) := by
    intro name e w₁ h₁
    refine World.Only.trans h₁ (World.Only.record fun hunwilling => ?_)
    cases hunwilling.2
  refine
    { helperExec := fun _ => h.perform w _ _
      ifaceGreAdd := fun _ _ _ _ =>
        keeps_ifaceGreAdd (fun _ _ hw => hw) (hlookup _ _) (h.perform w _ _)
      ifaceGreDel := h.ifaceGreDel w
      attach := fun gre bridge vlan =>
        keeps_ifaceBridgeAttach (fun _ _ hw => hw) (hlookup _ _) ?_
      errno := fun _ _ hw => hw
      clock := fun _ _ hw => hw }
  refine (h.perform w _ _).bind fun ret => ?_
  cases ret with
  | fail => exact .pure _
  | ok => exact keeps_setMaster (fun _ _ hw => hw) (hlookup _ _) (h.perform w _ _)

end Env.Obliging

theorem Env.Obliging.exec (h : env.Obliging) (s : Sys) (call : Call) :
    s.world.Willing (exec cfg env s call).world :=
  (h.willing s.world).exec call (World.Only.refl _)

theorem Env.Obliging.sound (h : env.Obliging) (call : Call) (hs : s.world.EnodevSound) :
    (Softgre.exec cfg env s call).world.EnodevSound := by
  have hwilling : s.world.Willing (Softgre.exec cfg env s call).world := h.exec s call
  exact hs.extend_of_willing hwilling.suffix fun _ => hwilling.of_new

/-- The start deletes no link. -/
theorem Started.enodevSound (h : Started env host s) : s.world.EnodevSound := by
  obtain ⟨errno, clock, rfl, -⟩ := h.boot
  have hkept : FirewallKept env World.EnodevSound := by
    refine ⟨fun {cmd} hcmd w hw => ?_⟩
    refine wp_mono (perform_spec env none cmd w) fun ret w' hperform => ?_
    obtain ⟨ev, rfl, rfl, -⟩ := hperform
    refine List.forall_mem_cons.mpr ⟨fun name hdel => ?_, hw⟩
    rw [hdel] at hcmd
    cases hcmd
  exact hkept.ifaceEbtablesInit (fun _ _ hw => hw) _ fun _ hev => absurd hev List.not_mem_nil

/-! ## The end of both ways -/

/-- Nothing is left of the daemon's work but the two chains as they were set up. -/
structure Sys.Cleaned (host : Kernel) (s : Sys) : Prop where
  tunnels : s.tunnels.entries = []
  macIndex : s.macIndex.entries = []
  slots : ∀ id, s.slots id = false
  idle : s.cleanupPending = false
  links : ∀ l ∈ s.world.kernel.links, l.kind.owned = false
  jumps : ∀ t c, c.builtin = true → s.world.kernel.chain t c = host.chain t c
  chains : s.world.kernel.Defaults

theorem Sys.AsInitialised.cleaned (h : s.AsInitialised host) : s.Cleaned host where
  tunnels := by rw [h.tunnels]; rfl
  macIndex := by rw [h.macIndex]; rfl
  slots := h.slots
  idle := h.cleanupPending
  links := h.links
  jumps := h.jumps
  chains := h.chains

/-- What holds between packets and removals in which nothing fails. -/
structure Sys.Orderly (cfg : SoftgredConfig) (host : Kernel) (s : Sys) : Prop where
  inv : s.abs.Inv cfg host
  sound : s.world.EnodevSound
  idle : s.cleanupPending = false
  lists : s.Lists [dropRule] [multicastRule, dropRule]

theorem Sys.Orderly.cleaned (h : s.Orderly cfg host)
    (hnone : ∀ remote, provisionGetTunnelByip s remote = none) : s.Cleaned host := by
  have hst := h.inv.tables
  have hempty : ∀ q, s.abs.store.heap q = none := by
    intro q
    refine Option.eq_none_iff_forall_ne_some.mpr fun t ht => ?_
    cases (hnone t.remote).symm.trans (hst.live ht)
  have hpermits : ∀ name mac, ¬ s.abs.store.Permits name mac := by
    rintro name mac ⟨q, t, ht, -⟩
    cases (hempty q).symm.trans ht
  refine ⟨?_, ?_, fun id => ?_, h.idle, h.inv.links_of_empty hempty h.sound,
    h.inv.jumps_of_empty hempty, h.lists.ingress.eq_rest hpermits, h.lists.egress.eq_rest hpermits⟩
  · refine List.eq_nil_iff_forall_not_mem.mpr fun ⟨key, q⟩ hmem => ?_
    cases (hnone ⟨key⟩).symm.trans (Hashmap.lookup_of_mem_entries hmem)
  · refine List.eq_nil_iff_forall_not_mem.mpr fun ⟨mac, q⟩ hmem => ?_
    obtain ⟨t, ht, -⟩ := hst.owner_iff.mp (Hashmap.lookup_of_mem_entries hmem)
    cases (hempty q).symm.trans ht
  · refine Bool.eq_false_iff.mpr fun hslot => ?_
    obtain ⟨q, t, ht, -⟩ := hst.slot_iff.mp hslot
    cases (hempty q).symm.trans ht

/-! ## Packets -/

theorem Attempt.idle {remote : InAddr} {mac : CStr} {learned : Bool}
    (h : Attempt cfg remote mac s learned s') : s'.cleanupPending = false := by
  cases h with
  | learned _ hpend => exact hpend
  | full _ hpend => exact hpend
  | failed _ hpend => exact hpend

theorem exec_idle {call : Call} (hcall : call.listens = true) (htables : s.Tables cfg)
    (h : s.cleanupPending = false) : (exec cfg env s call).cleanupPending = false := by
  cases call with
  | packet packet =>
    have hhandles := exec_packet cfg env packet htables.1 htables.2
    generalize exec cfg env s (.packet packet) = s' at hhandles ⊢
    cases hhandles with
    | ignored => exact h
    | passed => exact h
    | tried _ hattempt => exact (congrArg Core.pending (abs_settled _ _ _)).trans hattempt.idle
  | wait => exact h
  | delall | add | allowMac | del => cases hcall

theorem Call.fromLoop_of_listens {call : Call} (h : call.listens = true) : call.fromLoop = true := by
  cases call with
  | packet | wait => rfl
  | delall | add | allowMac | del => cases h

theorem exec_orderly {call : Call} (hcall : call.listens = true) (henv : env.Obliging)
    (h : s.Orderly cfg host) : (exec cfg env s call).Orderly cfg host := by
  have htables : s.Tables cfg := ⟨h.inv.tables, h.inv.idle⟩
  have hidle : (exec cfg env s call).cleanupPending = false := exec_idle hcall htables h.idle
  refine ⟨h.inv.trail (exec_trail cfg env call htables.1 htables.2), henv.sound call h.sound,
    hidle, ?_⟩
  exact exec_listed (Call.fromLoop_of_listens hcall) htables (henv.exec s call).not_leaks
    (fun _ => h.lists) hidle

/-! ## Removals -/

theorem exec_del_untracked {remote : InAddr} (h : provisionGetTunnelByip s remote = none) :
    exec cfg env s (.del remote) = s := by
  show wp (provisionDel env remote) (fun _ s' => s' = s) s
  simp only [provisionDel, wp_bind, wp_get, h]
  rfl

/-- A removal in which nothing fails from outside succeeds. -/
theorem exec_del_willing {remote : InAddr} {tun : TunnelContext}
    (hinv : s.abs.Inv cfg host) (hlists : s.Lists restIn restOut)
    (hin : s.InTable remote p tun) (hwilling : s.world.Willing (exec cfg env s (.del remote)).world) :
    ((provisionDel env remote).run s).1 = .ok ∧
      s.Removing cfg env p tun (exec cfg env s (.del remote)) ∧
      s.Removed remote p tun (exec cfg env s (.del remote)) ∧
      (exec cfg env s (.del remote)).Lists restIn restOut := by
  obtain ⟨⟨hremoving, hout⟩, hfail, hkept⟩ :=
    wp_and (provisionDel_spec cfg env host hinv.tables hin.lookup hin.record)
      (provisionDel_lists hinv hlists hin.lookup hin.record)
  rcases hout with ⟨hret, hremoved⟩ | ⟨hret, -⟩
  · exact ⟨hret, hremoving, hremoved, hkept (.inl hret)⟩
  · obtain ⟨ev, hnew, hunwilling⟩ := hfail hret
    exact absurd hunwilling (hwilling.of_new hnew)

/-- No remote but the removed one leaves the table, and none enters it. -/
theorem Sys.Removed.lookup_of_some {remote other : InAddr} {tun : TunnelContext} {q : Ptr}
    (hst : s.abs.store.Inv cfg) (hremoving : s.Removing cfg env p tun s')
    (hremoved : s.Removed remote p tun s') (h : provisionGetTunnelByip s' other = some q) :
    other ≠ remote ∧ provisionGetTunnelByip s other = some q := by
  have hst' := hremoving.moves.tables hst
  obtain ⟨tun', hq, hr⟩ := hst'.record h
  have hne : q ≠ p := by
    rintro rfl
    cases hremoved.record.symm.trans hq
  rw [hremoving.others hne] at hq
  refine ⟨?_, hr ▸ hst.live (heap_abs_of_some hq)⟩
  rintro rfl
  cases hremoved.lookup.symm.trans h

theorem exec_del_orderly (remote : InAddr) (henv : env.Obliging) (h : s.Orderly cfg host) :
    (exec cfg env s (.del remote)).Orderly cfg host ∧
      ∀ other q, provisionGetTunnelByip (exec cfg env s (.del remote)) other = some q →
        other ≠ remote ∧ provisionGetTunnelByip s other = some q := by
  cases hlookup : provisionGetTunnelByip s remote with
  | none =>
    rw [exec_del_untracked hlookup]
    refine ⟨h, fun other q hq => ⟨?_, hq⟩⟩
    rintro rfl
    cases hlookup.symm.trans hq
  | some p =>
    have hst := h.inv.tables
    obtain ⟨tun, hp, -⟩ := hst.record hlookup
    obtain ⟨-, hremoving, hremoved, hlists⟩ :=
      exec_del_willing h.inv h.lists ⟨hlookup, hp⟩ (henv.exec s (.del remote))
    refine ⟨⟨?_, henv.sound _ h.sound, hremoving.pending.trans h.idle, hlists⟩, fun other q => ?_⟩
    · exact h.inv.trail (exec_trail cfg env (.del remote) h.inv.tables h.inv.idle)
    · exact hremoved.lookup_of_some hst hremoving

theorem run_dels_orderly (remotes : List InAddr) (henv : env.Obliging)
    (h : s.Orderly cfg host) : (run cfg env (remotes.map .del) s).Orderly cfg host ∧
      ∀ other q, provisionGetTunnelByip (run cfg env (remotes.map .del) s) other = some q →
        other ∉ remotes ∧ provisionGetTunnelByip s other = some q := by
  induction remotes generalizing s with
  | nil => exact ⟨h, fun other q hq => ⟨List.not_mem_nil, hq⟩⟩
  | cons remote rest ih =>
    obtain ⟨hstep, hshrinks⟩ := exec_del_orderly remote henv h
    obtain ⟨hrun, hrest⟩ := ih hstep
    refine ⟨hrun, fun other q hq => ?_⟩
    obtain ⟨hnot, hother⟩ := hrest other q hq
    obtain ⟨hne, hother⟩ := hshrinks other q hother
    exact ⟨List.not_mem_cons_of_ne_of_not_mem hne hnot, hother⟩

/-! ## Both ways -/

/-- After packets, as long as nothing fails from outside, a cleanup of everything and
    the removal of every tracked remote, in any order, both leave nothing behind. -/
theorem bulk_cleanup_eq_single_removals (cfg : SoftgredConfig) (env : Env) (host : Kernel) (s : Sys)
    (calls : List Call) (remotes : List InAddr) (hstart : Started env host s)
    (hcalls : ∀ call ∈ calls, call.listens = true) (henv : env.Obliging)
    (hremotes : ∀ remote, (provisionGetTunnelByip (run cfg env calls s) remote).isSome = true →
      remote ∈ remotes) :
    (exec cfg env (run cfg env calls s) .delall).Cleaned host ∧
      (run cfg env (remotes.map .del) (run cfg env calls s)).Cleaned host := by
  have horderly : (run cfg env calls s).Orderly cfg host := by
    refine run_invariant (fun call s hcall hs => exec_orderly hcall henv hs) hcalls ?_
    have hidle : s.cleanupPending = false := by
      obtain ⟨errno, clock, rfl, -⟩ := hstart.boot
      rfl
    exact ⟨hstart.inv cfg, hstart.enodevSound, hidle, hstart.listed hidle⟩
  refine ⟨(exec_delall_asInitialised horderly.inv horderly.sound fun ev => ?_).cleaned, ?_⟩
  · exact (henv.exec _ .delall).of_new
  · obtain ⟨hrun, htracked⟩ := run_dels_orderly remotes henv horderly
    refine hrun.cleaned fun remote => Option.eq_none_iff_forall_ne_some.mpr fun q hq => ?_
    obtain ⟨hnot, hold⟩ := htracked remote q hq
    exact hnot (hremotes remote (Option.isSome_iff_exists.mpr ⟨q, hold⟩))

/-- Two remotes, the later one removed first. -/
theorem bulk_cleanup_eq_single_removals_two :
    (exec Sample.config Sample.obliging (run Sample.config Sample.obliging
      [.packet Sample.packet, .packet Sample.neighbour] (Sample.start Sample.obliging))
      .delall).Cleaned Sample.kernel ∧
    (run Sample.config Sample.obliging [.del Sample.neighbour.remote, .del Sample.packet.remote]
      (run Sample.config Sample.obliging [.packet Sample.packet, .packet Sample.neighbour]
        (Sample.start Sample.obliging))).Cleaned Sample.kernel := by
  refine bulk_cleanup_eq_single_removals Sample.config Sample.obliging Sample.kernel _
    [.packet Sample.packet, .packet Sample.neighbour] [Sample.neighbour.remote, Sample.packet.remote]
    (Sample.started (by decide +kernel)) (by decide) (fun _ _ => rfl) fun remote htracked => ?_
  obtain ⟨q, hq⟩ := Option.isSome_iff_exists.mp htracked
  have hall : ∀ entry ∈ (run Sample.config Sample.obliging
      [.packet Sample.packet, .packet Sample.neighbour] (Sample.start Sample.obliging)).tunnels.entries,
      (⟨entry.1⟩ : InAddr) ∈ [Sample.neighbour.remote, Sample.packet.remote] := by decide +kernel
  exact hall _ (Hashmap.mem_entries_iff_lookup.mpr hq)

end Softgre
