-- SUMMARY: When a removal that failed is safe, and when a later one can still succeed.
import Softgre.Daemon.Bulk
import Softgre.Provision.Reset

/-!
# Retrying a removal

The tables record which jumps of a tunnel are installed, but not which of the two
rules of an address. A removal can be repeated as long as every address has both
rules or is in no table. `provision_del` also leaves a tunnel marked ready whose link
it has deleted.
-/

namespace Softgre

open Base

variable {cfg : SoftgredConfig} {env : Env} {host : Kernel} {s : Sys} {p : Ptr}

/-! ## Which calls leave the rules accounted for -/

/-- How the commands of a call may end. -/
def Sys.Undisturbed (cfg : SoftgredConfig) (env : Env) (s : Sys) (call : Call) : Prop :=
  match call with
  | .packet _ | .add _ | .allowMac _ _ =>
    -- the ingress rule of an address whose egress rule failed is taken back
    ¬ s.world.Leaks (exec cfg env s call).world
  | .delall =>
    -- where there are addresses, a reset of the chains that has begun comes to its end
    (∃ mac p, provisionGetTunnelByMac s mac = some p) →
      ¬ s.world.CutShort (exec cfg env s call).world
  | .del remote =>
    -- both rules of an address go, or none; of a ready tunnel, every rule does
    ∀ p tun, s.InTable remote p tun → s.world.Paired tun.ifgre (exec cfg env s call).world ∧
      (tun.ready = true → ∀ ev, s.world.New (exec cfg env s call).world ev →
        ev.cmd.deletes = true → ev.ok = true)
  | .wait _ => True

/-- Every call of the run is undisturbed. -/
def RunUndisturbed (cfg : SoftgredConfig) (env : Env) : List Call → Sys → Prop
  | [], _ => True
  | call :: rest, s => s.Undisturbed cfg env call ∧ RunUndisturbed cfg env rest (exec cfg env s call)

theorem ifaceEbtablesAllow_issues (name mac : CStr) :
    Issues (· ∉ resetCmds) (ifaceEbtablesAllow env name mac) := by
  have hmem : ∀ {cmd}, cmd = allowIn name mac ∨ cmd = allowOut name mac ∨ cmd = revokeIn name mac →
      cmd ∉ resetCmds := by
    rintro cmd (rfl | rfl | rfl) hmem <;>
      simp [resetCmds, allowIn, allowOut, revokeIn] at hmem
  refine Issues.bind (Issues.perform (hmem (.inl rfl))) fun ret => ?_
  cases ret with
  | fail => exact Issues.pure _
  | ok =>
    refine Issues.bind (Issues.perform (hmem (.inr (.inl rfl)))) fun ret => ?_
    cases ret with
    | ok => exact Issues.pure _
    | fail => exact Issues.bind (Issues.perform (hmem (.inr (.inr rfl)))) fun _ => Issues.pure _

theorem exec_allowMac_only (s : Sys) (remote : InAddr) (mac : CStr) :
    s.world.Only (·.cmd ∉ resetCmds) (exec cfg env s (.allowMac remote mac)).world := by
  refine exec_allowMac_keeps (fun _ _ hw => hw) (fun name mac w hw => ?_) (World.Only.refl s.world)
  exact wp_mono (ifaceEbtablesAllow_issues name mac w) fun _ _ h => World.Only.trans hw h

theorem exec_allowMac_pending (remote : InAddr) (mac : CStr) (hst : s.abs.store.Inv cfg) :
    (exec cfg env s (.allowMac remote mac)).cleanupPending = s.cleanupPending := by
  show wp (Call.program cfg env (.allowMac remote mac)) (fun _ s' =>
    s'.cleanupPending = s.cleanupPending) s
  simp only [Call.program, wp_bind, wp_get]
  cases hlookup : provisionGetTunnelByip s remote with
  | none => rfl
  | some p =>
    obtain ⟨tun, hp, -⟩ := hst.record hlookup
    simp only [wp_discard]
    refine wp_mono (provisionTunnelAllowMac_spec cfg env mac hp) fun ret s' h => ?_
    rcases h with ⟨-, rfl, -⟩ | ⟨-, -, hpend, -⟩ | ⟨-, rfl, -⟩ | ⟨-, rfl, -⟩ | ⟨-, -, hpend, -⟩
    · rfl
    · exact hpend
    · rfl
    · rfl
    · exact hpend

theorem exec_allowMac_accounted {remote : InAddr} {mac : CStr} (hst : s.abs.store.Inv cfg)
    (h : s.Accounted) (hleaks : ¬ s.world.Leaks (exec cfg env s (.allowMac remote mac)).world) :
    (exec cfg env s (.allowMac remote mac)).Accounted := by
  obtain ⟨restIn, restOut, hlists, hin, hout, hrests⟩ := h
  refine ⟨restIn, restOut, ?_, hin, hout, ?_⟩
  · refine Core.trail_lists (fun r m hl => ?_) (allowMac_trail cfg env hst) hst (fun hl => ?_)
      (fun _ _ _ => hleaks) (fun ev hnew _ => (exec_allowMac_only s remote mac).of_new hnew) hlists
    · rcases hl with hl | hl | hl | hl <;> cases hl
    · rcases hl with hl | hl | hl | hl <;> cases hl
  · rw [exec_allowMac_pending remote mac hst]
    exact hrests

theorem exec_add_pending {remote : InAddr} (h : s.cleanupPending = true) :
    exec cfg env s (.add remote) = s := by
  show wp (provisionAdd cfg env remote) (fun _ s' => s' = s) s
  simp only [provisionAdd, wp_bind, wp_get, h, if_true]
  rfl

theorem exec_add_idle {remote : InAddr} (htables : s.Tables cfg) (h : s.cleanupPending = false) :
    (exec cfg env s (.add remote)).cleanupPending = false := by
  show wp (provisionAdd cfg env remote) (fun _ s' => s'.cleanupPending = false) s
  refine wp_mono (provisionAdd_spec cfg env htables.1 htables.2 h) fun out s' h' => ?_
  rcases h' with ⟨p, -, rfl, -⟩ | ⟨p, -, -, hpend, -⟩ | ⟨-, -, hpend, -⟩ | ⟨s₁, -, -, hpend, rfl, -⟩
  · exact h
  · exact hpend
  · exact hpend
  · exact hpend

/-- Outside a pending cleanup, calls that revoke nothing keep the rules listed. -/
theorem exec_accounted_of_idle {call : Call} (htables : s.Tables cfg) (h : s.Accounted)
    (hlabels : ∀ r mac, ¬ call.Labels (.revoke r mac)) (hidle : s.cleanupPending = false)
    (hidle' : (exec cfg env s call).cleanupPending = false)
    (hleaks : ¬ s.world.Leaks (exec cfg env s call).world) : (exec cfg env s call).Accounted := by
  obtain ⟨restIn, restOut, hlists, -, -, hrests⟩ := h
  obtain ⟨rfl, rfl⟩ := hrests hidle
  refine .of_lists (Core.trail_listed hlabels (exec_trail cfg env call htables.1 htables.2) htables.1
    hleaks (fun _ => hlists) hidle')

theorem exec_accounted (call : Call) (hinv : s.abs.Inv cfg host)
    (h : s.Accounted) (hcall : s.Undisturbed cfg env call) : (exec cfg env s call).Accounted := by
  have htables : s.Tables cfg := ⟨hinv.tables, hinv.idle⟩
  cases call with
  | packet packet =>
    by_cases hpend : s.cleanupPending = true
    · rw [exec_packet_pending hpend]
      exact h
    · have hidle := Bool.of_not_eq_true hpend
      exact exec_accounted_of_idle htables h (Call.Labels.not_revoke rfl) hidle
        (exec_idle rfl htables hidle) hcall
  | add remote =>
    by_cases hpend : s.cleanupPending = true
    · rw [exec_add_pending hpend]
      exact h
    · have hidle := Bool.of_not_eq_true hpend
      refine exec_accounted_of_idle htables h (fun r mac hl => ?_) hidle
        (exec_add_idle htables hidle) hcall
      rcases hl with (hl | hl) | hl <;> cases hl
  | allowMac remote mac => exact exec_allowMac_accounted hinv.tables h hcall
  | delall => exact provisionDelall_accounted cfg hinv.tables h hcall
  | wait usec => exact h
  | del remote =>
    cases hlookup : provisionGetTunnelByip s remote with
    | none =>
      rw [exec_del_untracked hlookup]
      exact h
    | some p =>
      obtain ⟨tun, hp, -⟩ := hinv.tables.record hlookup
      obtain ⟨restIn, restOut, hlists, hin, hout, hrests⟩ := h
      obtain ⟨⟨hremoving, -⟩, -, hkept⟩ :=
        wp_and (provisionDel_spec cfg env host hinv.tables hlookup hp)
          (provisionDel_lists hinv hlists hlookup hp)
      refine ⟨restIn, restOut, hkept (.inr (hcall p tun ⟨hlookup, hp⟩).1), hin, hout, fun hidle => ?_⟩
      exact hrests (hremoving.pending.symm.trans hidle)

theorem run_accounted (calls : List Call) (hinv : s.abs.Inv cfg host)
    (h : s.Accounted) (hcalls : RunUndisturbed cfg env calls s) : (run cfg env calls s).Accounted := by
  induction calls generalizing s with
  | nil => exact h
  | cons call rest ih =>
    refine ih ?_ (exec_accounted call hinv h hcalls.1) hcalls.2
    exact hinv.trail (exec_trail cfg env call hinv.tables hinv.idle)

/-! ## After a removal -/

/-- A removal of `remote` that fails keeps the tunnel, and does not leave it ready
    without a link. -/
def Sys.FailsSafely (cfg : SoftgredConfig) (env : Env) (s : Sys) (remote : InAddr) : Prop :=
  ∀ p tun, s.InTable remote p tun → ((provisionDel env remote).run s).1 = .fail →
    ∃ tun', (exec cfg env s (.del remote)).InTable remote p tun' ∧
      ((exec cfg env s (.del remote)).world.kernel.hasLink tun'.ifgre = false → tun'.ready = false)

/-- Nothing is left of the tunnel `tun` of `remote`. -/
structure Sys.Rid (remote : InAddr) (tun : TunnelContext) (s : Sys) : Prop where
  tunnel : provisionGetTunnelByip s remote = none
  macs : ∀ mac, tun.macs.contains mac = true → provisionGetTunnelByMac s mac = none
  slot : s.slots tun.id = false
  jumps : ∀ hook ∈ hooks, ¬ s.world.kernel.HasRule hook.table hook.chain (hook.jump tun.ifgre)
  ingress : ∀ mac, ¬ s.world.kernel.HasRule .nat .softgreIn (acceptIn tun.ifgre mac)
  egress : ∀ mac, ¬ s.world.kernel.HasRule .filter .softgreOut (acceptOut tun.ifgre mac)

/-- A removal of `remote` in which whatever exists can be deleted succeeds and leaves
    nothing behind. -/
def Sys.Removable (cfg : SoftgredConfig) (env : Env) (s : Sys) (remote : InAddr) : Prop :=
  ∀ p tun, s.InTable remote p tun → s.world.Willing (exec cfg env s (.del remote)).world →
    ((provisionDel env remote).run s).1 = .ok ∧ (exec cfg env s (.del remote)).Rid remote tun

theorem Sys.Undisturbed.failsSafely {remote : InAddr} (hst : s.abs.store.Inv cfg)
    (h : s.Undisturbed cfg env (.del remote)) : s.FailsSafely cfg env remote := by
  intro p tun hin hfail
  obtain ⟨-, ⟨hret, -⟩ | ⟨-, hretained⟩⟩ :=
    provisionDel_spec cfg env s.world.kernel hst hin.lookup hin.record
  · cases hfail.symm.trans hret
  obtain ⟨macs, x, hp⟩ := hretained.record
  refine ⟨_, ⟨hretained.lookup, hp⟩, fun hgone => Bool.eq_false_iff.mpr fun hready => ?_⟩
  have hdeleted := (h p tun hin).2 hready
  -- of a ready tunnel every rule was deleted, so it was the link that stayed
  rcases hretained.hindered with ⟨hlink, -⟩ | ⟨mac, -, ev, hnew, hno, hcmd⟩ | ⟨ev, hnew, hno, hcmd, -⟩
  · cases hgone.symm.trans hlink
  · have hok := hdeleted ev hnew (by rcases hcmd with hcmd | hcmd <;> rw [hcmd] <;> rfl)
    cases hno.symm.trans hok
  · cases hno.symm.trans (hdeleted ev hnew hcmd)

/-- A rule of no tracked tunnel is not among those of the tracked ones. -/
theorem Kernel.Lists.not_hasRule {k : Kernel} {t : EbTable} {ch : Chain}
    {accept : CStr → CStr → Rule} {rest tail : List Rule} {st : Store} {name : CStr}
    (h : k.Lists t ch accept rest st.Permits) (hrest : rest ⊆ tail)
    (htail : ∀ name mac, accept name mac ∉ tail)
    (hinj : ∀ {name mac name' mac'}, accept name mac = accept name' mac' →
      vlanPattern name = vlanPattern name' ∧ mac = mac')
    (hno : ∀ {q u}, st.heap q = some u → vlanPattern name ≠ vlanPattern u.ifgre) (mac : CStr) :
    ¬ k.HasRule t ch (accept name mac) := by
  rintro ⟨rules', hrules', hr⟩
  obtain ⟨rules, hrules, -, hmem⟩ := h
  cases hrules.symm.trans hrules'
  rcases List.mem_append.mp hr with hr | hr
  · obtain ⟨name', mac', ⟨q, u, hu, rfl, -⟩, heq⟩ := (hmem _).mp hr
    exact hno hu (hinj heq).1
  · exact htail name mac (hrest hr)

theorem Started.jumps_rid (hstart : Started env host s) {s' : Sys} {name : CStr}
    (h : JumpsInv host s'.abs.store s'.world.kernel)
    (hno : ∀ {q u}, s'.abs.store.heap q = some u → vlanPattern name ≠ vlanPattern u.ifgre) :
    ∀ hook ∈ hooks, ¬ s'.world.kernel.HasRule hook.table hook.chain (hook.jump name) := by
  rintro hook hmem ⟨rules, hrules, hr⟩
  obtain ⟨i, hi⟩ := List.mem_iff_getElem?.mp hmem
  obtain ⟨jumps, hchain, -, -, hjumps⟩ := h hook.table hook.chain (builtin_of_hooks hi)
  rw [hrules] at hchain
  obtain ⟨rules', hrules', rfl⟩ := Option.map_eq_some_iff.mp hchain.symm
  rcases List.mem_append.mp hr with hr | hr
  · obtain ⟨_, _, _, _, _, _, ⟨q, u, hu, rfl, -⟩, heq⟩ := (hjumps _).mp hr
    simp only [Hook.jump, Rule.mk.injEq, Option.some.injEq, Prod.mk.injEq] at heq
    exact hno hu heq.1.2
  · refine hstart.target_ne hrules' _ hr ?_
    simp only [hooks, List.mem_cons, List.not_mem_nil, or_false] at hmem
    rcases hmem with rfl | rfl | rfl <;> rfl

theorem Sys.Accounted.removable {s₀ : Sys} {remote : InAddr} (hstart : Started env host s₀)
    (hinv : s.abs.Inv cfg host) (h : s.Accounted) :
    s.Removable cfg env remote := by
  intro p tun hin hwilling
  obtain ⟨restIn, restOut, hlists, hsubIn, hsubOut, -⟩ := h
  obtain ⟨hret, hremoving, hremoved, hlists'⟩ := exec_del_willing hinv hlists hin hwilling
  have hinv' := hinv.trail hremoving.moves.trail
  have hst := hinv.tables
  have hst' := hinv'.tables
  have habs := heap_abs_of_some hin.record
  -- the slot is free, so no tracked tunnel has a name for which its rules are
  have hno : ∀ {q u}, (exec cfg env s (.del remote)).abs.store.heap q = some u →
      vlanPattern tun.ifgre ≠ vlanPattern u.ifgre := by
    intro q u hu hpattern
    have hname : tun.ifgre = tunnelName cfg tun.id := hst.ifgre_eq habs
    rw [hname, hst'.ifgre_eq hu] at hpattern
    have hid := vlanPattern_tunnelName_injective cfg (hst.id_lt habs) (hst'.id_lt hu) hpattern
    have hslot := hst'.slot_iff.mpr ⟨q, u, hu, rfl⟩
    rw [← tunnelName_injective cfg (hst.id_lt habs) (hst'.id_lt hu) hid] at hslot
    cases hremoved.slot.symm.trans hslot
  refine ⟨hret, hremoved.lookup, fun mac hmac => ?_, hremoved.slot,
    hstart.jumps_rid hinv'.jumps hno,
    hlists'.ingress.not_hasRule hsubIn acceptIn_notMem_tail acceptIn_inj hno,
    hlists'.egress.not_hasRule hsubOut acceptOut_notMem_tail acceptOut_inj hno⟩
  refine Option.eq_none_iff_forall_ne_some.mpr fun q hq => ?_
  obtain ⟨u, hu, hmem⟩ := hst'.owner_iff.mp hq
  obtain ⟨tun', hp', rfl⟩ := heap_of_abs hu
  have hne : q ≠ p := by
    rintro rfl
    cases hremoved.record.symm.trans hp'
  rw [hremoving.others hne] at hp'
  have howner := hst.owner_iff.mpr ⟨_, habs, Hashmap.mem_keySet.mpr hmac⟩
  cases howner.symm.trans (hst.owner_iff.mpr ⟨_, heap_abs_of_some hp', hmem⟩)
  exact hne rfl

/-- In every run whose calls are all undisturbed, a removal that fails is safe if it is
    undisturbed too, and a removal in which whatever exists can be deleted succeeds and
    leaves nothing behind. -/
theorem removal_safe_and_retryable (cfg : SoftgredConfig) (env : Env) (host : Kernel) (s : Sys)
    (calls : List Call) (hstart : Started env host s) (hcalls : RunUndisturbed cfg env calls s)
    (remote : InAddr) :
    ((run cfg env calls s).Undisturbed cfg env (.del remote) →
      (run cfg env calls s).FailsSafely cfg env remote) ∧
    (run cfg env calls s).Removable cfg env remote := by
  have hinv := run_inv cfg env calls (hstart.inv cfg)
  have hidle : s.cleanupPending = false := by
    obtain ⟨errno, clock, rfl, -⟩ := hstart.boot
    rfl
  have haccounted := run_accounted calls (hstart.inv cfg) (.of_lists (hstart.listed hidle)) hcalls
  exact ⟨fun h => h.failsSafely hinv.tables, haccounted.removable hstart hinv⟩

/-- A link that could not be deleted at first: the second removal leaves nothing behind. -/
theorem removal_safe_and_retryable_hesitant :
    ((provisionDel Sample.hesitant Sample.packet.remote).run (run Sample.config Sample.hesitant
      [.packet Sample.packet] (Sample.start Sample.hesitant))).1 = .fail ∧
    (run Sample.config Sample.hesitant [.packet Sample.packet, .del Sample.packet.remote,
      .del Sample.packet.remote] (Sample.start Sample.hesitant)).Rid Sample.packet.remote
      ((run Sample.config Sample.hesitant [.packet Sample.packet, .del Sample.packet.remote]
        (Sample.start Sample.hesitant)).deref 0) := by
  have hstart : Started Sample.hesitant Sample.kernel (Sample.start Sample.hesitant) :=
    Sample.started (by decide +kernel)
  have htables := Sample.start_tables Sample.hesitant
  have hpacket : (Sample.start Sample.hesitant).Undisturbed Sample.config Sample.hesitant
      (.packet Sample.packet) := by
    have honly : (Sample.start Sample.hesitant).world.Only (·.ok = true) (exec Sample.config
        Sample.hesitant (Sample.start Sample.hesitant) (.packet Sample.packet)).world :=
      World.Only.of_since (exec_suffix _ htables) (by decide +kernel)
    rintro ⟨ev, hnew, -, hno, -⟩
    cases hno.symm.trans (honly.of_new hnew)
  have htables₁ := exec_tables Sample.config Sample.hesitant (.packet Sample.packet) htables
  have hdel : (exec Sample.config Sample.hesitant (Sample.start Sample.hesitant)
      (.packet Sample.packet)).Undisturbed Sample.config Sample.hesitant
      (.del Sample.packet.remote) := by
    have honly : (exec Sample.config Sample.hesitant (Sample.start Sample.hesitant)
        (.packet Sample.packet)).world.Only (·.cmd.deletes = false) (exec Sample.config
        Sample.hesitant (exec Sample.config Sample.hesitant (Sample.start Sample.hesitant)
          (.packet Sample.packet)) (.del Sample.packet.remote)).world :=
      World.Only.of_since (exec_suffix _ htables₁) (by decide +kernel)
    refine fun p tun _ => ⟨fun mac evIn evOut hin _ hcmd _ => ?_, fun _ ev hnew hdeletes => ?_⟩
    · have hno := honly.of_new hin
      rw [hcmd] at hno
      cases hno
    · cases hdeletes.symm.trans (honly.of_new hnew)
  have hremovable := (removal_safe_and_retryable Sample.config Sample.hesitant Sample.kernel _
    [.packet Sample.packet, .del Sample.packet.remote] hstart ⟨hpacket, hdel, trivial⟩
    Sample.packet.remote).2
  refine ⟨by decide +kernel, (hremovable 0 _ ⟨by decide +kernel, ?_⟩ ?_).2⟩
  · exact heap_of_isSome (by decide +kernel)
  · exact World.Only.of_since (exec_suffix _ (exec_tables Sample.config Sample.hesitant
      (.del Sample.packet.remote) htables₁)) (by decide +kernel)

namespace Sample

/-- Refuses the first deletion of each egress rule. -/
def balky : Env
  | .delete .filter .softgreOut _, 0 => ⟨false, none, 0⟩
  | _, _ => ⟨true, none, 0⟩

end Sample

/-- The egress rule of an address cannot be deleted: the tunnel stays ready without its
    link, and the next removal fails over the ingress rule that is gone already. -/
theorem not_removal_safe_and_retryable :
    ¬ (run Sample.config Sample.balky [.packet Sample.packet]
        (Sample.start Sample.balky)).FailsSafely Sample.config Sample.balky Sample.packet.remote ∧
    ¬ (run Sample.config Sample.balky [.packet Sample.packet, .del Sample.packet.remote]
        (Sample.start Sample.balky)).Removable Sample.config Sample.balky Sample.packet.remote := by
  have htables := exec_tables Sample.config Sample.balky (.packet Sample.packet)
    (Sample.start_tables Sample.balky)
  refine ⟨fun h => ?_, fun h => ?_⟩
  · obtain ⟨tun', hin, hready⟩ := h 0 _ ⟨by decide +kernel, heap_of_isSome (by decide +kernel)⟩
      (by decide +kernel)
    have htun : tun' = (exec Sample.config Sample.balky (run Sample.config Sample.balky
        [.packet Sample.packet] (Sample.start Sample.balky)) (.del Sample.packet.remote)).deref 0 :=
      (deref_of_some hin.record).symm
    rw [htun] at hready
    exact absurd (hready (by decide +kernel)) (by decide +kernel)
  · have hret := (h 0 _ ⟨by decide +kernel, heap_of_isSome (by decide +kernel)⟩
      (World.Only.of_since (exec_suffix _ (exec_tables Sample.config Sample.balky
        (.del Sample.packet.remote) htables)) (by decide +kernel))).1
    exact absurd hret (by decide +kernel)

end Softgre
