-- SUMMARY: How a reset of the chains can break off, and when a cleanup keeps the rules listed.
import Softgre.Ledger.Ownership
import Softgre.Provision.Cleanup
import Softgre.Provision.Removal

/-!
# Cleanup and the accept rules

`iface_ebtables_reset` flushes `SOFTGRE_IN` first. If any of the commands after that
fails, the rules of all addresses are gone while the tables keep the addresses.
-/

namespace Softgre

open Base

variable {cfg : SoftgredConfig} {env : Env} {s : Sys}

/-! ## How a reset can end -/

/-- Every rule of the chain is one of `tail`. -/
def Kernel.Within (k : Kernel) (t : EbTable) (ch : Chain) (tail : List Rule) : Prop :=
  ∃ rules, k.chain t ch = some rules ∧ rules ⊆ tail

/-- Of the default rules of both chains, some are there, and nothing else. -/
structure Kernel.Bare (k : Kernel) : Prop where
  ingress : k.Within .nat .softgreIn [dropRule]
  egress : k.Within .filter .softgreOut [multicastRule, dropRule]

theorem Kernel.Within.append {k k' : Kernel} {t t' : EbTable} {ch ch' : Chain} {r : Rule}
    {tail : List Rule} (h : k.Within t ch tail) (happly : k.apply (.append t' ch' r) = some k')
    (hr : t' = t → r ∈ tail) : k'.Within t ch tail := by
  obtain ⟨rules, hrules, hsub⟩ := h
  by_cases heq : t' = t ∧ ch' = ch
  · obtain ⟨rfl, rfl⟩ := heq
    obtain ⟨-, rules', hrules', rfl⟩ := Kernel.apply_append_iff.mp happly
    cases hrules.symm.trans hrules'
    refine ⟨_, Kernel.chain_setChain_self _ _ _ _, List.append_subset.mpr ⟨hsub, ?_⟩⟩
    exact List.cons_subset.mpr ⟨hr rfl, List.nil_subset _⟩
  · refine ⟨rules, (Kernel.chain_of_apply ?_ happly).trans hrules, hsub⟩
    rintro ⟨⟩
    exact heq ⟨rfl, rfl⟩

theorem append_bare {t : EbTable} {ch : Chain} {r : Rule} (hin : t = .nat → r ∈ [dropRule])
    (hout : t = .filter → r ∈ [multicastRule, dropRule]) :
    Keeps (fun w => w.kernel.Bare) (helperExec env (.append t ch r)) := by
  intro w hw
  refine wp_mono (perform_spec env none _ w) fun ret w' hperform => ?_
  obtain ⟨ev, rfl, -, ⟨-, -, hdone⟩ | ⟨-, -, hrefused, -⟩⟩ := hperform
  · exact ⟨hw.ingress.append hdone.apply hin, hw.egress.append hdone.apply hout⟩
  · show ev.kernel.Bare
    rw [hrefused.kernel]
    exact hw

theorem execAll_keeps {I : World → Prop} {cmds : List Cmd}
    (h : ∀ cmd ∈ cmds, Keeps I (helperExec env cmd)) : Keeps I (execAll env cmds) := by
  induction cmds with
  | nil => exact .pure _
  | cons cmd rest ih =>
    obtain ⟨hcmd, hrest⟩ := List.forall_mem_cons.mp h
    refine hcmd.bind fun ret => ?_
    cases ret with
    | ok => exact ih hrest
    | fail => exact .pure _

theorem execAll_failure (cmds : List Cmd) : ∀ w, wp (execAll env cmds) (fun ret w' =>
    w.trace <:+ w'.trace ∧ (ret = .fail → ∃ ev, w.New w' ev ∧ ev.cmd ∈ cmds ∧ ev.ok = false)) w := by
  induction cmds with
  | nil => exact fun w => ⟨List.suffix_refl _, nofun⟩
  | cons cmd rest ih =>
    intro w
    rw [execAll, wp_bind]
    refine wp_mono (perform_spec env none _ w) fun ret w₁ hperform => ?_
    obtain ⟨ev, rfl, hcmd, ⟨rfl, -, -⟩ | ⟨rfl, -, hrefused, -⟩⟩ := hperform
    · refine wp_mono (ih (w.record ev)) fun ret w' hrest => ?_
      obtain ⟨hsuffix, hfail⟩ := hrest
      refine ⟨(List.suffix_cons _ _).trans hsuffix, fun hret => ?_⟩
      obtain ⟨ev', hnew, hmem, hok⟩ := hfail hret
      exact ⟨ev', hnew.of_suffix (List.suffix_cons _ _), List.mem_cons_of_mem _ hmem, hok⟩
    · refine ⟨List.suffix_cons _ _, fun _ => ⟨ev, World.New.record _ _, ?_, hrefused.ok⟩⟩
      rw [hcmd]
      exact List.mem_cons_self

/-- `SOFTGRE_IN` was flushed, but the reset did not come to its end. -/
structure World.CutShort (w w' : World) : Prop where
  flushed : ∃ ev, w.New w' ev ∧ ev.cmd = .flush .nat .softgreIn ∧ ev.ok = true
  refused : ∃ ev, w.New w' ev ∧ ev.cmd ∈ resetCmds ∧ ev.ok = false

theorem World.CutShort.of_suffix {w w₁ w' : World} (h : w₁.CutShort w')
    (hsuffix : w.trace <:+ w₁.trace) : w.CutShort w' :=
  ⟨h.flushed.imp fun _ hev => ⟨hev.1.of_suffix hsuffix, hev.2⟩,
    h.refused.imp fun _ hev => ⟨hev.1.of_suffix hsuffix, hev.2⟩⟩

/-- A reset that fails has not touched the chains, or has been cut short and left
    `SOFTGRE_OUT` as it was or with a part of its defaults. -/
theorem ifaceEbtablesReset_failure (w : World) : wp (ifaceEbtablesReset env) (fun ret w' =>
    ret = .fail → w'.kernel = w.kernel ∨ (w.CutShort w' ∧
      w'.kernel.Within .nat .softgreIn [dropRule] ∧
      (w'.kernel.chain .filter .softgreOut = w.kernel.chain .filter .softgreOut ∨
        w'.kernel.Within .filter .softgreOut [multicastRule, dropRule]))) w := by
  rw [ifaceEbtablesReset_eq, resetCmds, execAll, wp_bind]
  refine wp_mono (perform_spec env none _ w) fun ret w₁ hperform => ?_
  obtain ⟨ev, rfl, hcmd, ⟨rfl, -, hdone⟩ | ⟨rfl, -, hrefused, -⟩⟩ := hperform
  swap
  · exact fun _ => .inl hrefused.kernel
  obtain ⟨-, hk⟩ := Kernel.apply_flush_iff.mp hdone.apply
  have hin : ev.kernel.Within .nat .softgreIn [dropRule] :=
    ⟨[], by rw [hk, Kernel.chain_setChain_self], List.nil_subset _⟩
  have hflushed : w.New (w.record ev) ev := World.New.record _ _
  show wp (helperExec env (.flush .filter .softgreOut) >>= _) _ _
  rw [wp_bind]
  refine wp_mono (perform_spec env none _ _) fun ret w₂ hperform => ?_
  obtain ⟨ev', rfl, hcmd', ⟨rfl, -, hdone'⟩ | ⟨rfl, -, hrefused', -⟩⟩ := hperform
  swap
  · refine fun _ => .inr ⟨⟨⟨ev, hflushed.extend (List.suffix_cons _ _), hcmd, hdone.ok⟩, ev',
      (World.New.record _ _).of_suffix (List.suffix_cons _ _), ?_, hrefused'.ok⟩, ?_, .inl ?_⟩
    · rw [hcmd']
      decide
    · show ev'.kernel.Within _ _ _
      rw [hrefused'.kernel]
      exact hin
    · show ev'.kernel.chain _ _ = _
      rw [hrefused'.kernel]
      exact hdone.chain (by decide)
  obtain ⟨-, hk'⟩ := Kernel.apply_flush_iff.mp hdone'.apply
  -- both chains are empty now, and the rest appends defaults
  have hbare : ev'.kernel.Bare := by
    obtain ⟨rules, hrules, hsub⟩ := hin
    have hsame : ev'.kernel.chain .nat .softgreIn = ev.kernel.chain .nat .softgreIn :=
      hdone'.chain (by decide)
    exact ⟨⟨rules, hsame.trans hrules, hsub⟩, [], by rw [hk', Kernel.chain_setChain_self],
      List.nil_subset _⟩
  show wp (execAll env (resetCmds.drop 2)) _ _
  have hkeeps : Keeps (fun w => w.kernel.Bare) (execAll env (resetCmds.drop 2)) := by
    refine execAll_keeps fun cmd hmem => ?_
    simp only [resetCmds, List.drop_succ_cons, List.drop_zero, List.mem_cons, List.not_mem_nil,
      or_false] at hmem
    rcases hmem with rfl | rfl | rfl
    · exact append_bare (by decide) fun _ => List.mem_cons_self
    · exact append_bare (fun _ => List.mem_cons_self) (by decide)
    · exact append_bare (by decide) fun _ => List.mem_cons_of_mem _ List.mem_cons_self
  refine wp_mono (wp_and (execAll_failure _ _) (hkeeps _ hbare))
    fun ret w' hrest hret => ?_
  obtain ⟨⟨hsuffix, hfail⟩, hbare'⟩ := hrest
  obtain ⟨ev'', hnew, hmem, hok⟩ := hfail hret
  refine .inr ⟨⟨⟨ev, ?_, hcmd, hdone.ok⟩, ev'', ?_, List.mem_of_mem_drop hmem, hok⟩, hbare'.ingress,
    .inr hbare'.egress⟩
  · exact hflushed.extend ((List.suffix_cons _ _).trans hsuffix)
  · exact hnew.of_suffix ((List.suffix_cons _ _).trans (List.suffix_cons _ _))

/-! ## Cleanup -/

/-- The rules are those of the addresses in the tables. What is below them is complete
    unless a cleanup is pending. -/
def Sys.Accounted (s : Sys) : Prop :=
  ∃ restIn restOut, s.Lists restIn restOut ∧ restIn ⊆ [dropRule] ∧
    restOut ⊆ [multicastRule, dropRule] ∧
    (s.cleanupPending = false → restIn = [dropRule] ∧ restOut = [multicastRule, dropRule])

theorem Sys.Accounted.of_lists (h : s.Lists [dropRule] [multicastRule, dropRule]) : s.Accounted :=
  ⟨_, _, h, List.Subset.refl _, List.Subset.refl _, fun _ => ⟨rfl, rfl⟩⟩

/-- Without an address, what is left of the defaults is all there is to account for. -/
theorem Sys.Accounted.of_within (hst : s.abs.store.Inv cfg)
    (hnone : ∀ mac, provisionGetTunnelByMac s mac = none) (hpend : s.cleanupPending = true)
    (hin : s.world.kernel.Within .nat .softgreIn [dropRule])
    (hout : s.world.kernel.Within .filter .softgreOut [multicastRule, dropRule]) : s.Accounted := by
  obtain ⟨restIn, hrestIn, hsubIn⟩ := hin
  obtain ⟨restOut, hrestOut, hsubOut⟩ := hout
  refine ⟨restIn, restOut, .of_rests hrestIn hrestOut ?_, hsubIn, hsubOut, fun hidle => ?_⟩
  · rintro name mac ⟨q, t, ht, -, hmac⟩
    cases (hnone mac).symm.trans (hst.owner_iff.mpr ⟨t, ht, hmac⟩)
  · cases hpend.symm.trans hidle

theorem not_resets_of_dismantles {cmd : Cmd} {name : CStr} (h : cmd.Dismantles name) :
    cmd ∉ resetCmds := by
  intro hmem
  simp only [resetCmds, List.mem_cons, List.not_mem_nil, or_false] at hmem
  rcases hmem with rfl | rfl | rfl | rfl | rfl <;> exact h

variable (cfg) in
/-- A cleanup keeps the rules accounted for, unless there are addresses and the reset of
    the chains is cut short. -/
theorem provisionDelall_accounted (hst : s.abs.store.Inv cfg) (h : s.Accounted) :
    wp (provisionDelall env) (fun _ s' =>
      ((∃ mac p, provisionGetTunnelByMac s mac = some p) → ¬ s.world.CutShort s'.world) →
      s'.Accounted) s := by
  obtain ⟨restIn, restOut, hlists, hsubIn, hsubOut, -⟩ := h
  have hmoves₀ : s.Moves cfg Quiet { s with cleanupPending := true } :=
    Sys.Moves.step rfl Step.pend rfl
  simp only [provisionDelall, wp_bind, wp_modify, wp_get]
  refine wp_mono (cleanTunnels_all cfg env s.world.kernel (s := { s with cleanupPending := true })
    hst rfl) fun ok s₁ hwalk => ?_
  obtain ⟨hmoves₁, honly, hpend, hout⟩ := hwalk
  have hlists₁ : s₁.Lists restIn restOut :=
    hmoves₁.lists hst (honly.mono fun _ hev => not_resets_of_dismantles hev.choose_spec) hlists
  have hst₁ := hmoves₁.tables hst
  have hkept : ∀ w : World, w.kernel = s₁.world.kernel → (s₁.withWorld w).Accounted := by
    intro w hkernel
    refine ⟨restIn, restOut, ?_, hsubIn, hsubOut, fun hidle => ?_⟩
    · show ListsInv restIn restOut s₁.abs.store w.kernel
      rw [hkernel]
      exact hlists₁
    · cases hpend.symm.trans hidle
  rcases hout with ⟨rfl, hall⟩ | ⟨rfl, -⟩
  swap
  · simp only [Bool.false_eq_true, if_false]
    exact fun _ => hkept s₁.world rfl
  simp only [if_true, wp_bind, wp_lift]
  refine wp_mono (wp_and
    (ifaceEbtablesReset_spec cfg s.world.kernel env
      (flushable_of_clean hpend hall))
    (ifaceEbtablesReset_failure s₁.world)) fun ret w hreset => ?_
  obtain ⟨⟨-, -, hret⟩, hfail⟩ := hreset
  rcases hret with ⟨rfl, hdefaults⟩ | ⟨rfl, -⟩
  · rw [if_pos rfl]
    refine wp_mono (clearTables_spec cfg (s := s₁.withWorld w) hst₁) fun _ s' hs' _ => ?_
    rw [hs']
    refine .of_lists (.of_rests hdefaults.1 hdefaults.2 ?_)
    rintro name mac ⟨_, _, ⟨⟩, -⟩
  · rw [if_neg (by decide)]
    intro hwhole
    rcases hfail rfl with hkernel | ⟨hcut, hin, hegress⟩
    · exact hkept w hkernel
    -- the chains were flushed, so there must be no address
    have hnone : ∀ mac, provisionGetTunnelByMac s mac = none := by
      refine fun mac => Option.eq_none_iff_forall_ne_some.mpr fun q hq => ?_
      exact hwhole ⟨mac, q, hq⟩ (hcut.of_suffix (Core.trail_suffix hmoves₁.trail))
    have hnone₁ : ∀ mac, provisionGetTunnelByMac s₁ mac = none := by
      refine fun mac => Core.trail_owner_eq_none (fun r hl => ?_) hmoves₁.trail (hnone mac)
      cases hl
    refine .of_within (s := s₁.withWorld w) hst₁ hnone₁ hpend hin (hegress.elim (fun hsame => ?_) id)
    refine ⟨restOut, hsame.trans (hlists₁.egress.eq_rest ?_), hsubOut⟩
    rintro name mac ⟨q, t, ht, -, hmac⟩
    cases (hnone₁ mac).symm.trans (hst₁.owner_iff.mpr ⟨t, ht, hmac⟩)

end Softgre
