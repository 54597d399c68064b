-- SUMMARY: The removal of a tunnel keeps the rules listed, unless it stops between the two of an address.
import Softgre.Ledger.Rules
import Softgre.Provision.Refine

/-!
# Removal and the accept rules

`provision_del` takes an address out of the maps after both its rules are gone. If
one of them cannot be deleted the address stays, and the tables still say that it
has two rules.
-/

namespace Softgre

open Base

variable {cfg : SoftgredConfig} {env : Env} {host : Kernel} {s s' : Sys} {p : Ptr}
  {restIn restOut : List Rule}

/-- The rules of both chains are those of the addresses in the tables. -/
abbrev Sys.Lists (restIn restOut : List Rule) (s : Sys) : Prop :=
  ListsInv restIn restOut s.abs.store s.world.kernel

/-- The two deletions for an address of the tunnel `name` ended alike, for every address. -/
def World.Paired (name : CStr) (w w' : World) : Prop :=
  ∀ mac evIn evOut, w.New w' evIn → w.New w' evOut → evIn.cmd = revokeIn name mac →
    evOut.cmd = revokeOut name mac → evIn.ok = evOut.ok

theorem World.Paired.of_suffix {w w₁ w' : World} {name : CStr} (h : w.Paired name w')
    (hsuffix : w.trace <:+ w₁.trace) : w₁.Paired name w' :=
  fun mac evIn evOut hin hout => h mac evIn evOut (hin.of_suffix hsuffix) (hout.of_suffix hsuffix)

/-! ## Steps that do not touch the rules -/

theorem edits_isSome_of_mem_resetCmds {cmd : Cmd} (h : cmd ∈ resetCmds) : cmd.edits.isSome = true := by
  rcases edits_of_mem_resetCmds h with hedits | hedits <;> rw [hedits] <;> rfl

theorem not_deletes_of_mem_resetCmds {cmd : Cmd} (h : cmd ∈ resetCmds) : cmd.deletes = false := by
  simp only [resetCmds, List.mem_cons, List.not_mem_nil, or_false] at h
  rcases h with rfl | rfl | rfl | rfl | rfl <;> rfl

/-- Quiet steps keep the rules listed as long as nothing is reset. -/
theorem Sys.Moves.lists (h : s.Moves cfg Quiet s') (hst : s.abs.store.Inv cfg)
    (honly : s.world.Only (·.cmd ∉ resetCmds) s'.world) (hlists : s.Lists restIn restOut) :
    s'.Lists restIn restOut :=
  Core.trail_lists (fun _ _ h => nomatch h) h.trail hst nofun (fun _ _ h => nomatch h)
    (fun _ hnew _ => honly.of_new hnew) hlists

/-! ## Revoking addresses -/

/-- A revocation that fails has been refused the deletion of a rule that exists, and has
    changed nothing if both deletions failed. -/
theorem World.Revokes.lists_of_fail {w w' : World} {t : Tunnel} {st : Store} {mac : CStr}
    {evIn evOut : Event} (h : w.Revokes t.ifgre mac evIn evOut .fail w')
    (hlists : ListsInv restIn restOut st w.kernel) (hp : st.heap p = some t) (hmac : mac ∈ t.macs) :
    (∃ ev, w.New w' ev ∧ ev.Unwilling) ∧
      (w.Paired t.ifgre w' → ListsInv restIn restOut st w'.kernel) := by
  have hP : st.Permits t.ifgre mac := ⟨p, t, hp, rfl, hmac⟩
  have hnot : ¬ (evIn.ok = true ∧ evOut.ok = true) := fun hok => nomatch h.ret_ok.mpr hok
  rcases h.ingress with hin | hin
  · have hout : evOut.Refused evIn.kernel :=
      h.egress.resolve_left fun hout => hnot ⟨hin.ok, hout.ok⟩
    obtain ⟨k, hk⟩ := (hlists.egress.congr (hin.chain nofun) fun _ _ => Iff.rfl).deletable hP
    have happly : evIn.kernel.apply evOut.cmd = some k := by rw [h.cmdOut]; exact hk
    refine ⟨⟨evOut, h.newOut, hout.unwilling happly⟩, fun hpaired => ?_⟩
    have heq := hpaired mac evIn evOut h.newIn h.newOut h.cmdIn h.cmdOut
    rw [hin.ok, hout.ok] at heq
    cases heq
  · obtain ⟨k, hk⟩ := hlists.ingress.deletable hP
    have happly : w.kernel.apply evIn.cmd = some k := by rw [h.cmdIn]; exact hk
    refine ⟨⟨evIn, h.newIn, hin.unwilling happly⟩, fun hpaired => ?_⟩
    have heq := hpaired mac evIn evOut h.newIn h.newOut h.cmdIn h.cmdOut
    have hout : evOut.Refused evIn.kernel := by
      refine h.egress.resolve_left fun hout => ?_
      rw [hin.ok, hout.ok] at heq
      cases heq
    have hkernel : w'.kernel = w.kernel := by
      rw [h.world]
      exact hout.kernel.trans hin.kernel
    rw [hkernel]
    exact hlists

theorem revokeMacs_lists {tun : TunnelContext} {iter : Iter} {fuel : Nat}
    (hst : s.abs.store.Inv cfg) (hlists : s.Lists restIn restOut) (hp : s.heap p = some tun)
    (hkeys : ∀ m, m ∈ tun.macs.keySet ↔ m ∈ (tun.macs.rest iter).map Prod.fst)
    (hfuel : (tun.macs.rest iter).length < fuel) :
    wp (revokeMacs env p fuel iter) (fun ret s' =>
      (ret = .fail → ∃ ev, s.world.New s'.world ev ∧ ev.Unwilling) ∧
      (ret = .ok ∨ s.world.Paired tun.ifgre s'.world → s'.Lists restIn restOut)) s := by
  refine wp_mono (revokeMacs_rule env
    (I := fun s' => s'.abs.store.Inv cfg ∧ s'.Lists restIn restOut ∧
      s.world.trace <:+ s'.world.trace ∧ ∃ tun', s'.heap p = some tun' ∧ tun'.ifgre = tun.ifgre)
    (E := fun s' => (∃ ev, s.world.New s'.world ev ∧ ev.Unwilling) ∧
      (s.world.Paired tun.ifgre s'.world → s'.Lists restIn restOut)) ?_ fuel
    ⟨hst, hlists, List.suffix_refl _, tun, hp, rfl⟩ hp hkeys hfuel) fun ret s' hout => ?_
  · rintro s₁ tun₁ iter₁ mac ⟨hst₁, hlists₁, hsuffix, tun', hp', hname⟩ hp₁ hmac hat
    cases hp₁.symm.trans hp'
    have habs := heap_abs_of_some hp₁
    refine wp_mono (ifaceEbtablesRevoke_revokes env _ mac s₁.world)
      fun ret w ⟨evIn, evOut, hrevokes⟩ => ⟨fun hret => ?_, fun hret => ?_⟩
    · subst hret
      obtain ⟨⟨ev, hnew, hunwilling⟩, hkept⟩ := hrevokes.lists_of_fail (t := tun₁.abs) hlists₁ habs hmac
      refine ⟨⟨ev, hnew.of_suffix hsuffix, hunwilling⟩, fun hpaired => hkept ?_⟩
      exact (hname ▸ hpaired).of_suffix hsuffix
    · obtain ⟨hin, hout⟩ := hrevokes.ret_ok.mp hret
      have hin : evIn.Done s₁.world.kernel _ := hrevokes.ingress.resolve_right fun h => by
        cases h.ok.symm.trans hin
      have hout : evOut.Done evIn.kernel _ := hrevokes.egress.resolve_right fun h => by
        cases h.ok.symm.trans hout
      have hworld : w.trace = evOut :: evIn :: s₁.world.trace := congrArg World.trace hrevokes.world
      have hstore := congrArg Core.store (abs_forget (s := s₁.withWorld w) (p := p) hat)
      refine ⟨?_, ?_, ?_, _, heap_write_self _ p _, hname⟩
      · rw [hstore]
        exact hst₁.unlearn habs hmac
      · have hkernel : w.kernel = evOut.kernel := by rw [hrevokes.world]; rfl
        show ListsInv restIn restOut ((s₁.withWorld w).forget p tun₁ iter₁ mac).abs.store w.kernel
        rw [hstore, hkernel]
        exact hlists₁.unlearn hst₁ habs hmac hin hout
      · refine hsuffix.trans ?_
        show s₁.world.trace <:+ w.trace
        rw [hworld]
        exact (List.suffix_cons _ _).trans (List.suffix_cons _ _)
  · rcases hout with ⟨rfl, ⟨-, hkept, -⟩, -⟩ | ⟨rfl, hfail, hkept⟩
    · exact ⟨nofun, fun _ => hkept⟩
    · exact ⟨fun _ => hfail, fun h => hkept (h.resolve_left nofun)⟩

/-! ## Removing a tunnel -/

theorem provisionDel_lists {remote : InAddr} {tun : TunnelContext}
    (hinv : s.abs.Inv cfg host) (hlists : s.Lists restIn restOut)
    (hlookup : provisionGetTunnelByip s remote = some p) (hp : s.heap p = some tun) :
    wp (provisionDel env remote) (fun ret s' =>
      (ret = .fail → ∃ ev, s.world.New s'.world ev ∧ ev.Unwilling) ∧
      (ret = .ok ∨ s.world.Paired tun.ifgre s'.world → s'.Lists restIn restOut)) s := by
  simp only [provisionDel, wp_bind, wp_get, hlookup]
  refine wp_mono (greDelFailed_spec cfg env hp) fun failed s₁ hgre => ?_
  obtain ⟨ev, hs₁, hmoves₁, hcmd, -, h₁⟩ := hgre
  have hinv₁ := hinv.trail hmoves₁.trail
  have hlists₁ : s₁.Lists restIn restOut := by
    refine hmoves₁.lists hinv.tables ?_ hlists
    rw [hs₁]
    refine World.Only.record fun hmem => ?_
    have hsome := edits_isSome_of_mem_resetCmds hmem
    rw [hcmd] at hsome
    cases hsome
  rcases h₁ with ⟨rfl, hgone⟩ | ⟨rfl, hrefused, hlink⟩
  swap
  · have happly := Kernel.apply_delLink_iff.mpr ⟨hlink, rfl⟩
    refine ⟨fun _ => ⟨ev, ?_, hrefused.unwilling (hcmd.symm ▸ happly)⟩, fun _ => hlists₁⟩
    rw [hs₁]
    exact World.New.record _ _
  have hp₁ : s₁.heap p = some tun := by rw [hs₁]; exact hp
  have hsuffix₁ : s.world.trace <:+ s₁.world.trace := Core.trail_suffix hmoves₁.trail
  simp only [Bool.false_eq_true, if_false, wp_bind, wp_get, deref_of_some hp₁]
  refine wp_mono (wp_and
    (revokeMacs_spec cfg env hp₁ (mem_keySet_iff_rest_init tun.macs)
      (Nat.lt_succ_of_le (tun.macs.length_rest_le _)))
    (revokeMacs_lists hinv₁.tables hlists₁ hp₁ (mem_keySet_iff_rest_init tun.macs)
      (Nat.lt_succ_of_le (tun.macs.length_rest_le _))))
    fun ret s₂ hrevoked => ?_
  obtain ⟨⟨h₂, hout₂⟩, hfail₂, hkept₂⟩ := hrevoked
  have hinv₂ := hinv₁.trail h₂.moves.trail
  rcases hout₂ with ⟨rfl, macs, hp₂, hmacs⟩ | ⟨rfl, -⟩
  swap
  · obtain ⟨ev', hnew, hunwilling⟩ := hfail₂ rfl
    refine ⟨fun _ => ⟨ev', hnew.of_suffix hsuffix₁, hunwilling⟩, fun h => hkept₂ (.inr ?_)⟩
    rcases h with h | hpaired
    · cases h
    · exact hpaired.of_suffix hsuffix₁
  have hsuffix₂ : s.world.trace <:+ s₂.world.trace :=
    hsuffix₁.trans (Core.trail_suffix h₂.moves.trail)
  have hgone₂ : s₂.world.EnodevSound → s₂.world.kernel.hasLink tun.ifgre = false := fun hsound => by
    have hmem : ev ∈ s₁.world.trace := by
      rw [hs₁]
      exact List.mem_cons_self
    rw [Kernel.hasLink_congr h₂.links, hs₁]
    exact hgone (.inl (hsound ev ((Core.trail_suffix h₂.moves.trail).mem hmem)))
  simp only [wp_bind]
  refine wp_mono (delTunnelHooks_spec cfg env host hinv₂.tables hp₂ hgone₂)
    fun ret s₃ hhooks => ?_
  obtain ⟨x, w, hs₃, hmoves₃, -, honly, h₃⟩ := hhooks
  have hlists₃ : s₃.Lists restIn restOut := by
    refine hmoves₃.lists hinv₂.tables ?_ (hkept₂ (.inl rfl))
    rw [hs₃]
    refine honly.mono fun ev' hdel hmem => ?_
    cases hdel.symm.trans (not_deletes_of_mem_resetCmds hmem)
  have hst₃ := hmoves₃.tables hinv₂.tables
  subst hs₃
  rcases h₃ with ⟨rfl, rfl⟩ | ⟨rfl, ev', hnew, -, hunwilling⟩
  · have hp₃ := heap_write_self (s₂.withWorld w) p { tun with macs, firewallHooks := 0 }
    have hlookup₃ : ((s₂.withWorld w).write p { tun with macs, firewallHooks := 0 }).tunnels.lookup
        remote.sAddr = some p := by
      show s₂.tunnels.lookup remote.sAddr = some p
      rw [h₂.frame.tunnels, hs₁]
      exact hlookup
    have hstore := congrArg Core.store (abs_untrack hst₃ hlookup₃ hp₃)
    rw [wp_bind, wp_get, deref_of_some hp₃]
    refine wp_untrack ⟨fun hret => absurd hret (by decide), fun _ => ?_⟩
    show ListsInv restIn restOut (Sys.untrack _ remote _).abs.store w.kernel
    rw [hstore]
    exact hlists₃.congr rfl rfl (Store.permits_untrack (heap_abs_of_some hp₃) hmacs)
  · exact ⟨fun _ => ⟨ev', hnew.of_suffix hsuffix₂, hunwilling hinv₂⟩, fun _ => hlists₃⟩

end Softgre
