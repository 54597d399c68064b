-- SUMMARY: The cleanup of all tunnels, as a trail of the ledger.
import Softgre.Provision.Refine

/-!
# Cleanup

`provision_delall` walks over the tunnels without changing the table it walks
over, so each record is visited once, and the links that are gone stay gone.
-/

namespace Softgre

open Base

variable {cfg : SoftgredConfig} {env : Env} {host : Kernel} {s s' : Sys} {p : Ptr}

variable (cfg env host)

/-! ## One tunnel -/

/-- The commands by which a cleanup takes down the tunnel `name`. -/
def Cmd.Dismantles (name : CStr) : Cmd → Prop
  | .delLink n => n = name
  | .delete .. => True
  | _ => False

theorem ifaceGreDel_issues (name : CStr) : Issues (Cmd.Dismantles name) (ifaceGreDel env name) := by
  refine (Issues.ifNametoindex env name).bind fun found => ?_
  cases found with
  | true => exact Issues.perform rfl
  | false => exact Issues.unresolved rfl

theorem delHooks_issues (name : CStr) (hs : List Hook) : ∀ i installed,
    Issues (Cmd.Dismantles name) (delHooks env name hs i installed) := by
  induction hs with
  | nil => exact fun _ _ => Issues.pure _
  | cons h rest ih =>
    intro i installed
    rw [delHooks]
    split
    · refine Issues.bind (Issues.perform trivial) fun ret => ?_
      cases ret with
      | ok => exact ih _ _
      | fail => exact ih _ _
    · exact ih _ _

theorem ifaceEbtablesDelTunnel_issues (name : CStr) (installed : BitVec 32) :
    Issues (Cmd.Dismantles name) (ifaceEbtablesDelTunnel env name installed) :=
  (delHooks_issues env name hooks 0 installed).bind fun _ => Issues.pure _

theorem cleanTunnel_only {tun : TunnelContext} (hp : s.heap p = some tun) :
    wp (cleanTunnel env p) (fun _ s' =>
      s.world.Only (fun ev => ev.cmd.Dismantles tun.ifgre) s'.world) s := by
  have hp₁ := heap_write_self s p { tun with ready := false }
  rw [cleanTunnel, wp_bind]
  refine wp_modifyTunnel hp ?_
  simp only [greDelFailed, wp_bind, wp_get, wp_pure, wp_lift, deref_of_some hp₁]
  refine wp_mono (ifaceGreDel_issues env tun.ifgre s.world) fun ret w h₁ => ?_
  refine wp_ite (fun _ => h₁) fun _ => ?_
  have hp₂ : ((s.write p { tun with ready := false }).withWorld w).heap p =
      some { tun with ready := false } := hp₁
  simp only [delTunnelHooks, wp_bind, wp_get, wp_pure, wp_lift]
  rw [show Sys.deref _ p = _ from deref_of_some hp₂]
  exact wp_mono (ifaceEbtablesDelTunnel_issues env tun.ifgre _ w) fun _ _ h₂ => h₁.trans h₂

/-- The record behind `p` has no hooks left, and its link is gone. -/
def Sys.Clean (s : Sys) (p : Ptr) : Prop :=
  ∃ tun, s.heap p = some tun ∧ tun.firewallHooks = 0 ∧
    (s.world.EnodevSound → s.world.kernel.hasLink tun.ifgre = false)

/-- One round of the cleanup leaves the record clean, or can blame a command. -/
theorem cleanTunnel_spec {tun : TunnelContext} (hst : s.abs.store.Inv cfg)
    (hpend : s.cleanupPending = true) (hp : s.heap p = some tun) :
    wp (cleanTunnel env p) (fun gone s' => s.Moves cfg Quiet s' ∧ s.Frame p s' ∧
      s.world.Unlinks env tun.ifgre s'.world ∧
      ((gone = true ∧ s'.Clean p) ∨
      (gone = false ∧ s.abs.Blames cfg host s'.world))) s := by
  have hunready : Step cfg .internal s.abs
      (s.write p { tun with ready := false }).abs := by
    rw [abs_write]
    exact Step.unready hpend (heap_abs_of_some hp)
  have hmoves₁ : s.Moves cfg Quiet (s.write p { tun with ready := false }) :=
    Sys.Moves.step rfl hunready rfl
  have hp₁ := heap_write_self s p { tun with ready := false }
  rw [cleanTunnel, wp_bind]
  refine wp_modifyTunnel hp ?_
  rw [wp_bind]
  refine wp_mono (greDelFailed_spec cfg env hp₁) fun failed s₂ ⟨ev, hs₂, hmoves₂, hcmd, hunlinks, h₂⟩ => ?_
  have hframe₂ : s.Frame p s₂ := by
    rw [hs₂]
    exact ⟨rfl, rfl, rfl, fun hq => if_neg hq⟩
  have hmoves₂ := hmoves₁.trans hmoves₂
  have hlinks₂ : s₂.world.kernel = ev.kernel := by rw [hs₂]; rfl
  have hmem : ev ∈ s₂.world.trace := by
    rw [hs₂]
    exact List.mem_cons_self
  rcases h₂ with ⟨rfl, hgone⟩ | ⟨rfl, hrefused, hlink⟩
  · have hp₂ : s₂.heap p = some { tun with ready := false } := by rw [hs₂]; exact hp₁
    simp only [wp_bind, wp_pure, Bool.false_eq_true, if_false]
    refine wp_mono (delTunnelHooks_spec cfg env host (hmoves₂.tables hst) hp₂
      fun hsound => hlinks₂ ▸ hgone (.inl (hsound ev hmem)))
      fun ret s₃ ⟨x, w, hs₃, hmoves₃, hlinks₃, _, h₃⟩ => ?_
    have hlinks : s₃.world.kernel.links = ev.kernel.links := by
      rw [hs₃, ← hlinks₂]
      exact hlinks₃
    have hsuffix : s₂.world.trace <:+ s₃.world.trace := Core.trail_suffix hmoves₃.trail
    refine ⟨hmoves₂.trans hmoves₃, ?_,
      hunlinks.extend hsuffix (hlinks.trans (congrArg Kernel.links hlinks₂.symm)), ?_⟩
    · refine hframe₂.trans ?_
      rw [hs₃]
      exact ⟨rfl, rfl, rfl, fun hq => if_neg hq⟩
    · rcases h₃ with ⟨rfl, rfl⟩ | ⟨rfl, hblames⟩
      · refine .inl ⟨by simp, { tun with ready := false, firewallHooks := 0 }, ?_, rfl, fun hsound => ?_⟩
        · rw [hs₃]
          exact heap_write_self _ _ _
        · rw [Kernel.hasLink_congr hlinks]
          exact hgone (.inl (hsound ev (hsuffix.mem hmem)))
      · refine .inr ⟨by simp, ?_⟩
        have hblames := hblames.of_trail hmoves₂.trail
        rw [hs₃]
        exact hblames
  · simp only [if_true, wp_pure]
    refine ⟨hmoves₂, hframe₂, hunlinks, .inr ⟨trivial, ?_⟩⟩
    rw [hs₂]
    refine (Core.Blames.refused (c := s.abs) hrefused fun _ => ?_)
    exact ⟨_, hcmd ▸ Kernel.apply_delLink_iff.mpr ⟨hlink, rfl⟩⟩

/-! ## All tunnels -/

/-- A deletion makes no link. -/
theorem World.Unlinks.subset {env : Env} {w w' : World} {name : CStr}
    (h : w.Unlinks env name w') : w'.kernel.links ⊆ w.kernel.links := by
  rcases h with ⟨-, hlinks⟩ | ⟨hlinks, -⟩
  · rw [hlinks]
    exact List.filter_subset_self _
  · rw [hlinks]
    exact List.Subset.refl _

theorem Kernel.hasLink_eq_false_of_subset {k k' : Kernel} {name : CStr} (h : k'.links ⊆ k.links)
    (hgone : k.hasLink name = false) : k'.hasLink name = false :=
  Kernel.hasLink_eq_false_iff.mpr fun l hl => Kernel.hasLink_eq_false_iff.mp hgone l (h hl)

/-- The pointers an iterator has still to visit. -/
def Sys.ahead (s : Sys) (iter : Iter) : List Ptr := (s.tunnels.rest iter).map Prod.snd

/-- A clean record stays clean as long as it is not touched. -/
theorem Sys.Clean.of_frame {q : Ptr} (h : s.Clean q) (hheap : s'.heap q = s.heap q)
    (hsuffix : s.world.trace <:+ s'.world.trace)
    (hlinks : s'.world.kernel.links ⊆ s.world.kernel.links) : s'.Clean q := by
  obtain ⟨tun, hq, hhooks, hgone⟩ := h
  exact ⟨tun, hheap.trans hq, hhooks, fun hsound =>
    Kernel.hasLink_eq_false_of_subset hlinks (hgone (hsound.of_suffix hsuffix))⟩

theorem cleanTunnels_spec (fuel : Nat) : ∀ {s : Sys} {iter : Iter} {ok : Bool},
    s.abs.store.Inv cfg → s.cleanupPending = true → (s.ahead iter).Nodup →
    (∀ q ∈ s.ahead iter, (s.heap q).isSome) → (s.ahead iter).length < fuel →
    wp (cleanTunnels env fuel iter ok) (fun ok' s' => s.Moves cfg Quiet s' ∧
      s.world.Only (fun ev => ∃ name, ev.cmd.Dismantles name) s'.world ∧ s'.tunnels = s.tunnels ∧
      s'.cleanupPending = true ∧ s'.world.kernel.links ⊆ s.world.kernel.links ∧
      (∀ q, q ∉ s.ahead iter → s'.heap q = s.heap q) ∧
      ((ok' = true ∧ ok = true ∧ ∀ q ∈ s.ahead iter, s'.Clean q) ∨
      (ok' = false ∧ (ok = false ∨ s.abs.Blames cfg host s'.world)))) s := by
  induction fuel with
  | zero => exact fun _ _ _ _ h => absurd h (Nat.not_lt_zero _)
  | succ fuel ih =>
    intro s iter ok hst hpend hnodup hheap hfuel
    simp only [cleanTunnels, wp_bind, wp_get]
    rcases s.tunnels.iterNext_cases iter with ⟨hnil, _, hnone⟩ | ⟨key, p, iter', hsome, hrest, -⟩
    · have hahead : s.ahead iter = [] := by rw [Sys.ahead, hnil]; rfl
      rw [hnone, hahead]
      refine ⟨Sys.Moves.refl, World.Only.refl _, rfl, hpend, List.Subset.refl _, fun _ _ => rfl, ?_⟩
      cases ok with
      | true => exact .inl ⟨rfl, rfl, nofun⟩
      | false => exact .inr ⟨rfl, .inl rfl⟩
    · have hahead : s.ahead iter = p :: s.ahead iter' := by rw [Sys.ahead, hrest]; rfl
      rw [hahead] at hnodup hheap hfuel ⊢
      obtain ⟨hnotin, hnodup⟩ := List.nodup_cons.mp hnodup
      obtain ⟨tun, hp⟩ := Option.isSome_iff_exists.mp (hheap p List.mem_cons_self)
      rw [hsome]
      simp only [wp_bind]
      refine wp_mono (wp_and (cleanTunnel_spec cfg env host hst hpend hp) (cleanTunnel_only env hp))
        fun gone s₁ ⟨⟨hmoves₁, hframe₁, hunlinks, h₁⟩, honly₁⟩ => ?_
      have hsub₁ := hunlinks.subset
      have hahead₁ : s₁.ahead iter' = s.ahead iter' := by rw [Sys.ahead, Sys.ahead, hframe₁.tunnels]
      have hne : ∀ q ∈ s.ahead iter', q ≠ p := fun q hq heq => hnotin (heq ▸ hq)
      refine wp_mono (ih (hmoves₁.tables hst) (hframe₁.pending.trans hpend) (hahead₁ ▸ hnodup) ?_ ?_)
        fun ok' s' ⟨hmoves, honly, htunnels, hpend', hsub, hothers, hout⟩ =>
          ⟨hmoves₁.trans hmoves, (honly₁.mono fun _ h => ⟨_, h⟩).trans honly,
            htunnels.trans hframe₁.tunnels, hpend', List.Subset.trans hsub hsub₁, ?_, ?_⟩
      · intro q hq
        rw [hahead₁] at hq
        rw [hframe₁.others (hne q hq)]
        exact hheap q (List.mem_cons_of_mem _ hq)
      · rw [hahead₁]
        exact Nat.lt_of_succ_lt_succ hfuel
      · intro q hq
        obtain ⟨hqp, hq⟩ := not_or.mp (List.mem_cons.not.mp hq)
        exact (hothers q (hahead₁ ▸ hq)).trans (hframe₁.others hqp)
      · rw [hahead₁] at hout hothers
        have hsuffix : s₁.world.trace <:+ s'.world.trace := Core.trail_suffix hmoves.trail
        rcases hout with ⟨rfl, hok, hclean⟩ | ⟨rfl, hbad⟩
        · obtain ⟨rfl, rfl⟩ := Bool.and_eq_true_iff.mp hok
          rcases h₁ with ⟨-, hclean₁⟩ | ⟨h, -⟩
          · refine .inl ⟨rfl, rfl, fun q hq => ?_⟩
            rcases List.mem_cons.mp hq with rfl | hq
            · exact hclean₁.of_frame (hothers q hnotin) hsuffix hsub
            · exact hclean q hq
          · cases h
        · refine .inr ⟨rfl, ?_⟩
          rcases hbad with hbad | hblames
          · rcases h₁ with ⟨rfl, -⟩ | ⟨rfl, hblames₁⟩
            · exact .inl (by simpa using hbad)
            · exact .inr (hblames₁.extend hsuffix)
          · exact .inr (hblames.of_trail hmoves₁.trail)

/-- Every record is ahead of a new iterator, once. -/
theorem mem_ahead_init_iff (hst : s.abs.store.Inv cfg) {q : Ptr} :
    q ∈ s.ahead Table.iterInit ↔ (s.heap q).isSome := by
  rw [Sys.ahead, Hashmap.rest_init, List.mem_map]
  constructor
  · rintro ⟨⟨key, _⟩, hmem, rfl⟩
    obtain ⟨tun, hq, -⟩ := hst.record (Hashmap.lookup_of_mem_entries hmem)
    rw [hq]
    rfl
  · intro hq
    obtain ⟨tun, hq⟩ := Option.isSome_iff_exists.mp hq
    have hlive := hst.live (heap_abs_of_some hq)
    exact ⟨(_, q), Hashmap.mem_entries_iff_lookup.mpr hlive, rfl⟩

/-- After a whole walk, every record that is left is clean. -/
theorem clean_of_ahead (hst' : s'.abs.store.Inv cfg) (htunnels : s'.tunnels = s.tunnels)
    (hclean : ∀ q ∈ s.ahead Table.iterInit, s'.Clean q) (q : Ptr) (tun : TunnelContext)
    (hq : s'.heap q = some tun) : tun.firewallHooks = 0 ∧
      (s'.world.EnodevSound → s'.world.kernel.hasLink tun.ifgre = false) := by
  have hmem : q ∈ s'.ahead Table.iterInit := (mem_ahead_init_iff cfg hst').mpr (by rw [hq]; rfl)
  rw [Sys.ahead, htunnels] at hmem
  obtain ⟨tun', hq', hrest⟩ := hclean q hmem
  cases hq.symm.trans hq'
  exact hrest

theorem flushable_of_clean (hpend : s.cleanupPending = true)
    (hall : ∀ q tun, s.heap q = some tun → tun.firewallHooks = 0 ∧
      (s.world.EnodevSound → s.world.kernel.hasLink tun.ifgre = false)) :
    s.abs.Flushable := by
  refine ⟨hpend, fun q t ht => ?_⟩
  obtain ⟨tun, hq, rfl⟩ := heap_of_abs ht
  exact (hall q tun hq).2

theorem nodup_ahead_init (hst : s.abs.store.Inv cfg) : (s.ahead Table.iterInit).Nodup := by
  have hnodup : s.tunnels.entries.Nodup := List.Nodup.of_map Prod.fst s.tunnels.nodup_keys
  refine List.Nodup.map_on ?_ hnodup
  rintro ⟨key, q⟩ hmem ⟨key', _⟩ hmem' rfl
  -- both keys are the remote of the one record
  obtain ⟨t, ht, hr⟩ := hst.tracked (r := ⟨key⟩) (Hashmap.lookup_of_mem_entries hmem)
  obtain ⟨t', ht', hr'⟩ := hst.tracked (r := ⟨key'⟩) (Hashmap.lookup_of_mem_entries hmem')
  cases ht.symm.trans ht'
  cases hr.symm.trans hr'
  rfl

theorem length_ahead_lt (s : Sys) (iter : Iter) : (s.ahead iter).length < s.tunnels.cap + 1 := by
  rw [Sys.ahead, List.length_map]
  exact Nat.lt_succ_of_le (Hashmap.length_rest_le _ _)

/-- The walk over all tunnels leaves every record clean, or can blame a command. -/
theorem cleanTunnels_all (hst : s.abs.store.Inv cfg) (hpend : s.cleanupPending = true) :
    wp (cleanTunnels env (s.tunnels.cap + 1) Table.iterInit true) (fun ok s' =>
      s.Moves cfg Quiet s' ∧ s.world.Only (fun ev => ∃ name, ev.cmd.Dismantles name) s'.world ∧
      s'.cleanupPending = true ∧
      ((ok = true ∧ ∀ q tun, s'.heap q = some tun → tun.firewallHooks = 0 ∧
        (s'.world.EnodevSound → s'.world.kernel.hasLink tun.ifgre = false)) ∨
      (ok = false ∧ s.abs.Blames cfg host s'.world))) s := by
  refine wp_mono (cleanTunnels_spec cfg env host _ hst hpend (nodup_ahead_init cfg hst)
    (fun q hq => (mem_ahead_init_iff cfg hst).mp hq) (length_ahead_lt s _))
    fun ok s' ⟨hmoves, honly, htunnels, hpend', _, _, hout⟩ => ⟨hmoves, honly, hpend', ?_⟩
  rcases hout with ⟨rfl, -, hclean⟩ | ⟨rfl, h | hblames⟩
  · exact .inl ⟨rfl, clean_of_ahead cfg (hmoves.tables hst) htunnels hclean⟩
  · cases h
  · exact .inr ⟨rfl, hblames⟩

/-- The state after a complete cleanup. -/
def Sys.cleared (s : Sys) : Sys :=
  { s with
    tunnels := Hashmap.new
    macIndex := Hashmap.new
    slots := fun _ => false
    heap := fun _ => none
    cleanupPending := false
    retryAfter := 0 }

theorem clearTables_spec (hst : s.abs.store.Inv cfg) :
    wp clearTables (fun _ s' => s' = s.cleared) s := by
  have hheap : ∀ q, (if q ∈ s.tunnels.removeAll.2.map Prod.snd then none else s.heap q) = none := by
    intro q
    split
    · rfl
    · next hq =>
      exact Option.not_isSome_iff_eq_none.mp fun h => hq ((mem_ahead_init_iff cfg hst).mpr h)
  simp only [clearTables, tunnelsRemoveAll, wp_bind, wp_modify, Sys.free, Sys.cleared, hheap]
  rfl

/-- How a cleanup ends: with empty tables, or still pending. -/
inductive Cleans (cfg : SoftgredConfig) (host : Kernel) (s : Sys) : Sys → Prop where
  | complete {s₁} : s.Moves cfg Quiet s₁ →
      Step cfg .clear s₁.abs s₁.cleared.abs → s₁.world.kernel.Defaults →
      Cleans cfg host s s₁.cleared
  | incomplete {s₁} : s.Moves cfg Quiet s₁ → s₁.cleanupPending = true →
      s.abs.Blames cfg host s₁.world → Cleans cfg host s s₁

variable {cfg host} in
theorem Cleans.trail (h : Cleans cfg host s s') :
    Trail (Step cfg) (fun l => Quiet l ∨ l = .clear) s.abs s'.abs := by
  cases h with
  | complete hmoves hclear _ => exact (hmoves.trail.mono fun _ => .inl).tail (.inr rfl) hclear
  | incomplete hmoves _ _ => exact hmoves.trail.mono fun _ => .inl

theorem provisionDelall_spec (hst : s.abs.store.Inv cfg) :
    wp (provisionDelall env) (fun _ s' => Cleans cfg host s s') s := by
  have hmoves₀ : s.Moves cfg Quiet { s with cleanupPending := true } :=
    Sys.Moves.step rfl Step.pend rfl
  simp only [provisionDelall, wp_bind, wp_modify, wp_get]
  refine wp_mono (cleanTunnels_all cfg env host (s := { s with cleanupPending := true }) hst rfl)
    fun ok s₁ ⟨hmoves₁, _, hpend, hout⟩ => ?_
  have hmoves₁ := hmoves₀.trans hmoves₁
  have hst₁ := hmoves₁.tables hst
  rcases hout with ⟨rfl, hall⟩ | ⟨rfl, hblames⟩
  · have hflush := flushable_of_clean hpend hall
    simp only [if_true, wp_bind, wp_lift]
    refine wp_mono (ifaceEbtablesReset_spec cfg host env hflush)
      fun ret w hreset => ?_
    obtain ⟨htrail, hlinks, hret⟩ := hreset
    have hmoves₂ : s.Moves cfg Quiet (s₁.withWorld w) := hmoves₁.trans ⟨htrail, rfl⟩
    rcases hret with ⟨rfl, hdefaults⟩ | ⟨rfl, hblames⟩
    · rw [if_pos rfl]
      refine wp_mono (clearTables_spec cfg (s := s₁.withWorld w) hst₁) fun _ s' hs' => ?_
      rw [hs']
      refine .complete hmoves₂ ?_ hdefaults
      have hclear : Step cfg .clear (s₁.withWorld w).abs _ :=
        Step.clear hpend (fun q t ht => ?_) hdefaults.1 hdefaults.2
      · have habs : (s₁.withWorld w).cleared.abs = { (s₁.withWorld w).abs with
            store := (s₁.withWorld w).abs.store.clear, pending := false } := by
          simp only [Sys.abs, Sys.cleared, Store.clear, Hashmap.lookup_new]
          rfl
        rw [habs]
        exact hclear
      · obtain ⟨tun, hq, rfl⟩ := heap_of_abs ht
        refine ⟨fun hsound => ?_, (hall q tun hq).1⟩
        show w.kernel.hasLink tun.ifgre = false
        rw [Kernel.hasLink_congr hlinks]
        exact (hall q tun hq).2 (hsound.of_suffix (Core.trail_suffix htrail))
    · rw [if_neg (by decide)]
      exact .incomplete hmoves₂ hpend (hblames.of_trail hmoves₁.trail)
  · simp only [Bool.false_eq_true, if_false]
    exact .incomplete hmoves₁ hpend (hblames.of_trail hmoves₀.trail)

end Softgre
