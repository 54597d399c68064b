-- SUMMARY: The shutdown sequence: the links the last cleanup leaves, and the end of the chains.
import Softgre.Provision.Cleanup

/-!
# Shutdown

`main` ends with `provision_end` and `iface_ebtables_end`. Nothing is passed from
the one to the other, so what is left in the kernel is put together from the
links that survive the cleanup and the answers to the two flushes.
-/

namespace Softgre

open Base

variable {cfg : SoftgredConfig} {env : Env} {host : Kernel} {s s' : Sys} {p : Ptr}

variable (cfg env host)

/-- The end of `main`. -/
def shutdown : ProvM Unit := do
  provisionEnd env
  discard (lift (ifaceEbtablesEnd env))

/-! ## The links that survive -/

/-- A link goes exactly when the environment deletes it, or the link it sits on. -/
theorem World.Unlinks.mem_iff {w w' : World} {name : CStr} (h : w.Unlinks env name w')
    (hsound : w'.EnodevSound) {l : Link}
    (hparent : l ∈ w.kernel.links → name ∈ l.kind.below → w.kernel.hasLink name = true) :
    l ∈ w'.kernel.links ↔ l ∈ w.kernel.links ∧
      (w.Grants env (.delLink name) → l.name ≠ name ∧ name ∉ l.kind.below) := by
  rcases h with ⟨hgrant, hlinks⟩ | ⟨hlinks, hnone⟩
  · rw [hlinks, Kernel.mem_dropLink]
    exact and_congr_right fun _ => ⟨fun h _ => h, fun h => h hgrant⟩
  · rw [hlinks]
    refine ⟨fun hl => ⟨hl, fun hgrant => ?_⟩, And.left⟩
    have hgone := hnone hsound hgrant
    refine ⟨Kernel.hasLink_eq_false_iff.mp hgone l hl, fun hkind => ?_⟩
    rw [hparent hl hkind] at hgone
    cases hgone

/-- The environment refuses the deletions, of those for the records behind `qs`,
    that would take `l` away. -/
def Sys.Spares (env : Env) (s : Sys) (qs : List Ptr) (l : Link) : Prop :=
  ∀ q ∈ qs, ∀ tun, s.heap q = some tun → s.world.Grants env (.delLink tun.ifgre) →
    l.name ≠ tun.ifgre ∧ tun.ifgre ∉ l.kind.below

theorem Sys.spares_cons_iff {q : Ptr} {qs : List Ptr} {tun : TunnelContext} {l : Link}
    (hq : s.heap q = some tun) : s.Spares env (q :: qs) l ↔
      (s.world.Grants env (.delLink tun.ifgre) →
        l.name ≠ tun.ifgre ∧ tun.ifgre ∉ l.kind.below) ∧ s.Spares env qs l := by
  refine List.forall_mem_cons.trans (and_congr_left fun _ => ⟨fun h => h tun hq, ?_⟩)
  intro h tun' hq'
  cases hq.symm.trans hq'
  exact h

/-- Taking down one tunnel has no bearing on the others. -/
theorem Sys.spares_congr {tun : TunnelContext} {qs : List Ptr} {l : Link}
    (hst : s.abs.store.Inv cfg) (hp : s.heap p = some tun) (hframe : s.Frame p s')
    (honly : s.world.Only (fun ev => ev.cmd.Dismantles tun.ifgre) s'.world) (hqs : p ∉ qs) :
    s'.Spares env qs l ↔ s.Spares env qs l := by
  refine forall₂_congr fun q hq => ?_
  have hne : q ≠ p := fun heq => hqs (heq ▸ hq)
  rw [hframe.others hne]
  refine forall₂_congr fun tun' hq' => ?_
  rw [honly.grants_iff]
  intro ev hev heq
  rw [heq] at hev
  exact hne (hst.ifgre_inj (heap_abs_of_some hq') (heap_abs_of_some hp) hev)

/-- Along the walk, a VLAN link goes exactly when one of the deletions takes it away. -/
theorem cleanTunnels_survivors (fuel : Nat) :
    ∀ {s : Sys} {iter : Iter} {ok : Bool}, s.abs.Inv cfg host →
    s.cleanupPending = true → (s.ahead iter).Nodup → (∀ q ∈ s.ahead iter, (s.heap q).isSome) →
    (s.ahead iter).length < fuel →
    wp (cleanTunnels env fuel iter ok) (fun _ s' => s.world.trace <:+ s'.world.trace ∧
      (s'.world.EnodevSound → ∀ l name vid, l.kind = .vlan name vid →
        (l ∈ s'.world.kernel.links ↔
          l ∈ s.world.kernel.links ∧ s.Spares env (s.ahead iter) l))) s := by
  induction fuel with
  | zero => exact fun _ _ _ _ h => absurd h (Nat.not_lt_zero _)
  | succ fuel ih =>
    intro s iter ok hinv hpend hnodup hheap hfuel
    simp only [cleanTunnels, wp_bind, wp_get]
    rcases s.tunnels.iterNext_cases iter with ⟨hnil, _, hnone⟩ | ⟨key, p, iter', hsome, hrest, -⟩
    · have hahead : s.ahead iter = [] := by rw [Sys.ahead, hnil]; rfl
      rw [hnone, hahead]
      refine ⟨List.suffix_refl _, fun _ l _ _ _ => ?_⟩
      exact (and_iff_left fun _ hq => absurd hq List.not_mem_nil).symm
    · have hahead : s.ahead iter = p :: s.ahead iter' := by rw [Sys.ahead, hrest]; rfl
      rw [hahead] at hnodup hheap hfuel ⊢
      obtain ⟨hnotin, hnodup⟩ := List.nodup_cons.mp hnodup
      obtain ⟨tun, hp⟩ := Option.isSome_iff_exists.mp (hheap p List.mem_cons_self)
      rw [hsome]
      simp only [wp_bind]
      refine wp_mono (wp_and (cleanTunnel_spec cfg env host hinv.tables hpend hp)
        (cleanTunnel_only env hp)) fun gone s₁ hround => ?_
      obtain ⟨⟨hmoves₁, hframe₁, hunlinks, -⟩, honly₁⟩ := hround
      have hahead₁ : s₁.ahead iter' = s.ahead iter' := by rw [Sys.ahead, Sys.ahead, hframe₁.tunnels]
      have hsuffix₁ : s.world.trace <:+ s₁.world.trace := Core.trail_suffix hmoves₁.trail
      refine wp_mono (ih (hinv.trail hmoves₁.trail) (hframe₁.pending.trans hpend)
        (hahead₁ ▸ hnodup) ?_ ?_) fun ok' s' hlater => ⟨hsuffix₁.trans hlater.1, ?_⟩
      · intro q hq
        rw [hahead₁] at hq
        rw [hframe₁.others fun heq => hnotin (heq ▸ hq)]
        exact hheap q (List.mem_cons_of_mem _ hq)
      · rw [hahead₁]
        exact Nat.lt_of_succ_lt_succ hfuel
      · intro hsound l name vid hkind
        obtain ⟨hsuffix, hlinks⟩ := hlater
        have hsound₁ := hsound.of_suffix hsuffix
        have hmem := hunlinks.mem_iff (l := l) env hsound₁ fun hl hbelow => by
          rw [hkind] at hbelow
          rw [List.mem_singleton.mp hbelow]
          exact (hinv.links (hsound₁.of_suffix hsuffix₁)).parent hl hkind
        rw [hlinks hsound l name vid hkind, hahead₁,
          Sys.spares_congr cfg env hinv.tables hp hframe₁ honly₁ hnotin, hmem,
          Sys.spares_cons_iff env hp, and_assoc]

/-- A VLAN link is spared exactly when the deletion of its tunnel's link is refused. -/
theorem Sys.spares_vlan_iff (hinv : s.abs.Inv cfg host) (hsound : s.world.EnodevSound)
    {l : Link} {name : CStr} {vid : UInt16} (hl : l ∈ s.world.kernel.links)
    (hkind : l.kind = .vlan name vid) :
    s.Spares env (s.ahead Table.iterInit) l ↔ ¬ s.world.Grants env (.delLink name) := by
  have hst := hinv.tables
  obtain ⟨q, t, ht, hname, -⟩ := (hinv.links hsound).hooked hl hkind
  constructor
  · intro h hgrant
    obtain ⟨tun, hq, rfl⟩ := heap_of_abs ht
    have hmem := (mem_ahead_init_iff cfg hst).mpr (by rw [hq]; rfl)
    have hname : tun.ifgre = name := hname
    subst hname
    exact (h q hmem tun hq hgrant).2 (by rw [hkind]; exact List.mem_singleton_self _)
  · intro hrefused q' _ tun' hq' hgrant
    have ht' := heap_abs_of_some hq'
    refine ⟨fun heq => ?_, fun heq => ?_⟩
    · -- tunnels and VLAN links have names of different shapes
      obtain ⟨b, hb, hb'⟩ := (hinv.links hsound).named hl hkind
      refine vlanName_ne_tunnelName cfg (hst.id_lt ht) (hst.id_lt ht') (cfg.bridge_valid b hb).2.2 ?_
      rw [← hst.ifgre_eq ht, ← hst.ifgre_eq ht', hname, ← hb']
      exact heq
    · rw [hkind] at heq
      exact hrefused (List.mem_singleton.mp heq ▸ hgrant)

/-- Of the VLAN links, the cleanup leaves those whose tunnel could not be deleted;
    and if it leaves one, it has not touched the chains. -/
theorem provisionDelall_survivors (hinv : s.abs.Inv cfg host) :
    wp (provisionDelall env) (fun _ s' => s'.world.EnodevSound →
      ∀ l name vid, l.kind = .vlan name vid →
      (l ∈ s'.world.kernel.links ↔
        l ∈ s.world.kernel.links ∧ ¬ s.world.Grants env (.delLink name)) ∧
      (l ∈ s'.world.kernel.links →
        s.world.Only (fun ev => ∃ name, ev.cmd.Dismantles name) s'.world)) s := by
  have hst := hinv.tables
  have hinv₀ : ({ s with cleanupPending := true } : Sys).abs.Inv cfg host :=
    Step.pend.inv hinv
  simp only [provisionDelall, wp_bind, wp_modify, wp_get]
  refine wp_mono (wp_and
    (cleanTunnels_all cfg env host (s := { s with cleanupPending := true }) hst rfl)
    (cleanTunnels_survivors cfg env host (s := { s with cleanupPending := true }) _ hinv₀ rfl
      (nodup_ahead_init cfg hst) (fun q hq => (mem_ahead_init_iff cfg hst).mp hq)
      (length_ahead_lt s _)))
    fun ok s₁ hwalk => ?_
  obtain ⟨⟨hmoves₁, honly, hpend, hout⟩, hsuffix, hlinks⟩ := hwalk
  have hinv₁ := hinv₀.trail hmoves₁.trail
  have hvlan : s₁.world.EnodevSound → ∀ l name vid, l.kind = .vlan name vid →
      (l ∈ s₁.world.kernel.links ↔
        l ∈ s.world.kernel.links ∧ ¬ s.world.Grants env (.delLink name)) := by
    intro hsound l name vid hkind
    exact (hlinks hsound l name vid hkind).trans (and_congr_right fun hl =>
      Sys.spares_vlan_iff cfg env host hinv₀ (hsound.of_suffix hsuffix) hl hkind)
  cases ok with
  | false =>
    simp only [Bool.false_eq_true, if_false]
    exact fun hsound l name vid hkind => ⟨hvlan hsound l name vid hkind, fun _ => honly⟩
  | true =>
    obtain ⟨-, hall⟩ := hout.resolve_right fun h => Bool.noConfusion h.1
    have hnone : s₁.world.EnodevSound → ∀ l name vid, l.kind = .vlan name vid →
        l ∉ s₁.world.kernel.links := by
      intro hsound l name vid hkind hl
      obtain ⟨q, t, ht, hname, -⟩ := (hinv₁.links hsound).hooked hl hkind
      obtain ⟨tun, hq, rfl⟩ := heap_of_abs ht
      have hgone := (hall q tun hq).2 hsound
      have hparent := (hinv₁.links hsound).parent hl hkind
      rw [← hname, show tun.abs.ifgre = tun.ifgre from rfl] at hparent
      exact absurd hparent (by rw [show s₁.abs.kernel = s₁.world.kernel from rfl, hgone]; simp)
    simp only [if_true, wp_bind, wp_lift]
    refine wp_mono (ifaceEbtablesReset_spec cfg host env
      (flushable_of_clean hpend hall)) fun ret w hreset => ?_
    obtain ⟨htrail₂, hlinks₂, -⟩ := hreset
    have hfinal : w.EnodevSound → ∀ l name vid, l.kind = .vlan name vid →
        (l ∈ w.kernel.links ↔ l ∈ s.world.kernel.links ∧ ¬ s.world.Grants env (.delLink name)) ∧
        (l ∈ w.kernel.links → s.world.Only (fun ev => ∃ name, ev.cmd.Dismantles name) w) := by
      intro hsound l name vid hkind
      have hsound₁ : s₁.world.EnodevSound := hsound.of_suffix (Core.trail_suffix htrail₂)
      rw [hlinks₂]
      exact ⟨hvlan hsound₁ l name vid hkind, fun hl => absurd hl (hnone hsound₁ l name vid hkind)⟩
    refine wp_ite (fun _ => ?_) (fun _ => ?_)
    · exact hfinal
    · exact hfinal

/-! ## The chains -/

/-- The daemon's chain of the table is empty or gone. -/
def Kernel.Emptied (k : Kernel) (t : EbTable) : Prop := (k.chain t t.own).getD [] = []

/-- Only commands for the daemon's chain of the table `t` were issued. -/
structure World.EditsOwn (t : EbTable) (w w' : World) : Prop where
  links : w'.kernel.links = w.kernel.links
  chains : ∀ {t' c}, ¬ (t' = t ∧ c = t.own) → w'.kernel.chain t' c = w.kernel.chain t' c
  only : w.Only (fun ev => ev.cmd.edits = some (t, t.own)) w'

namespace World.EditsOwn

variable {t t' : EbTable} {w w' : World}

theorem builtin (h : w.EditsOwn t w') {c : Chain} (hc : c.builtin = true) :
    w'.kernel.chain t' c = w.kernel.chain t' c := by
  refine h.chains ?_
  rintro ⟨-, rfl⟩
  cases t <;> cases hc

theorem other (h : w.EditsOwn t w') (ht : t' ≠ t) :
    w'.kernel.chain t' t'.own = w.kernel.chain t' t'.own :=
  h.chains fun heq => ht heq.1

theorem grants_iff (h : w.EditsOwn t w') (ht : t' ≠ t) :
    w'.Grants env (.flush t' t'.own) ↔ w.Grants env (.flush t' t'.own) := by
  refine h.only.grants_iff fun ev hev heq => ht ?_
  rw [heq] at hev
  cases hev
  rfl

end World.EditsOwn

/-- Some rule leads to the chains for as long as a tunnel has its jumps. -/
theorem Kernel.HasJumps.referenced {k : Kernel} {name : CStr} (h : k.HasJumps name) (t : EbTable) :
    k.referenced t t.own = true := by
  have hany : ∀ hook ∈ hooks, hook.target = hook.table.own →
      k.referenced hook.table hook.table.own = true := by
    intro hook hmem htarget
    obtain ⟨rules, hrules, hjump⟩ := h hook hmem
    refine List.any_eq_true.mpr ⟨hook.chain, by cases hook.chain <;> decide, ?_⟩
    rw [hrules]
    exact List.any_eq_true.mpr ⟨_, hjump, by rw [← htarget]; exact beq_self_eq_true _⟩
  cases t with
  | nat => exact hany ⟨.nat, .prerouting, .input, .softgreIn⟩ (by decide) rfl
  | filter => exact hany ⟨.filter, .forward, .output, .softgreOut⟩ (by decide) rfl

theorem helperExec_editsOwn {t : EbTable} {cmd : Cmd} (hcmd : cmd.edits = some (t, t.own))
    (w : World) : wp (helperExec env cmd) (fun _ w' => w.EditsOwn t w') w := by
  refine wp_mono (perform_spec env none cmd w) fun ret w' ⟨ev, hw, hev, h⟩ => ?_
  subst hw
  have honly : w.Only (fun ev => ev.cmd.edits = some (t, t.own)) (w.record ev) :=
    World.Only.record (by rw [hev]; exact hcmd)
  rcases h with ⟨-, -, hdone⟩ | ⟨-, -, hrefused, -⟩
  · refine ⟨hdone.links (by rw [hcmd]; rfl), fun hne => hdone.chain ?_, honly⟩
    rw [hcmd]
    rintro ⟨⟩
    exact hne ⟨rfl, rfl⟩
  · refine ⟨congrArg Kernel.links hrefused.kernel, fun _ => ?_, honly⟩
    exact congrArg (fun k : Kernel => k.chain _ _) hrefused.kernel

/-- A flush empties the chain if the environment carries it out, and otherwise
    leaves it alone. -/
theorem flush_spec (t : EbTable) (w : World) :
    wp (helperExec env (.flush t t.own)) (fun _ w' => w.EditsOwn t w' ∧
      (w.Grants env (.flush t t.own) → w'.kernel.Emptied t) ∧
      (¬ w.Grants env (.flush t t.own) → w'.kernel.chain t t.own = w.kernel.chain t t.own)) w := by
  refine wp_mono (wp_and (helperExec_editsOwn env rfl w) (perform_spec env none _ w))
    fun ret w' ⟨hedits, ev, hw, _, h⟩ => ⟨hedits, ?_⟩
  subst hw
  rcases h with ⟨-, hgrant, hdone⟩ | ⟨-, hnone, hrefused, -⟩
  · refine ⟨fun _ => ?_, fun hno => absurd hgrant hno⟩
    obtain ⟨-, hk⟩ := Kernel.apply_flush_iff.mp hdone.apply
    show (ev.kernel.chain t t.own).getD [] = []
    rw [hk, Kernel.chain_setChain_self]
    rfl
  · have hkernel : (w.record ev).kernel = w.kernel := hrefused.kernel
    rw [Kernel.Emptied, hkernel]
    refine ⟨fun hgrant => ?_, fun _ => rfl⟩
    cases hchain : w.kernel.chain t t.own with
    | none => rfl
    | some rules =>
      have happly := Kernel.apply_flush_iff.mpr ⟨by rw [hchain]; rfl, rfl⟩
      rw [hnone hgrant] at happly
      cases happly

/-- Deleting a chain does not fill it, and has no effect while a rule leads there. -/
theorem deleteChain_spec (t : EbTable) (w : World) :
    wp (helperExec env (.deleteChain t t.own)) (fun _ w' => w.EditsOwn t w' ∧
      (w.kernel.Emptied t → w'.kernel.Emptied t) ∧
      (w.kernel.referenced t t.own = true →
        w'.kernel.chain t t.own = w.kernel.chain t t.own)) w := by
  refine wp_mono (wp_and (helperExec_editsOwn env rfl w) (perform_spec env none _ w))
    fun ret w' ⟨hedits, ev, hw, _, h⟩ => ⟨hedits, ?_⟩
  subst hw
  rcases h with ⟨-, -, hdone⟩ | ⟨-, -, hrefused, -⟩
  · obtain ⟨-, hfree, hk⟩ := Kernel.apply_deleteChain_iff.mp hdone.apply
    refine ⟨fun _ => ?_, fun href => ?_⟩
    · show (ev.kernel.chain t t.own).getD [] = []
      rw [hk, Kernel.chain_setChain_self]
      rfl
    · rw [hfree] at href
      cases href
  · have hkernel : (w.record ev).kernel = w.kernel := hrefused.kernel
    rw [hkernel]
    exact ⟨id, fun _ => rfl⟩

/-- What `iface_ebtables_end` does to the daemon's chain of a table: a flush that is
    carried out empties it; without one it stays as long as a tunnel has its jumps. -/
structure World.Retires (env : Env) (w : World) (k : Kernel) (t : EbTable) : Prop where
  emptied : w.Grants env (.flush t t.own) → k.Emptied t
  kept : ¬ w.Grants env (.flush t t.own) → ∀ name, w.kernel.HasJumps name →
    k.chain t t.own = w.kernel.chain t t.own

/-- How `iface_ebtables_end` makes up its mind. -/
theorem settleEnd_issues (a b c d : Ret) : Issues (fun _ => True) (do
    if a = .ok ∧ b = .ok ∧ c = .ok ∧ d = .ok then
      modify fun w => { w with initialized := false }
      return Ret.ok
    else return Ret.fail : WorldM Ret) := by
  intro w
  split
  · exact World.Only.refl w
  · exact World.Only.refl w

theorem ifaceEbtablesEnd_issues : Issues (fun _ => True) (ifaceEbtablesEnd env) := by
  have hany : ∀ cmd, Issues (fun _ => True) (helperExec env cmd) := fun _ => Issues.perform trivial
  intro w
  rw [ifaceEbtablesEnd, wp_bind, wp_get]
  refine wp_ite (fun _ => World.Only.refl w) fun _ => ?_
  exact ((hany _).bind fun a => (hany _).bind fun b => (hany _).bind fun c => (hany _).bind fun d =>
    settleEnd_issues a b c d) w

theorem ifaceEbtablesEnd_spec {w : World} (hinit : w.initialized = true) :
    wp (ifaceEbtablesEnd env) (fun _ w' => w'.kernel.links = w.kernel.links ∧
      (∀ {t c}, c.builtin = true → w'.kernel.chain t c = w.kernel.chain t c) ∧
      ∀ t, w.Retires env w'.kernel t) w := by
  simp only [ifaceEbtablesEnd, wp_bind, wp_get, hinit, Bool.not_true, Bool.false_eq_true, if_false]
  refine wp_mono (flush_spec env .nat w) fun _ w₁ ⟨he₁, hempty₁, hkeep₁⟩ => ?_
  refine wp_mono (flush_spec env .filter w₁) fun _ w₂ ⟨he₂, hempty₂, hkeep₂⟩ => ?_
  refine wp_mono (deleteChain_spec env .nat w₂) fun _ w₃ ⟨he₃, hempty₃, hkeep₃⟩ => ?_
  refine wp_mono (deleteChain_spec env .filter w₃) fun _ w₄ ⟨he₄, hempty₄, hkeep₄⟩ => ?_
  have hlinks : w₄.kernel.links = w.kernel.links := by
    rw [he₄.links, he₃.links, he₂.links, he₁.links]
  have hbuiltin₂ : ∀ {t c}, c.builtin = true → w₂.kernel.chain t c = w.kernel.chain t c :=
    fun hc => (he₂.builtin hc).trans (he₁.builtin hc)
  have hbuiltin₃ : ∀ {t c}, c.builtin = true → w₃.kernel.chain t c = w.kernel.chain t c :=
    fun hc => (he₃.builtin hc).trans (hbuiltin₂ hc)
  have hne : EbTable.nat ≠ .filter := nofun
  have hfilter₁ := he₁.grants_iff env hne.symm
  have hretires : ∀ t, w.Retires env w₄.kernel t := by
    intro t
    cases t with
    | nat =>
      refine ⟨fun hgrant => ?_, fun hrefused name hjumps => ?_⟩
      · rw [Kernel.Emptied, he₄.other hne]
        refine hempty₃ ?_
        rw [Kernel.Emptied, he₂.other hne]
        exact hempty₁ hgrant
      · rw [he₄.other hne, hkeep₃ ((hjumps.congr hbuiltin₂).referenced .nat), he₂.other hne]
        exact hkeep₁ hrefused
    | filter =>
      refine ⟨fun hgrant => hempty₄ ?_, fun hrefused name hjumps => ?_⟩
      · rw [Kernel.Emptied, he₃.other hne.symm]
        exact hempty₂ (hfilter₁.mpr hgrant)
      · rw [hkeep₄ ((hjumps.congr hbuiltin₃).referenced .filter), he₃.other hne.symm,
          hkeep₂ (hfilter₁.not.mpr hrefused), he₁.other hne.symm]
  have hall : w₄.kernel.links = w.kernel.links ∧
      (∀ {t c}, c.builtin = true → w₄.kernel.chain t c = w.kernel.chain t c) ∧
      ∀ t, w.Retires env w₄.kernel t :=
    ⟨hlinks, fun hc => (he₄.builtin hc).trans (hbuiltin₃ hc), hretires⟩
  refine wp_ite (fun _ => ?_) (fun _ => ?_)
  · exact hall
  · exact hall

end Softgre
