-- SUMMARY: When a shutdown leaves no bridged VLAN link unfiltered.
import Softgre.Provision.Shutdown
import Softgre.Daemon.Kernel

/-!
# The end of a run

The firewall is taken down whether or not the tunnels are gone. A bridged VLAN
link that survives the last cleanup keeps its jumps, since the deletion of its
tunnel's link failed first, but the chains they lead to are flushed under it.
-/

namespace Softgre

open Base

variable {cfg : SoftgredConfig} {env : Env} {host : Kernel} {s : Sys}

namespace Kernel

/-- The daemon's chain of the table ends with an unconditional drop. -/
def EndsWithDrop (k : Kernel) (t : EbTable) : Prop :=
  ∃ rules, k.chain t t.own = some (rules ++ [dropRule])

/-- Every VLAN link in a bridge has its jumps, and both chains end by dropping. -/
def Guarded (k : Kernel) : Prop :=
  ∀ l ∈ k.links, ∀ name vid, l.kind = .vlan name vid → l.master.isSome = true →
    k.HasJumps name ∧ ∀ t, k.EndsWithDrop t

theorem FailClosed.guarded {k : Kernel} (h : k.FailClosed) : k.Guarded := by
  intro l hl name vid hkind hmaster
  obtain ⟨hjumps, hin, rules, hout⟩ := h l hl name vid hkind hmaster
  refine ⟨hjumps, fun t => ?_⟩
  cases t with
  | nat => exact hin
  | filter => exact ⟨rules ++ [multicastRule], by rw [List.append_assoc]; exact hout⟩

theorem EndsWithDrop.not_emptied {k : Kernel} {t : EbTable} (h : k.EndsWithDrop t) :
    ¬ k.Emptied t := by
  obtain ⟨rules, hrules⟩ := h
  rw [Emptied, hrules]
  simp

end Kernel

/-- Either the link of every bridged tunnel can be deleted, or neither chain can be
    flushed. -/
def Sys.ClosesSafely (env : Env) (s : Sys) : Prop :=
  (∀ l ∈ s.world.kernel.links, ∀ name vid, l.kind = .vlan name vid → l.master.isSome = true →
    s.world.Grants env (.delLink name)) ∨
  ∀ t : EbTable, ¬ s.world.Grants env (.flush t t.own)

theorem shutdown_spec (hinv : s.abs.Inv cfg host) (hinit : s.world.initialized = true) :
    wp (shutdown env) (fun _ s' => s'.world.EnodevSound →
      (s'.world.kernel.Guarded ↔ s.ClosesSafely env)) s := by
  simp only [shutdown, provisionEnd, tunnelsRemoveAll, wp_bind, wp_modify, wp_discard, wp_lift]
  refine wp_mono (wp_and (provisionDelall_spec cfg env host hinv.tables)
    (provisionDelall_survivors cfg env host hinv)) fun _ s₁ hdelall => ?_
  obtain ⟨hcleans, hsurvivors⟩ := hdelall
  have hinit₁ : s₁.world.initialized = true := (Core.trail_initialized hcleans.trail).trans hinit
  refine wp_mono (wp_and (ifaceEbtablesEnd_spec env hinit₁)
    ((ifaceEbtablesEnd_issues env).suffix s₁.world)) fun _ w hend hsound => ?_
  obtain ⟨⟨hlinks, hbuiltin, hretires⟩, hsuffix⟩ := hend
  have hsound₁ : s₁.world.EnodevSound := World.EnodevSound.of_suffix hsound hsuffix
  have hguarded₁ := ((hinv.trail hcleans.trail).failClosed hsound₁).guarded
  have hsurvivors := hsurvivors hsound₁
  -- where a link survives, the flushes are answered as if they were issued in `s`
  have hgrants : ∀ {l name vid}, l.kind = .vlan name vid → l ∈ w.kernel.links → ∀ t : EbTable,
      s₁.world.Grants env (.flush t t.own) ↔ s.world.Grants env (.flush t t.own) := by
    intro l name vid hkind hl t
    refine ((hsurvivors l name vid hkind).2 (hlinks ▸ hl)).grants_iff fun ev hev heq => ?_
    obtain ⟨_, hno⟩ := hev
    rw [heq] at hno
    cases hno
  constructor
  · refine fun hguarded => or_iff_not_imp_left.mpr fun hopen t hflush => ?_
    simp only [not_forall] at hopen
    obtain ⟨l, hl, name, vid, hkind, hmaster, hrefused⟩ := hopen
    have hl' : l ∈ w.kernel.links := by
      rw [hlinks]
      exact (hsurvivors l name vid hkind).1.mpr ⟨hl, hrefused⟩
    have hends := (hguarded l hl' name vid hkind hmaster).2 t
    exact hends.not_emptied ((hretires t).emptied ((hgrants hkind hl' t).mpr hflush))
  · intro hsafe l hl name vid hkind hmaster
    obtain ⟨hmem, hrefused⟩ := (hsurvivors l name vid hkind).1.mp (hlinks ▸ hl)
    obtain ⟨hjumps, hends⟩ := hguarded₁ l (hlinks ▸ hl) name vid hkind hmaster
    refine ⟨hjumps.congr hbuiltin, fun t => ?_⟩
    have hnoflush : ∀ t : EbTable, ¬ s.world.Grants env (.flush t t.own) :=
      hsafe.resolve_left fun hgone => hrefused (hgone l hmem name vid hkind hmaster)
    obtain ⟨rules, hrules⟩ := hends t
    have hkept := (hretires t).kept ((hgrants hkind hl t).not.mpr (hnoflush t)) name hjumps
    exact ⟨rules, hkept.trans hrules⟩

/-- After a shutdown from any state of a run no bridged VLAN link is unfiltered,
    exactly when their tunnels can all be deleted or neither chain can be flushed. No
    deletion of a link that is there ends with `ENODEV` until then. -/
theorem shutdown_guarded_iff (cfg : SoftgredConfig) (env : Env) (host : Kernel) (s : Sys)
    (calls : List Call) (hstart : Started env host s)
    (hsound : ((shutdown env).run (run cfg env calls s)).2.world.EnodevSound) :
    ((shutdown env).run (run cfg env calls s)).2.world.kernel.Guarded ↔
      (run cfg env calls s).ClosesSafely env := by
  have hinv := hstart.inv cfg
  refine shutdown_spec (run_inv cfg env calls hinv) ?_ hsound
  rw [run_initialized cfg env calls ⟨hinv.tables, hinv.idle⟩]
  exact hstart.initialized

/-- Everything works, and the tunnel is gone after the shutdown. -/
theorem shutdown_guarded_iff_obliging :
    (run Sample.config Sample.obliging [.packet Sample.packet]
        (Sample.start Sample.obliging)).world.kernel.links.any (fun l => l.master.isSome) = true ∧
      ((shutdown Sample.obliging).run (run Sample.config Sample.obliging [.packet Sample.packet]
        (Sample.start Sample.obliging))).2.world.kernel.Guarded :=
  ⟨by decide +kernel, (shutdown_guarded_iff Sample.config Sample.obliging Sample.kernel _ _
    (Sample.started (by decide +kernel)) (by decide +kernel)).mpr
    (.inl fun _ _ _ _ _ _ => rfl)⟩

/-- The link of the only tunnel cannot be deleted: its VLAN link stays in the bridge
    with its jumps, and both chains are empty. -/
theorem not_shutdown_guarded :
    ¬ ((shutdown Sample.stuck).run (run Sample.config Sample.stuck [.packet Sample.packet]
        (Sample.start Sample.stuck))).2.world.kernel.Guarded := by
  intro h
  have hlink : (⟨['g', 'r', 'e', '0', '.', '1', '0', '0'], .vlan ['g', 'r', 'e', '0'] 100,
      some ['b', 'r', '0']⟩ : Link) ∈
      ((shutdown Sample.stuck).run (run Sample.config Sample.stuck [.packet Sample.packet]
        (Sample.start Sample.stuck))).2.world.kernel.links := by decide +kernel
  have hempty : ((shutdown Sample.stuck).run (run Sample.config Sample.stuck [.packet Sample.packet]
      (Sample.start Sample.stuck))).2.world.kernel.Emptied .nat := by
    unfold Kernel.Emptied
    decide +kernel
  exact ((h _ hlink _ _ rfl rfl).2 .nat).not_emptied hempty

end Softgre
