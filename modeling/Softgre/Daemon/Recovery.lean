-- SUMMARY: A cleanup that can work restores the initial state, and a pending one gates learning.
import Softgre.Daemon.Kernel

/-!
# Recovery

Whatever earlier cleanups left half done, the tables still record it, so that the
next cleanup can only fail at a command that should have worked. The exception is a
link that was taken for deleted because a lookup failed: no later cleanup tries it again.
-/

namespace Softgre

open Base

variable {cfg : SoftgredConfig} {env : Env} {host : Kernel} {s : Sys}

/-! ## Convergence -/

/-- The state `main` enters its loop with, up to counters and unused addresses. -/
structure Sys.AsInitialised (host : Kernel) (s : Sys) : Prop where
  tunnels : s.tunnels = Hashmap.new
  macIndex : s.macIndex = Hashmap.new
  slots : ∀ id, s.slots id = false
  cleanupPending : s.cleanupPending = false
  retryAfter : s.retryAfter = 0
  links : ∀ l ∈ s.world.kernel.links, l.kind.owned = false
  jumps : ∀ t c, c.builtin = true → s.world.kernel.chain t c = host.chain t c
  chains : s.world.kernel.Defaults

/-! Empty tables are an account of an empty kernel. -/

section Empty

variable {c : Core} (hinv : c.Inv cfg host) (hempty : ∀ p, c.store.heap p = none)

include hinv hempty

theorem Core.Inv.links_of_empty (hsound : c.world.EnodevSound) :
    ∀ l ∈ c.kernel.links, l.kind.owned = false := by
  have hnone : ∀ {name P}, ¬ c.store.Has name P := fun ⟨p, _, ht, _⟩ => by
    rw [hempty p] at ht
    cases ht
  intro l hl
  cases hkind : l.kind with
  | foreign => rfl
  | gretap => exact (hnone ((hinv.links hsound).gretap hl (by rw [hkind]; rfl))).elim
  | vlan => exact (hnone ((hinv.links hsound).hooked hl hkind)).elim

theorem Core.Inv.jumps_of_empty (t : EbTable) (ch : Chain) (hch : ch.builtin = true) :
    c.kernel.chain t ch = host.chain t ch := by
  obtain ⟨js, hchain, -, -, hmem⟩ := hinv.jumps t ch hch
  obtain rfl : js = [] := by
    refine List.eq_nil_iff_forall_not_mem.mpr fun r hr => ?_
    obtain ⟨_, _, _, _, _, _, ⟨p, _, ht, _⟩, _⟩ := (hmem r).mp hr
    rw [hempty p] at ht
    cases ht
  refine hchain.trans ?_
  cases host.chain t ch <;> rfl

end Empty

theorem Core.Inv.asInitialised {s₁ : Sys} (hinv : s₁.cleared.abs.Inv cfg host)
    (hsound : s₁.world.EnodevSound) (hdefaults : s₁.world.kernel.Defaults) :
    s₁.cleared.AsInitialised host :=
  ⟨rfl, rfl, fun _ => rfl, rfl, rfl, hinv.links_of_empty (fun _ => rfl) hsound,
    hinv.jumps_of_empty fun _ => rfl, hdefaults⟩

/-- A deletion that ends with `ENODEV` although the link is there could have worked. -/
theorem Event.enodevSound_of_willing {ev : Event} (h : ¬ ev.Unwilling) : ev.EnodevSound := by
  intro name hcmd hok _
  by_contra hlink
  refine h ⟨hok, ?_⟩
  rw [hcmd, Kernel.apply, if_pos (Bool.eq_true_of_not_eq_false hlink)]
  rfl

theorem World.EnodevSound.extend_of_willing {w w' : World} (h : w.EnodevSound)
    (hsuffix : w.trace <:+ w'.trace) (hwilling : ∀ ev, w.New w' ev → ¬ ev.Unwilling) :
    w'.EnodevSound := by
  obtain ⟨evs, htrace⟩ := hsuffix
  intro ev hev
  rw [← htrace] at hev
  rcases List.mem_append.mp hev with hnew | hold
  · exact Event.enodevSound_of_willing (hwilling ev ⟨evs, htrace.symm, hnew⟩)
  · exact h ev hold

theorem exec_delall_asInitialised (hinv : s.abs.Inv cfg host)
    (hsound : s.world.EnodevSound)
    (hwilling : ∀ ev, s.world.New (exec cfg env s .delall).world ev → ¬ ev.Unwilling) :
    (exec cfg env s .delall).AsInitialised host := by
  have hcleans := exec_delall cfg env host hinv.tables
  have htrail := exec_trail cfg env .delall hinv.tables hinv.idle
  have hinv' := hinv.trail htrail
  have hsound' := hsound.extend_of_willing (Core.trail_suffix htrail) hwilling
  generalize exec cfg env s .delall = s' at *
  cases hcleans with
  | complete _ _ hdefaults => exact hinv'.asInitialised hsound' hdefaults
  | incomplete _ _ hblames =>
    -- an incomplete cleanup can blame a command that should have worked
    obtain ⟨ev, hnew, -, hunwilling⟩ := hblames
    exact absurd (hunwilling hinv) (hwilling ev hnew)

/-! ## Gating -/

/-- While a cleanup is pending, a packet is counted as ignored and has no other
    effect. -/
theorem exec_packet_pending {packet : PayloadPacket} (h : s.cleanupPending = true) :
    exec cfg env s (.packet packet) =
      { s with packets := s.packets + 1, ignored := s.ignored + 1 } := by
  show wp (provisionPacket cfg env packet) (fun _ s' =>
    s' = { s with packets := s.packets + 1, ignored := s.ignored + 1 }) s
  simp only [provisionPacket, wp_bind, wp_modify, wp_get, h, if_true]
  rfl

theorem exec_pending {call : Call} (hloop : call.fromLoop = true) (h : s.cleanupPending = true)
    (huncleared : call = .delall → (exec cfg env s call).cleanupPending = true) :
    (exec cfg env s call).cleanupPending = true := by
  cases call with
  | packet packet =>
    rw [exec_packet_pending h]
    exact h
  | delall => exact huncleared rfl
  | wait => exact h
  | add | allowMac | del => cases hloop

theorem run_pending {calls : List Call} (hloop : ∀ call ∈ calls, call.fromLoop = true)
    (h : s.cleanupPending = true) (huncleared : Uncleared cfg env calls s) :
    (run cfg env calls s).cleanupPending = true := by
  induction calls generalizing s with
  | nil => exact h
  | cons call rest ih =>
    obtain ⟨hcall, hrest⟩ := List.forall_mem_cons.mp hloop
    exact ih hrest (exec_pending hcall h huncleared.1) huncleared.2

/-- From every state in which no deletion of a link that is there has ended with
    `ENODEV` so far, a cleanup in which every command that can take effect does so
    restores the state of the start; and from every state, after a cleanup that did not
    complete, packets do nothing but count until one does. -/
theorem cleanup_converges_and_gates (cfg : SoftgredConfig) (env : Env) (host : Kernel) (s : Sys)
    (calls : List Call) (hstart : Started env host s) :
    ((run cfg env calls s).world.EnodevSound →
      (∀ ev, (run cfg env calls s).world.New
        (exec cfg env (run cfg env calls s) .delall).world ev → ¬ ev.Unwilling) →
      (exec cfg env (run cfg env calls s) .delall).AsInitialised host) ∧
    ((exec cfg env (run cfg env calls s) .delall).cleanupPending = true →
      ∀ after packet, (∀ call ∈ after, call.fromLoop = true) →
        Uncleared cfg env after (exec cfg env (run cfg env calls s) .delall) →
        ∀ s', s' = run cfg env after (exec cfg env (run cfg env calls s) .delall) →
          exec cfg env s' (.packet packet) =
            { s' with packets := s'.packets + 1, ignored := s'.ignored + 1 }) := by
  have hinv := run_inv cfg env calls (hstart.inv cfg)
  refine ⟨exec_delall_asInitialised hinv, fun hpend after packet hloop hun s' hs' => ?_⟩
  subst hs'
  exact exec_packet_pending (run_pending hloop hpend hun)

namespace Sample

/-- Refuses the first deletion of each link. -/
def hesitant : Env
  | .delLink _, 0 => ⟨false, some EAGAIN, 0⟩
  | _, _ => ⟨true, none, 0⟩

end Sample

/-- A cleanup fails, a packet is ignored, and the next cleanup restores the start. -/
theorem cleanup_converges_and_gates_hesitant :
    (run Sample.config Sample.hesitant [.packet Sample.packet, .delall]
      (Sample.start Sample.hesitant)).cleanupPending = true ∧
    (exec Sample.config Sample.hesitant (run Sample.config Sample.hesitant
      [.packet Sample.packet, .delall] (Sample.start Sample.hesitant)) (.packet Sample.packet)).ignored = 1 ∧
    (exec Sample.config Sample.hesitant (run Sample.config Sample.hesitant
      [.packet Sample.packet, .delall] (Sample.start Sample.hesitant)) .delall).AsInitialised
      Sample.kernel := by
  have hstart : Started Sample.hesitant Sample.kernel (Sample.start Sample.hesitant) :=
    Sample.started (by decide +kernel)
  have hpend : (exec Sample.config Sample.hesitant (run Sample.config Sample.hesitant
      [.packet Sample.packet] (Sample.start Sample.hesitant)) .delall).cleanupPending = true := by
    decide +kernel
  have hgates := (cleanup_converges_and_gates Sample.config Sample.hesitant Sample.kernel _
    [.packet Sample.packet] hstart).2 hpend [] Sample.packet nofun trivial _ rfl
  have hclean := (cleanup_converges_and_gates Sample.config Sample.hesitant Sample.kernel _
    [.packet Sample.packet, .delall] hstart).1 (by decide +kernel)
  refine ⟨hpend, ?_, hclean (World.New.forall_of_since (by decide +kernel))⟩
  exact (congrArg Sys.ignored hgates).trans (by decide +kernel)

/-- A lookup fails in a first cleanup; every command of the second one works, and the
    link stays. -/
theorem not_cleanup_converges_starved :
    Started (Sample.starved 13) Sample.kernel (Sample.start (Sample.starved 13)) ∧
    (∀ ev, (run Sample.config (Sample.starved 13) [.packet Sample.packet, .delall]
      (Sample.start (Sample.starved 13))).world.New
      (exec Sample.config (Sample.starved 13) (run Sample.config (Sample.starved 13)
        [.packet Sample.packet, .delall] (Sample.start (Sample.starved 13))) .delall).world ev →
      ¬ ev.Unwilling) ∧
    ¬ (exec Sample.config (Sample.starved 13) (run Sample.config (Sample.starved 13)
      [.packet Sample.packet, .delall] (Sample.start (Sample.starved 13))) .delall).AsInitialised
      Sample.kernel := by
  refine ⟨Sample.started (by decide +kernel),
    World.New.forall_of_since (by decide +kernel), fun hinit => ?_⟩
  have hgre : ∃ l ∈ (exec Sample.config (Sample.starved 13) (run Sample.config
      (Sample.starved 13) [.packet Sample.packet, .delall]
      (Sample.start (Sample.starved 13))) .delall).world.kernel.links, l.kind.owned = true := by
    decide +kernel
  obtain ⟨l, hl, howned⟩ := hgre
  cases (hinit.links l hl).symm.trans howned

end Softgre
