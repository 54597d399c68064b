-- SUMMARY: What the kernel holds after every run: exactly the recorded jumps and links.
import Softgre.Daemon.Tables

/-!
# The kernel along a run

The invariant of the ledger, read back at the level of the program's tables.
-/

namespace Softgre

open Base

variable {cfg : SoftgredConfig} {env : Env} {host : Kernel} {s : Sys}

/-! ## No bridged VLAN link is ever unfiltered -/

/-- After every command of a run in which no deletion of a link that is there ends with
    `ENODEV`, each VLAN link in a bridge has its three jumps, and both chains end by
    dropping. -/
theorem fail_closed_always (cfg : SoftgredConfig) (env : Env) (host : Kernel) (s : Sys)
    (calls : List Call) (hstart : Started env host s)
    (hsound : (run cfg env calls s).world.EnodevSound) :
    (run cfg env calls s).world.kernel.FailClosed ∧
      ∀ ev ∈ (run cfg env calls s).world.trace, ev.kernel.FailClosed := by
  have hinv := run_inv cfg env calls (hstart.inv cfg)
  exact ⟨hinv.failClosed hsound, hinv.closed hsound⟩

namespace Sample

/-- Refuses to delete links, for another reason than that there are none. -/
def stuck : Env
  | .delLink _, _ => ⟨false, some EAGAIN, 0⟩
  | _, _ => ⟨true, none, 0⟩

/-- Has no descriptor left for a lookup at the given moment. -/
def starved (moment : Nat) : Env
  | .lookup _, n => ⟨n != moment, none, 0⟩
  | _, _ => ⟨true, none, 0⟩

end Sample

/-- A tunnel is set up and bridged, and its link cannot be deleted afterwards. -/
theorem fail_closed_always_stuck :
    (∃ l ∈ (run Sample.config Sample.stuck [.packet Sample.packet, .delall]
        (Sample.start Sample.stuck)).world.kernel.links, l.master = some ['b', 'r', '0']) ∧
      (run Sample.config Sample.stuck [.packet Sample.packet, .delall]
        (Sample.start Sample.stuck)).world.kernel.FailClosed :=
  ⟨by decide +kernel, (fail_closed_always Sample.config Sample.stuck Sample.kernel _ _
    (Sample.started (by decide +kernel)) (by decide +kernel)).1⟩

/-- The lookup with which the cleanup starts to delete the link fails. The cleanup takes
    the link for deleted and removes its jumps, and the VLAN link stays in its bridge. -/
theorem not_fail_closed_starved :
    Started (Sample.starved 13) Sample.kernel (Sample.start (Sample.starved 13)) ∧
      ¬ (run Sample.config (Sample.starved 13) [.packet Sample.packet, .delall]
        (Sample.start (Sample.starved 13))).world.kernel.FailClosed := by
  refine ⟨Sample.started (by decide +kernel), fun hclosed => ?_⟩
  obtain ⟨hjumps, -⟩ := hclosed ⟨['g', 'r', 'e', '0', '.', '1', '0', '0'],
    .vlan ['g', 'r', 'e', '0'] 100, some ['b', 'r', '0']⟩ (by decide +kernel) _ _ rfl rfl
  obtain ⟨rules, hrules, hjump⟩ := hjumps ⟨.nat, .prerouting, .input, .softgreIn⟩ (by decide)
  have hempty : (run Sample.config (Sample.starved 13) [.packet Sample.packet, .delall]
      (Sample.start (Sample.starved 13))).world.kernel.chain .nat .prerouting = some [] := by
    decide +kernel
  cases hempty.symm.trans hrules
  cases hjump

/-! ## Jumps and links are those on record -/

/-- `r` is the jump for bit `i` of the tunnel `tun`, in chain `c` of table `t`. -/
def TunnelContext.HookJump (tun : TunnelContext) (i : Nat) (t : EbTable) (c : Chain) (r : Rule) :
    Prop :=
  tun.firewallHooks.getLsbD i = true ∧
    ∃ h, hooks[i]? = some h ∧ h.table = t ∧ h.chain = c ∧ r = h.jump tun.ifgre

/-- The built-in chains hold exactly the jumps on record, next to what the host had
    before. -/
structure Sys.JumpsHold (host : Kernel) (s : Sys) : Prop where
  /-- A chain is what it was, with the jumps of the set bits in front, each once;
      nothing in what it was leads to the daemon's chains. -/
  jumps : ∀ t c rules, c.builtin = true → host.chain t c = some rules → ∃ js,
    s.world.kernel.chain t c = some (js ++ rules) ∧ js.Nodup ∧
    (∀ r, r ∈ js ↔ ∃ remote p tun i, s.InTable remote p tun ∧ tun.HookJump i t c r) ∧
    ∀ r ∈ rules, r.target ≠ .chain t.own
  /-- Different set bits have different jumps. -/
  bit_inj : ∀ remote remote' p p' tun tun' i i' t c r, s.InTable remote p tun →
    s.InTable remote' p' tun' → tun.HookJump i t c r → tun'.HookJump i' t c r →
    remote = remote' ∧ i = i'
  /-- A set bit is the bit of a hook whose chain exists. -/
  bit_hook : ∀ remote p tun i, s.InTable remote p tun → tun.firewallHooks.getLsbD i = true →
    ∃ h, hooks[i]? = some h ∧ h.chain.builtin = true ∧ (host.chain h.table h.chain).isSome = true

/-- Every gretap link belongs to a tunnel in the table, whose slot is in use. -/
def Sys.LinksHold (s : Sys) : Prop :=
  ∀ l ∈ s.world.kernel.links, l.kind.isGretap = true →
    ∃ remote p tun, s.InTable remote p tun ∧ tun.ifgre = l.name ∧ s.slots tun.id = true

theorem Started.unowned (h : Started env host s) (t : EbTable) : host.chain t t.own = none := by
  obtain ⟨errno, clock, -, hok⟩ := h.boot
  obtain ⟨-, -, happly⟩ := ifaceEbtablesInit_spec env _ hok
  obtain ⟨hin, hout, -⟩ := Kernel.chains_of_init happly
  cases t with
  | nat => exact hin
  | filter => exact hout

/-- Before the daemon starts, no rule leads to its chains. -/
theorem Started.target_ne (h : Started env host s) {t : EbTable} {c : Chain} {rules : List Rule}
    (hrules : host.chain t c = some rules) : ∀ r ∈ rules, r.target ≠ .chain t.own := by
  intro r hr htarget
  have hexists := h.pristine.targets t c rules hrules r hr
  simp only [Kernel.targetExists, htarget, h.unowned t] at hexists
  cases hexists

/-- The jumps of the abstract tables are those of the records. -/
theorem jump_iff (hst : s.abs.store.Inv cfg) {t : EbTable} {c : Chain} {r : Rule} :
    s.abs.store.Jump t c r ↔
      ∃ remote p tun i, s.InTable remote p tun ∧ tun.HookJump i t c r := by
  constructor
  · rintro ⟨name, i, h, hi, ht, hc, ⟨p, t', hp, rfl, hbit⟩, rfl⟩
    obtain ⟨tun, hheap, rfl⟩ := heap_of_abs hp
    exact ⟨_, p, tun, i, inTable_of_heap hst hheap, hbit, h, hi, ht, hc, rfl⟩
  · rintro ⟨remote, p, tun, i, hin, hbit, h, hi, ht, hc, rfl⟩
    exact ⟨_, i, h, hi, ht, hc, ⟨p, _, heap_abs_of_some hin.record, rfl, hbit⟩, rfl⟩

theorem getElem?_hooks_of_bit {x : BitVec 32} {i : Nat} (hx : x.toNat < 8)
    (hbit : x.getLsbD i = true) : ∃ h, hooks[i]? = some h := by
  have hlt : i < 3 := by
    by_contra hge
    have hpow : 2 ^ 3 ≤ 2 ^ i := Nat.pow_le_pow_right (by decide) (Nat.le_of_not_lt hge)
    have hle : x.toNat < 2 ^ i := Nat.lt_of_lt_of_le hx hpow
    rw [BitVec.getLsbD, Nat.testBit_lt_two_pow hle] at hbit
    cases hbit
  exact ⟨_, List.getElem?_eq_getElem hlt⟩

theorem Core.Inv.jumpsHold (hinv : s.abs.Inv cfg host)
    (htarget : ∀ {t c rules}, host.chain t c = some rules → ∀ r ∈ rules, r.target ≠ .chain t.own) :
    s.JumpsHold host := by
  have hst := hinv.tables
  refine
    { jumps := fun t c rules hc hrules => ?_
      bit_inj := fun _ _ p p' tun tun' i i' t c r hin hin' hj hj' => ?_
      bit_hook := fun _ p tun i hin hbit => ?_ }
  · obtain ⟨js, hchain, -, hnodup, hmem⟩ := hinv.jumps t c hc
    rw [hrules] at hchain
    exact ⟨js, hchain, hnodup, fun r => (hmem r).trans (jump_iff hst), htarget hrules⟩
  · obtain ⟨hbit, h, hi, rfl, rfl, rfl⟩ := hj
    obtain ⟨hbit', h', hi', ht, hc, heq⟩ := hj'
    obtain rfl := hook_inj hi' hi hc
    cases hi.symm.trans hi'
    -- equal jumps have equal patterns, and these determine the tunnel
    have hname : tun.ifgre = tun'.ifgre :=
      Store.Has.jump_inj hst (P := fun _ => True) (Q := fun _ => True)
        ⟨p, _, heap_abs_of_some hin.record, rfl, trivial⟩
        ⟨p', _, heap_abs_of_some hin'.record, rfl, trivial⟩ heq
    have hp := hst.ifgre_inj (heap_abs_of_some hin.record) (heap_abs_of_some hin'.record) hname
    subst hp
    cases hin.record.symm.trans hin'.record
    exact ⟨hst.consistent.id_inj _ _ _ _ _ _ hin hin' rfl, rfl⟩
  · obtain ⟨h, hi⟩ := getElem?_hooks_of_bit (hst.hooks_lt (heap_abs_of_some hin.record)) hbit
    obtain ⟨js, hchain, hnil, -, hmem⟩ := hinv.jumps h.table h.chain (builtin_of_hooks hi)
    have hjump := (hmem _).mpr ((jump_iff hst).mpr ⟨_, p, tun, i, hin, hbit, h, hi, rfl, rfl, rfl⟩)
    refine ⟨h, hi, builtin_of_hooks hi, ?_⟩
    by_contra hnone
    rw [Option.not_isSome_iff_eq_none.mp hnone] at hchain
    rw [hnil hchain] at hjump
    cases hjump

theorem Core.Inv.linksHold (hinv : s.abs.Inv cfg host) (hsound : s.world.EnodevSound) :
    s.LinksHold := by
  intro l hl hkind
  obtain ⟨p, t, ht, hname, -⟩ := (hinv.links hsound).gretap hl hkind
  obtain ⟨tun, hp, rfl⟩ := heap_of_abs ht
  exact ⟨_, p, tun, inTable_of_heap hinv.tables hp, hname, hinv.tables.slot_iff.mpr ⟨p, _, ht, rfl⟩⟩

/-- After every run the built-in chains hold exactly the jumps of the set hook bits
    and the host's own rules as they were. If no deletion of a link that is there has
    ended with `ENODEV`, every gretap link is in the table too. -/
theorem kernel_ledger (cfg : SoftgredConfig) (env : Env) (host : Kernel) (s : Sys)
    (calls : List Call) (hstart : Started env host s) :
    (run cfg env calls s).JumpsHold host ∧
      ((run cfg env calls s).world.EnodevSound → (run cfg env calls s).LinksHold) := by
  have hinv := run_inv cfg env calls (hstart.inv cfg)
  exact ⟨hinv.jumpsHold hstart.target_ne, hinv.linksHold⟩

/-- The link of the only tunnel cannot be deleted, so it stays on record. -/
theorem kernel_ledger_stuck :
    ((run Sample.config Sample.stuck [.packet Sample.packet, .del Sample.packet.remote]
        (Sample.start Sample.stuck)).world.kernel.links.any fun l => l.kind.isGretap) = true ∧
      (run Sample.config Sample.stuck [.packet Sample.packet, .del Sample.packet.remote]
        (Sample.start Sample.stuck)).JumpsHold Sample.kernel ∧
      (run Sample.config Sample.stuck [.packet Sample.packet, .del Sample.packet.remote]
        (Sample.start Sample.stuck)).LinksHold := by
  obtain ⟨hjumps, hlinks⟩ := kernel_ledger Sample.config Sample.stuck Sample.kernel _
    [.packet Sample.packet, .del Sample.packet.remote] (Sample.started (by decide +kernel))
  exact ⟨by decide +kernel, hjumps, hlinks (by decide +kernel)⟩

/-- After a cleanup that completed no slot is in use. -/
theorem Cleans.slots {s' : Sys} (h : Cleans cfg host s s') (hdone : s'.cleanupPending = false)
    (id : Nat) : s'.slots id = false := by
  cases h with
  | complete => rfl
  | incomplete _ hpend _ => cases hpend.symm.trans hdone

/-- The lookup of the only tunnel's link fails once, and after the cleanup no tunnel
    is on record for the link. -/
theorem not_links_hold_starved :
    Started (Sample.starved 13) Sample.kernel (Sample.start (Sample.starved 13)) ∧
      ¬ (run Sample.config (Sample.starved 13) [.packet Sample.packet, .delall]
        (Sample.start (Sample.starved 13))).LinksHold := by
  have hstart : Started (Sample.starved 13) Sample.kernel (Sample.start (Sample.starved 13)) :=
    Sample.started (by decide +kernel)
  refine ⟨hstart, fun hlinks => ?_⟩
  have hinv := run_inv Sample.config (Sample.starved 13) [.packet Sample.packet]
    (hstart.inv Sample.config)
  have hfree := (exec_delall Sample.config (Sample.starved 13) Sample.kernel hinv.tables).slots
    (by decide +kernel)
  obtain ⟨_, _, tun, -, -, hslot⟩ := hlinks ⟨['g', 'r', 'e', '0'],
    .gretap Sample.config.ifname Sample.config.localAddr Sample.packet.remote, none⟩
    (by decide +kernel) rfl
  cases hslot.symm.trans (hfree tun.id)

end Softgre
