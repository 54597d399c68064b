-- SUMMARY: The daemon's own chains end with their drops, and no bridged VLAN link goes unfiltered.
import Softgre.Ledger.Jumps

/-!
# The filter is closed

`Kernel.FailClosed` is the property the order of the daemon's commands is there
to keep: a VLAN link in a bridge has its three jumps, and the chains they lead
to end by dropping. The chains are without their ends only while a cleanup is
pending and nothing is left that they would have to filter.
-/

namespace Softgre

open Base

variable {cfg : SoftgredConfig} {sound : Prop} {host : Kernel} {st : Store} {k k' : Kernel}

namespace Kernel

/-- `SOFTGRE_IN` ends with the drop. -/
def TailIn (k : Kernel) : Prop := ∃ rules, k.chain .nat .softgreIn = some (rules ++ [dropRule])

/-- `SOFTGRE_OUT` ends with the multicast rule and the drop. -/
def TailOut (k : Kernel) : Prop :=
  ∃ rules, k.chain .filter .softgreOut = some (rules ++ [multicastRule, dropRule])

/-- All three jumps of the tunnel `name` are installed. -/
def HasJumps (k : Kernel) (name : CStr) : Prop :=
  ∀ h ∈ hooks, ∃ rules, k.chain h.table h.chain = some rules ∧ h.jump name ∈ rules

def FailClosed (k : Kernel) : Prop :=
  ∀ l ∈ k.links, ∀ name vid, l.kind = .vlan name vid → l.master.isSome = true →
    k.HasJumps name ∧ k.TailIn ∧ k.TailOut

theorem HasJumps.congr {name : CStr} (h : k.HasJumps name)
    (hchains : ∀ {t c}, c.builtin = true → k'.chain t c = k.chain t c) : k'.HasJumps name := by
  intro hook hmem
  obtain ⟨i, hi⟩ := List.mem_iff_getElem?.mp hmem
  obtain ⟨rules, hrules, hjump⟩ := h hook hmem
  exact ⟨rules, (hchains (builtin_of_hooks hi)).trans hrules, hjump⟩

end Kernel

/-! ## Rules above the tails -/

theorem erase_append_of_notMem {r : Rule} {rules tail : List Rule} (h : r ∉ tail) :
    (rules ++ tail).erase r = rules.erase r ++ tail := by
  by_cases hr : r ∈ rules
  · exact List.erase_append_left _ hr
  · rw [List.erase_append_right _ hr, List.erase_of_not_mem h, List.erase_of_not_mem hr]

theorem acceptIn_notMem_tail (name mac : CStr) : acceptIn name mac ∉ [dropRule] := by
  simp [acceptIn, dropRule]

theorem acceptOut_notMem_tail (name mac : CStr) :
    acceptOut name mac ∉ [multicastRule, dropRule] := by
  simp [acceptOut, multicastRule, dropRule]

namespace Event.Done

variable {ev : Event} {cmd : Cmd} {name mac : CStr}

theorem tailIn_allowIn (h : ev.Done k (allowIn name mac)) (htail : k.TailIn) : ev.kernel.TailIn := by
  obtain ⟨rules, hrules⟩ := htail
  obtain ⟨-, rules', hrules', hk⟩ := Kernel.apply_insert_iff.mp h.apply
  cases hrules.symm.trans hrules'
  exact ⟨acceptIn name mac :: rules, by rw [hk, Kernel.chain_setChain_self]; rfl⟩

theorem tailOut_allowOut (h : ev.Done k (allowOut name mac)) (htail : k.TailOut) :
    ev.kernel.TailOut := by
  obtain ⟨rules, hrules⟩ := htail
  obtain ⟨-, rules', hrules', hk⟩ := Kernel.apply_insert_iff.mp h.apply
  cases hrules.symm.trans hrules'
  exact ⟨acceptOut name mac :: rules, by rw [hk, Kernel.chain_setChain_self]; rfl⟩

theorem tailIn_revokeIn (h : ev.Done k (revokeIn name mac)) (htail : k.TailIn) :
    ev.kernel.TailIn := by
  obtain ⟨rules, hrules⟩ := htail
  obtain ⟨rules', hrules', -, hk⟩ := Kernel.apply_delete_iff.mp h.apply
  cases hrules.symm.trans hrules'
  refine ⟨rules.erase (acceptIn name mac), ?_⟩
  rw [hk, Kernel.chain_setChain_self, erase_append_of_notMem (acceptIn_notMem_tail name mac)]

theorem tailOut_revokeOut (h : ev.Done k (revokeOut name mac)) (htail : k.TailOut) :
    ev.kernel.TailOut := by
  obtain ⟨rules, hrules⟩ := htail
  obtain ⟨rules', hrules', -, hk⟩ := Kernel.apply_delete_iff.mp h.apply
  cases hrules.symm.trans hrules'
  refine ⟨rules.erase (acceptOut name mac), ?_⟩
  rw [hk, Kernel.chain_setChain_self, erase_append_of_notMem (acceptOut_notMem_tail name mac)]

theorem tailIn (h : ev.Done k cmd) (hedits : cmd.edits ≠ some (.nat, .softgreIn))
    (htail : k.TailIn) : ev.kernel.TailIn := by
  rw [Kernel.TailIn, h.chain hedits]
  exact htail

theorem tailOut (h : ev.Done k cmd) (hedits : cmd.edits ≠ some (.filter, .softgreOut))
    (htail : k.TailOut) : ev.kernel.TailOut := by
  rw [Kernel.TailOut, h.chain hedits]
  exact htail

/-- No command but the deletion of a chain makes a chain disappear. -/
theorem chain_isSome (h : ev.Done k cmd) {t : EbTable} {c : Chain} (hcmd : cmd ≠ .deleteChain t c)
    (hsome : (k.chain t c).isSome = true) : (ev.kernel.chain t c).isSome = true := by
  by_cases hedits : cmd.edits = some (t, c)
  · have happly := h.apply
    cases cmd with
    | newChain => cases hedits; rw [(Kernel.apply_newChain_iff.mp happly).2]; simp
    | deleteChain => cases hedits; exact absurd rfl hcmd
    | flush => cases hedits; rw [(Kernel.apply_flush_iff.mp happly).2]; simp
    | append =>
      cases hedits
      obtain ⟨-, _, -, hk⟩ := Kernel.apply_append_iff.mp happly
      rw [hk]
      simp
    | insert =>
      cases hedits
      obtain ⟨-, _, -, hk⟩ := Kernel.apply_insert_iff.mp happly
      rw [hk]
      simp
    | delete =>
      cases hedits
      obtain ⟨_, -, -, hk⟩ := Kernel.apply_delete_iff.mp happly
      rw [hk]
      simp
    | newGretap | newVlan | setMaster | delLink | lookup => cases hedits
  · rw [h.chain hedits]
    exact hsome

end Event.Done

/-! ## The chains -/

/-- The tails are there, unless a cleanup is pending and everything the daemon
    created is gone. -/
structure ChainsInv (sound : Prop) (pending : Bool) (k : Kernel) : Prop where
  isSomeIn : (k.chain .nat .softgreIn).isSome = true
  isSomeOut : (k.chain .filter .softgreOut).isSome = true
  tails : (k.TailIn ∧ k.TailOut) ∨
    (pending = true ∧ (sound → ∀ l ∈ k.links, l.kind.owned = false))

namespace ChainsInv

variable {pending : Bool} {ev : Event} {cmd : Cmd}

theorem pend (h : ChainsInv sound pending k) : ChainsInv sound true k :=
  { h with tails := h.tails.imp_right fun ⟨_, hforeign⟩ => ⟨rfl, hforeign⟩ }

/-- The less can be relied on, the less is said. -/
theorem mono {sound' : Prop} (h : ChainsInv sound pending k) (himp : sound' → sound) :
    ChainsInv sound' pending k :=
  { h with tails := h.tails.imp_right fun ⟨hpend, hforeign⟩ => ⟨hpend, fun h => hforeign (himp h)⟩ }

/-- A command that keeps the tails and adds no link. -/
theorem done (h : ChainsInv sound pending k) (hev : ev.Done k cmd)
    (hcmd : ∀ t c, cmd ≠ .deleteChain t c) (hin : k.TailIn → ev.kernel.TailIn)
    (hout : k.TailOut → ev.kernel.TailOut)
    (hlinks : pending = true → ∀ l ∈ ev.kernel.links, l ∈ k.links) :
    ChainsInv sound pending ev.kernel where
  isSomeIn := hev.chain_isSome (hcmd _ _) h.isSomeIn
  isSomeOut := hev.chain_isSome (hcmd _ _) h.isSomeOut
  tails := by
    rcases h.tails with ⟨htailIn, htailOut⟩ | ⟨hpend, hforeign⟩
    · exact .inl ⟨hin htailIn, hout htailOut⟩
    · exact .inr ⟨hpend, fun hsound l hl => hforeign hsound l (hlinks hpend l hl)⟩

/-- A command outside the daemon's own chains. -/
theorem elsewhere (h : ChainsInv sound pending k) (hev : ev.Done k cmd)
    (hin : cmd.edits ≠ some (.nat, .softgreIn)) (hout : cmd.edits ≠ some (.filter, .softgreOut))
    (hlinks : pending = true → ∀ l ∈ ev.kernel.links, l ∈ k.links) :
    ChainsInv sound pending ev.kernel := by
  refine ⟨by rw [hev.chain hin]; exact h.isSomeIn, by rw [hev.chain hout]; exact h.isSomeOut, ?_⟩
  rcases h.tails with ⟨htailIn, htailOut⟩ | ⟨hpend, hforeign⟩
  · exact .inl ⟨hev.tailIn hin htailIn, hev.tailOut hout htailOut⟩
  · exact .inr ⟨hpend, fun hsound l hl => hforeign hsound l (hlinks hpend l hl)⟩

variable {name mac : CStr}

theorem allowIn (h : ChainsInv sound pending k) (hev : ev.Done k (allowIn name mac)) :
    ChainsInv sound pending ev.kernel :=
  h.done hev nofun hev.tailIn_allowIn (hev.tailOut nofun) fun _ _ hl => hev.links rfl ▸ hl

theorem allowOut (h : ChainsInv sound pending k) (hev : ev.Done k (allowOut name mac)) :
    ChainsInv sound pending ev.kernel :=
  h.done hev nofun (hev.tailIn nofun) hev.tailOut_allowOut fun _ _ hl => hev.links rfl ▸ hl

theorem revokeIn (h : ChainsInv sound pending k) (hev : ev.Done k (revokeIn name mac)) :
    ChainsInv sound pending ev.kernel :=
  h.done hev nofun hev.tailIn_revokeIn (hev.tailOut nofun) fun _ _ hl => hev.links rfl ▸ hl

theorem revokeOut (h : ChainsInv sound pending k) (hev : ev.Done k (revokeOut name mac)) :
    ChainsInv sound pending ev.kernel :=
  h.done hev nofun (hev.tailIn nofun) hev.tailOut_revokeOut fun _ _ hl => hev.links rfl ▸ hl

end ChainsInv

/-- When the links of all tracked tunnels are gone, only foreign links are left. -/
theorem LinksInv.foreign_of_gone (h : LinksInv cfg st k)
    (hgone : ∀ p t, st.heap p = some t → k.hasLink t.ifgre = false) :
    ∀ l ∈ k.links, l.kind.owned = false := by
  intro l hl
  cases hkind : l.kind with
  | foreign => rfl
  | gretap dev loc rem =>
    obtain ⟨p, t, ht, hname, -⟩ := h.gretap hl (by rw [hkind]; rfl)
    exact absurd hname.symm (Kernel.hasLink_eq_false_iff.mp (hgone p t ht) l hl)
  | vlan name vid =>
    obtain ⟨p, t, ht, hname, -⟩ := h.hooked hl hkind
    exact absurd hname.symm (h.ne_of_gone hl hkind (hgone p t ht))

theorem hook_edits_ne {i : Nat} {h : Hook} (hi : hooks[i]? = some h) {t : EbTable} {c : Chain}
    (hc : c.builtin = false) : some (h.table, h.chain) ≠ some (t, c) := by
  intro heq
  have hbuiltin := builtin_of_hooks hi
  rw [(Prod.mk.inj (Option.some.inj heq)).2, hc] at hbuiltin
  cases hbuiltin

theorem ne_deleteChain_of_mem_resetCmds {cmd : Cmd} (h : cmd ∈ resetCmds) {t : EbTable} {c : Chain} :
    cmd ≠ .deleteChain t c := by
  rintro rfl
  simp [resetCmds] at h

theorem Step.chains {l : Label} {c c' : Core} (h : Step cfg l c c')
    (hlinks : c.world.EnodevSound → LinksInv cfg c.store c.kernel)
    (hinv : ChainsInv c.world.EnodevSound c.pending c.kernel) :
    ChainsInv c'.world.EnodevSound c'.pending c'.kernel := by
  have hsuffix := h.suffix
  suffices hchains : ChainsInv c.world.EnodevSound c'.pending c'.kernel from
    hchains.mono fun hsound => hsound.of_suffix hsuffix
  cases h with
  | errno | full | wait | skip | ready | unlearn | untrack | unready => exact hinv
  | pend => exact hinv.pend
  | refused hev =>
    rw [Core.kernel_record, hev.kernel]
    exact hinv
  | track hidle _ _ _ hev => exact hinv.elsewhere hev nofun nofun fun hp => by simp [hidle] at hp
  | hook _ hp hi hbit hev =>
    exact hinv.elsewhere hev (hook_edits_ne hi rfl) (hook_edits_ne hi rfl)
      fun _ _ hl => hev.links rfl ▸ hl
  | vlan hidle _ _ _ hev => exact hinv.elsewhere hev nofun nofun fun hp => by simp [hidle] at hp
  | master hidle _ _ hev => exact hinv.elsewhere hev nofun nofun fun hp => by simp [hidle] at hp
  | learn hp _ _ _ hin hout => exact (hinv.allowIn hin).allowOut hout
  | undone hp hin hout hundo => exact (hinv.allowIn hin).revokeIn hundo
  | leak hp hin hout hundo =>
    rw [Core.kernel_record, hundo.kernel]
    exact hinv.allowIn hin
  | unlink hp hev =>
    obtain ⟨-, hk⟩ := Kernel.apply_delLink_iff.mp hev.apply
    refine hinv.elsewhere hev nofun nofun fun _ l hl => ?_
    rw [hk] at hl
    exact (Kernel.mem_dropLink.mp hl).1
  | unhook hp hi hbit _ hev =>
    exact hinv.elsewhere hev (hook_edits_ne hi rfl) (hook_edits_ne hi rfl)
      fun _ _ hl => hev.links rfl ▸ hl
  | revoke hp hm hcmd hev =>
    rcases hcmd with rfl | rfl
    · exact hinv.revokeIn hev
    · exact hinv.revokeOut hev
  | reset hpend hgone hcmd hev =>
    refine ⟨hev.chain_isSome (ne_deleteChain_of_mem_resetCmds hcmd) hinv.isSomeIn,
      hev.chain_isSome (ne_deleteChain_of_mem_resetCmds hcmd) hinv.isSomeOut,
      .inr ⟨hpend, fun hsound => ?_⟩⟩
    have hsame := hev.links (by rcases edits_of_mem_resetCmds hcmd with h | h <;> rw [h] <;> rfl)
    rw [Core.kernel_record, hsame]
    exact (hlinks hsound).foreign_of_gone fun p t ht => hgone p t ht hsound
  | clear hpend hgone hin hout =>
    exact ⟨hinv.isSomeIn, hinv.isSomeOut, .inl ⟨⟨[], hin⟩, ⟨[], hout⟩⟩⟩

end Softgre
