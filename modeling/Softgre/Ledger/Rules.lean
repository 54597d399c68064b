-- SUMMARY: What a step does to the accept rules, and which agreement with the tables every trail keeps.
import Softgre.Ledger.Permissions

/-!
# The accept rules along a trail

`Step.rules` says once what a step can do to the daemon's own chains. Whether the
rules agree with the tables exactly, or only cover them, depends on which of these
changes a trail can contain.
-/

namespace Softgre

open Base

variable {cfg : SoftgredConfig} {c c' : Core} {l : Label} {k : Kernel}

/-! ## What a step can do -/

/-- What a step does to the rules of both chains, and to the addresses they are for. -/
inductive RuleChange (l : Label) (c c' : Core) : Prop where
  | same : c'.kernel.chain .nat .softgreIn = c.kernel.chain .nat .softgreIn →
      c'.kernel.chain .filter .softgreOut = c.kernel.chain .filter .softgreOut →
      (∀ name mac, c'.store.Permits name mac ↔ c.store.Permits name mac) → RuleChange l c c'
  | learned {p : Ptr} {t : Tunnel} {mac : CStr} {evIn evOut : Event} : c.store.heap p = some t →
      c.store.owner mac = none → evIn.Done c.kernel (allowIn t.ifgre mac) →
      evOut.Done evIn.kernel (allowOut t.ifgre mac) → c'.store = c.store.learn p t mac →
      c'.kernel = evOut.kernel → RuleChange l c c'
  | leaked {remote : InAddr} {name mac : CStr} {ev evUndo : Event} : l = .leak remote mac →
      ev.Done c.kernel (allowIn name mac) → c'.kernel = ev.kernel → c'.store = c.store →
      c.world.New c'.world evUndo → evUndo.Leaves → RuleChange l c c'
  | revoked {remote : InAddr} {mac : CStr} : l = .revoke remote mac → RuleChange l c c'
  | reset {ev : Event} : c'.pending = true → c.world.New c'.world ev → ev.ok = true →
      ev.cmd ∈ resetCmds → RuleChange l c c'
  | cleared : l = .clear → (∀ name mac, ¬ c'.store.Permits name mac) →
      c'.kernel.chain .nat .softgreIn = some [dropRule] →
      c'.kernel.chain .filter .softgreOut = some [multicastRule, dropRule] → RuleChange l c c'

/-- A command that edits neither chain. -/
theorem RuleChange.elsewhere {ev : Event} {cmd : Cmd} (hev : ev.Done c.kernel cmd)
    (hin : cmd.edits ≠ some (.nat, .softgreIn)) (hout : cmd.edits ≠ some (.filter, .softgreOut))
    (hkernel : c'.kernel = ev.kernel)
    (hpermits : ∀ name mac, c'.store.Permits name mac ↔ c.store.Permits name mac) :
    RuleChange l c c' :=
  .same (hkernel ▸ hev.chain hin) (hkernel ▸ hev.chain hout) hpermits

/-- Inserting the ingress rule and deleting it again leaves the chain as it was. -/
theorem chain_undone {name mac : CStr} {evIn evUndo : Event} (hin : evIn.Done k (allowIn name mac))
    (hundo : evUndo.Done evIn.kernel (revokeIn name mac)) :
    evUndo.kernel.chain .nat .softgreIn = k.chain .nat .softgreIn := by
  obtain ⟨-, rules, hrules, hk⟩ := Kernel.apply_insert_iff.mp hin.apply
  obtain ⟨rules', hrules', -, hk'⟩ := Kernel.apply_delete_iff.mp hundo.apply
  rw [hk, Kernel.chain_setChain_self] at hrules'
  cases hrules'
  rw [hk', Kernel.chain_setChain_self, List.erase_cons_head, hrules]

/-- The rule to be taken back is the one that was just inserted. -/
theorem Event.Refused.leaves {name mac : CStr} {evIn evUndo : Event}
    (hin : evIn.Done k (allowIn name mac)) (hundo : evUndo.Refused evIn.kernel)
    (hcmd : evUndo.cmd = revokeIn name mac) : evUndo.Leaves := by
  obtain ⟨-, rules, -, hk⟩ := Kernel.apply_insert_iff.mp hin.apply
  have hchain : evIn.kernel.chain .nat .softgreIn = some (acceptIn name mac :: rules) := by
    rw [hk, Kernel.chain_setChain_self]
  refine ⟨by rw [hcmd]; rfl, hundo.ok, Option.isSome_iff_exists.mpr ?_⟩
  rw [hundo.kernel, hcmd]
  exact ⟨_, Kernel.apply_delete_iff.mpr ⟨_, hchain, List.mem_cons_self, rfl⟩⟩

theorem Step.rules (h : Step cfg l c c') (hst : c.store.Inv cfg) : RuleChange l c c' := by
  have hrefl : ∀ name mac, c.store.Permits name mac ↔ c.store.Permits name mac := fun _ _ => Iff.rfl
  cases h with
  | errno | full | wait | skip | pend => exact .same rfl rfl hrefl
  | refused hev =>
    exact .same (congrArg (Kernel.chain · _ _) hev.kernel) (congrArg (Kernel.chain · _ _) hev.kernel)
      hrefl
  | track _ _ _ _ hev =>
    exact .elsewhere hev nofun nofun rfl (Store.permits_track (hst.fresh (Nat.le_refl _)))
  | hook _ hp hi _ hev =>
    exact .elsewhere hev (hook_edits_ne hi rfl) (hook_edits_ne hi rfl) rfl
      (Store.permits_write hp rfl rfl)
  | unhook hp hi _ _ hev =>
    exact .elsewhere hev (hook_edits_ne hi rfl) (hook_edits_ne hi rfl) rfl
      (Store.permits_write hp rfl rfl)
  | vlan _ _ _ _ hev => exact .elsewhere hev nofun nofun rfl hrefl
  | master _ _ _ hev => exact .elsewhere hev nofun nofun rfl hrefl
  | unlink _ hev => exact .elsewhere hev nofun nofun rfl hrefl
  | ready _ hp => exact .same rfl rfl (Store.permits_write hp rfl rfl)
  | unready _ hp => exact .same rfl rfl (Store.permits_write hp rfl rfl)
  | untrack hp hmacs => exact .same rfl rfl (Store.permits_untrack hp hmacs)
  | learn hp _ hnone _ hin hout => exact .learned hp hnone hin hout rfl rfl
  | @undone c evIn _ evUndo _ _ _ _ hin hout hundo =>
    have hegress : evUndo.kernel.chain .filter .softgreOut = evIn.kernel.chain .filter .softgreOut :=
      hundo.chain nofun
    exact .same (chain_undone hin hundo) (hegress.trans (hin.chain nofun)) hrefl
  | leak _ hin hout hundo hcmd =>
    exact .leaked rfl hin hundo.kernel rfl ⟨[_, _, _], rfl, List.mem_cons_self⟩
      (hundo.leaves hin hcmd)
  | revoke | unlearn => exact .revoked rfl
  | reset hpend _ hcmd hev => exact .reset hpend (World.New.record _ _) hev.ok (hev.cmd ▸ hcmd)
  | clear _ _ hin hout => exact .cleared rfl (fun _ _ => Store.not_permits_clear) hin hout

/-- Only the end of a cleanup makes it no longer pending. -/
theorem Step.pending (h : Step cfg l c c') (hl : l ≠ .clear) (hidle : c'.pending = false) :
    c.pending = false := by
  cases h with
  | pend => cases hidle
  | clear => exact absurd rfl hl
  | _ => exact hidle

/-! ## Agreement -/

/-- The chains list exactly the owned addresses, outside a pending cleanup. -/
def Core.Listed (c : Core) : Prop :=
  c.pending = false → ListsInv [dropRule] [multicastRule, dropRule] c.store c.kernel

theorem Core.Listed.perms (h : c.Listed) : c.Perms := fun hidle => (h hidle).perms

/-- An ingress rule that was to be deleted has been left behind between `w` and `w'`. -/
def World.Leaks (w w' : World) : Prop := ∃ ev, w.New w' ev ∧ ev.Leaves

theorem World.Leaks.of_suffix {w w₁ w' : World} (h : w₁.Leaks w') (hsuffix : w.trace <:+ w₁.trace) :
    w.Leaks w' :=
  h.imp fun _ hev => ⟨hev.1.of_suffix hsuffix, hev.2⟩

theorem World.Leaks.extend {w w' w₁ : World} (h : w.Leaks w') (hsuffix : w'.trace <:+ w₁.trace) :
    w.Leaks w₁ :=
  h.imp fun _ hev => ⟨hev.1.extend hsuffix, hev.2⟩

theorem World.AllUndone.of_suffix {w w' : World} (h : w'.AllUndone) (hsuffix : w.trace <:+ w'.trace) :
    w.AllUndone := fun ev hev => h ev (hsuffix.subset hev)

/-- Nothing is left behind when every deletion of an ingress rule works. -/
theorem World.AllUndone.not_leaks {w w' : World} (h : w'.AllUndone) : ¬ w.Leaks w' := by
  rintro ⟨ev, ⟨evs, htrace, hmem⟩, hundoes, hok, -⟩
  have hyes := h ev (htrace ▸ List.mem_append_left _ hmem) hundoes
  cases hok.symm.trans hyes

section Steps

variable {restIn restOut : List Rule}

/-- A step of a kind that neither revokes nor resets keeps the lists exact. -/
theorem Step.lists (h : Step cfg l c c') (hl : ∀ r mac, l ≠ .revoke r mac) (hclear : l ≠ .clear)
    (hst : c.store.Inv cfg) (hleaks : ∀ r mac, l = .leak r mac → ¬ c.world.Leaks c'.world)
    (hreset : c'.pending = false ∨
      ∀ ev, c.world.New c'.world ev → ev.ok = true → ev.cmd ∉ resetCmds)
    (hlists : ListsInv restIn restOut c.store c.kernel) :
    ListsInv restIn restOut c'.store c'.kernel := by
  cases h.rules hst with
  | same hin hout hpermits => exact hlists.congr hin hout hpermits
  | learned hp hnone hin hout hstore hkernel =>
    rw [hstore, hkernel]
    exact hlists.learn hst hp hnone hin hout
  | leaked heq _ _ _ hnew hleaves => exact absurd ⟨_, hnew, hleaves⟩ (hleaks _ _ heq)
  | revoked heq => exact absurd heq (hl _ _)
  | reset hpend hnew hok hcmd =>
    rcases hreset with hidle | hnone
    · cases hpend.symm.trans hidle
    · exact absurd hcmd (hnone _ hnew hok)
  | cleared heq => exact absurd heq hclear

theorem Step.listed (h : Step cfg l c c') (hl : ∀ r mac, l ≠ .revoke r mac)
    (hst : c.store.Inv cfg) (hleaks : ¬ c.world.Leaks c'.world) (hlisted : c.Listed) :
    c'.Listed := by
  intro hidle
  by_cases hclear : l = .clear
  · subst hclear
    cases h with
    | clear _ _ hin hout => exact .of_rests hin hout fun _ _ => Store.not_permits_clear
  · exact h.lists hl hclear hst (fun _ _ _ => hleaks) (.inl hidle)
      (hlisted (h.pending hclear hidle))

/-- A rule that is left behind does not hide the others. -/
theorem Step.covers (h : Step cfg l c c') (hl : ∀ r mac, l ≠ .revoke r mac)
    (hst : c.store.Inv cfg) (hcovers : c.pending = false → CoversInv c.store c.kernel)
    (hidle : c'.pending = false) : CoversInv c'.store c'.kernel := by
  by_cases hclear : l = .clear
  · subst hclear
    cases h with
    | clear _ _ hin hout =>
      exact ⟨⟨_, hin, fun _ _ h => absurd h Store.not_permits_clear⟩,
        ⟨_, hout, fun _ _ h => absurd h Store.not_permits_clear⟩⟩
  have hcovers := hcovers (h.pending hclear hidle)
  cases h.rules hst with
  | same hin hout hpermits => exact hcovers.congr hin hout hpermits
  | learned hp _ hin hout hstore hkernel =>
    rw [hstore, hkernel]
    exact hcovers.learn hp hin hout
  | leaked _ hev hkernel hstore =>
    rw [hstore, hkernel]
    exact hcovers.leak hev
  | revoked heq => exact absurd heq (hl _ _)
  | reset hpend => cases hpend.symm.trans hidle
  | cleared heq => exact absurd heq hclear

end Steps

/-! ## Trails -/

section Trails

variable {P : Label → Prop} (hP : ∀ r mac, ¬ P (.revoke r mac)) (h : Trail (Step cfg) P c c')
  (hst : c.store.Inv cfg)

include hP h hst

theorem Core.trail_lists {restIn restOut : List Rule} (hclear : ¬ P .clear)
    (hleaks : ∀ r mac, P (.leak r mac) → ¬ c.world.Leaks c'.world)
    (hreset : ∀ ev, c.world.New c'.world ev → ev.ok = true → ev.cmd ∉ resetCmds)
    (hlists : ListsInv restIn restOut c.store c.kernel) :
    ListsInv restIn restOut c'.store c'.kernel := by
  have hinv := h.invariant (I := fun c' : Core => c.world.trace <:+ c'.world.trace ∧
      c'.store.Inv cfg ∧ ((∀ r mac, P (.leak r mac) → ¬ c.world.Leaks c'.world) →
        (∀ ev, c.world.New c'.world ev → ev.ok = true → ev.cmd ∉ resetCmds) →
        ListsInv restIn restOut c'.store c'.kernel)) (fun l c₁ c₂ hl hs hc => ?_)
    ⟨List.suffix_refl _, hst, fun _ _ => hlists⟩
  · exact hinv.2.2 hleaks hreset
  · obtain ⟨hsuffix, hst₁, ih⟩ := hc
    refine ⟨hsuffix.trans hs.suffix, hs.tables hst₁, fun hleaks hreset => ?_⟩
    refine hs.lists (fun r mac heq => hP r mac (heq ▸ hl)) (fun heq => hclear (heq ▸ hl)) hst₁
      (fun r mac heq hleak => hleaks r mac (heq ▸ hl) (hleak.of_suffix hsuffix))
      (.inr fun ev hev => hreset ev (hev.of_suffix hsuffix)) (ih ?_ ?_)
    · exact fun r mac hPl hleak => hleaks r mac hPl (hleak.extend hs.suffix)
    · exact fun ev hev => hreset ev (hev.extend hs.suffix)

theorem Core.trail_listed (hleaks : ¬ c.world.Leaks c'.world) (hlisted : c.Listed) : c'.Listed := by
  have hinv := h.invariant (I := fun c' : Core => c.world.trace <:+ c'.world.trace ∧
      c'.store.Inv cfg ∧ (¬ c.world.Leaks c'.world → c'.Listed)) (fun l c₁ c₂ hl hs hc => ?_)
    ⟨List.suffix_refl _, hst, fun _ => hlisted⟩
  · exact hinv.2.2 hleaks
  · obtain ⟨hsuffix, hst₁, ih⟩ := hc
    refine ⟨hsuffix.trans hs.suffix, hs.tables hst₁, fun hleaks => ?_⟩
    refine hs.listed (fun r mac heq => hP r mac (heq ▸ hl)) hst₁
      (fun hleak => hleaks (hleak.of_suffix hsuffix)) (ih ?_)
    exact fun hleak => hleaks (hleak.extend hs.suffix)

theorem Core.trail_covers (hcovers : c.pending = false → CoversInv c.store c.kernel) :
    c'.pending = false → CoversInv c'.store c'.kernel := by
  have hinv := h.invariant
    (I := fun c : Core => c.store.Inv cfg ∧ (c.pending = false → CoversInv c.store c.kernel))
    (fun l _ _ hl hs hc => ⟨hs.tables hc.1, hs.covers (fun r mac heq => hP r mac (heq ▸ hl)) hc.1 hc.2⟩)
    ⟨hst, hcovers⟩
  exact hinv.2

end Trails

end Softgre
