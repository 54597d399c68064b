-- SUMMARY: Which interfaces the daemon owns by its own history, and that it acts on no others.
import Softgre.Iface.Names
import Softgre.Ledger.Tables

/-!
# The history of the links

The kernel knows a link by its name only, and other software may use names too.
Whose link a command meets is read off the history of the daemon's own commands:
it owns a name between a successful creation and a successful deletion.

The ledger keeps this straight as long as nobody takes the name of a tracked
tunnel whose link is gone.
-/

namespace Softgre

open Base

variable {cfg : SoftgredConfig} {name : CStr} {ev : Event} {older : List Event}

/-! ## Reading a history -/

/-- Every event of a history passes a check against the ones before it. -/
def history (check : Event → List Event → Bool) : List Event → Bool
  | [] => true
  | ev :: older => check ev older && history check older

/-- The daemon created the interface and has not deleted it since. -/
def owns : List Event → CStr → Bool
  | [], _ => false
  | ev :: older, name =>
    match ev.cmd with
    | .newGretap n _ _ _ => (ev.ok && n == name) || owns older name
    | .delLink n => !(ev.ok && n == name) && owns older name
    | _ => owns older name

/-- A link that is deleted, or that a VLAN link is put on, is the daemon's. -/
def actsOnOwn (ev : Event) (older : List Event) : Bool :=
  match ev.cmd with
  | .delLink name => !ev.ok || owns older name
  | .newVlan _ parent _ => !ev.ok || owns older parent
  | _ => true

/-- The event created a VLAN link of that name. -/
def Event.madeVlan (ev : Event) (name : CStr) : Bool :=
  match ev.cmd with
  | .newVlan n _ _ => ev.ok && n == name
  | _ => false

/-- A link that is put into a bridge is the VLAN link that was just created. -/
def enslavesOwn (ev : Event) (older : List Event) : Bool :=
  match ev.cmd with
  | .setMaster name _ => older.head?.any fun made => made.madeVlan name
  | _ => true

theorem history_cons {check : Event → List Event → Bool} :
    history check (ev :: older) = true ↔ check ev older = true ∧ history check older = true := by
  rw [history, Bool.and_eq_true]

/-- The command neither creates a tunnel link nor deletes a link. -/
def Cmd.keepsLinks : Cmd → Bool
  | .newGretap .. | .delLink _ => false
  | _ => true

theorem Cmd.keepsLinks_of_edits {cmd : Cmd} (h : cmd.edits.isSome = true) :
    cmd.keepsLinks = true := by
  cases cmd with
  | newGretap | delLink => cases h
  | _ => rfl

theorem owns_of_keepsLinks (h : ev.cmd.keepsLinks = true) :
    owns (ev :: older) name = owns older name := by
  rw [owns]
  split
  · next heq => rw [heq] at h; cases h
  · next heq => rw [heq] at h; cases h
  · rfl

theorem owns_refused (h : ev.ok = false) : owns (ev :: older) name = owns older name := by
  rw [owns]
  split
  · rw [h]; rfl
  · rw [h]; rfl
  · rfl

theorem actsOnOwn_refused (h : ev.ok = false) : actsOnOwn ev older = true := by
  rw [actsOnOwn]
  split
  · rw [h]; rfl
  · rw [h]; rfl
  · rfl

theorem actsOnOwn_of_edits (h : ev.cmd.edits.isSome = true) : actsOnOwn ev older = true := by
  rw [actsOnOwn]
  split
  · next heq => rw [heq] at h; cases h
  · next heq => rw [heq] at h; cases h
  · rfl

/-! ## The ledger -/

/-- The names of the tracked tunnels. -/
def Store.Names (st : Store) (name : CStr) : Prop := ∃ p t, st.heap p = some t ∧ t.ifgre = name

theorem Store.Names.of_write {st : Store} {p : Ptr} {t u : Tunnel} (hp : st.heap p = some t)
    (h : (st.write p u).Names name) (hifgre : u.ifgre = t.ifgre) : st.Names name := by
  obtain ⟨q, v, hv, rfl⟩ := h
  rcases heap_write_cases hv with ⟨rfl, rfl⟩ | ⟨-, hv⟩
  · exact ⟨q, t, hp, hifgre.symm⟩
  · exact ⟨q, v, hv, rfl⟩

theorem Store.Names.of_learn {st : Store} {p : Ptr} {t : Tunnel} {mac : CStr}
    (hp : st.heap p = some t) (h : (st.learn p t mac).Names name) : st.Names name :=
  of_write (u := { t with macs := insert mac t.macs }) hp h rfl

theorem Store.Names.of_unlearn {st : Store} {p : Ptr} {t : Tunnel} {mac : CStr}
    (hp : st.heap p = some t) (h : (st.unlearn p t mac).Names name) : st.Names name :=
  of_write (u := { t with macs := t.macs.erase mac }) hp h rfl

/-- A tracked tunnel whose name is in use has its own link there, and so far the
    daemon only acted on its own links. -/
structure Core.KeepsToOwn (c : Core) : Prop where
  owned : ∀ {name}, c.store.Names name → c.kernel.hasLink name = true →
    owns c.world.trace name = true
  acts : history actsOnOwn c.world.trace = true

namespace Core.KeepsToOwn

variable {c c' : Core}

/-- The tables changed, but no name was added. -/
theorem store (h : c.KeepsToOwn) {st : Store}
    (hnames : ∀ {name}, st.Names name → c.store.Names name) : (c.withStore st).KeepsToOwn :=
  ⟨fun hname => h.owned (hnames hname), h.acts⟩

/-- A firewall command. -/
theorem edit (h : c.KeepsToOwn) {cmd : Cmd} (hev : ev.Done c.kernel cmd)
    (hedits : cmd.edits.isSome = true) : (c.record ev).KeepsToOwn where
  owned hname hlink := by
    have hcmd : ev.cmd.keepsLinks = true := by
      rw [hev.cmd]
      exact Cmd.keepsLinks_of_edits hedits
    rw [Core.kernel_record, Kernel.hasLink_congr (hev.links hedits)] at hlink
    exact (owns_of_keepsLinks hcmd).trans (h.owned hname hlink)
  acts := history_cons.mpr ⟨actsOnOwn_of_edits (hev.cmd ▸ hedits), h.acts⟩

theorem refused (h : c.KeepsToOwn) (hev : ev.Refused c.kernel) : (c.record ev).KeepsToOwn where
  owned hname hlink := by
    rw [Core.kernel_record, hev.kernel] at hlink
    exact (owns_refused hev.ok).trans (h.owned hname hlink)
  acts := history_cons.mpr ⟨actsOnOwn_refused hev.ok, h.acts⟩

end Core.KeepsToOwn

theorem Kernel.hasLink_addLink (k : Kernel) (l : Link) (name : CStr) :
    (k.addLink l).hasLink name = (l.name == name || k.hasLink name) := rfl

theorem Kernel.hasLink_enslave (k : Kernel) (l bridge name : CStr) :
    (k.enslave l bridge).hasLink name = k.hasLink name := by
  simp only [hasLink, enslave, List.any_map]
  refine congrArg k.links.any (funext fun link => ?_)
  rw [Function.comp_apply]
  split <;> rfl

theorem Kernel.hasLink_of_dropLink {k : Kernel} {gone : CStr}
    (h : (k.dropLink gone).hasLink name = true) : name ≠ gone ∧ k.hasLink name = true := by
  obtain ⟨l, hl, rfl⟩ := hasLink_iff.mp h
  obtain ⟨hl, hne, -⟩ := mem_dropLink.mp hl
  exact ⟨hne, hasLink_iff.mpr ⟨l, hl, rfl⟩⟩

theorem Step.keepsToOwn {l : Label} {c c' : Core} (h : Step cfg l c c')
    (hst : c.store.Inv cfg) (hinv : c.KeepsToOwn) : c'.KeepsToOwn := by
  have hnext := hst.fresh (Nat.le_refl _)
  cases h with
  | errno | full | wait | pend => exact ⟨hinv.owned, hinv.acts⟩
  | refused hev => exact hinv.refused hev
  | skip => exact hinv.store fun hname => hname
  | @track c ev remote id _ hnone hid hslot hev =>
    obtain ⟨-, hk⟩ := Kernel.apply_newGretap_iff.mp hev.apply
    refine ⟨fun {name} hname hlink => ?_, history_cons.mpr ⟨?_, hinv.acts⟩⟩
    · show owns (ev :: c.world.trace) name = true
      simp only [owns, hev.cmd, hev.ok, Bool.true_and, Bool.or_eq_true, beq_iff_eq]
      obtain ⟨q, u, hu, rfl⟩ := hname
      rcases (Store.heap_track_iff hnext).mp hu with ⟨-, rfl⟩ | hu
      · exact .inl rfl
      -- an older tunnel has another name, so the new link is not its own
      by_cases hsame : tunnelName cfg id = u.ifgre
      · exact .inl hsame
      · refine .inr (hinv.owned ⟨q, u, hu, rfl⟩ ?_)
        rw [Core.kernel_withStore, Core.kernel_record, hk, Kernel.hasLink_addLink, Bool.or_eq_true,
          beq_iff_eq] at hlink
        exact hlink.resolve_left hsame
    · simp only [actsOnOwn, hev.cmd]
  | hook _ hp _ _ hev =>
    exact (hinv.edit hev rfl).store fun hname => hname.of_write hp rfl
  | @vlan c ev p t b _ hp hhooks hb hev =>
    obtain ⟨-, hparent, hk⟩ := Kernel.apply_newVlan_iff.mp hev.apply
    refine ⟨fun {name} hname hlink => ?_, history_cons.mpr ⟨?_, hinv.acts⟩⟩
    · refine (owns_of_keepsLinks (by rw [hev.cmd]; rfl)).trans (hinv.owned hname ?_)
      rw [Core.kernel_record, hk, Kernel.hasLink_addLink, Bool.or_eq_true, beq_iff_eq] at hlink
      refine hlink.resolve_left fun heq => ?_
      obtain ⟨q, u, hu, rfl⟩ := hname
      refine vlanName_ne_tunnelName cfg (hst.id_lt hp) (hst.id_lt hu) (cfg.bridge_valid b hb).2.2 ?_
      rw [← hst.ifgre_eq hp, ← hst.ifgre_eq hu]
      exact heq
    · simp only [actsOnOwn, hev.cmd, hev.ok, Bool.not_true, Bool.false_or]
      exact hinv.owned ⟨p, t, hp, rfl⟩ hparent
  | master _ hp hb hev =>
    obtain ⟨-, -, hk⟩ := Kernel.apply_setMaster_iff.mp hev.apply
    refine ⟨fun hname hlink => ?_, history_cons.mpr ⟨?_, hinv.acts⟩⟩
    · rw [Core.kernel_record, hk, Kernel.hasLink_enslave] at hlink
      exact (owns_of_keepsLinks (by rw [hev.cmd]; rfl)).trans (hinv.owned hname hlink)
    · simp only [actsOnOwn, hev.cmd]
  | ready _ hp => exact hinv.store fun hname => hname.of_write hp rfl
  | learn hp _ _ _ hin hout =>
    exact ((hinv.edit hin rfl).edit hout rfl).store fun hname => hname.of_learn hp
  | undone hp hin hout hundo =>
    exact ((hinv.edit hin rfl).refused hout).edit (hout.kernel.symm ▸ hundo) rfl
  | leak hp hin hout hundo =>
    refine ((hinv.edit hin rfl).refused hout).refused ?_
    rw [Core.kernel_record, hout.kernel]
    exact hundo
  | @unlink c ev p t hp hev =>
    obtain ⟨hlink, hk⟩ := Kernel.apply_delLink_iff.mp hev.apply
    refine ⟨fun {name} hname hlink => ?_, history_cons.mpr ⟨?_, hinv.acts⟩⟩
    · rw [Core.kernel_record, hk] at hlink
      obtain ⟨hne, hlink⟩ := Kernel.hasLink_of_dropLink hlink
      show owns (ev :: c.world.trace) name = true
      simp only [owns, hev.cmd, Bool.and_eq_true, Bool.not_eq_true', Bool.and_eq_false_iff,
        beq_eq_false_iff_ne]
      exact ⟨.inr hne.symm, hinv.owned hname hlink⟩
    · simp only [actsOnOwn, hev.cmd, hev.ok, Bool.not_true, Bool.false_or]
      exact hinv.owned ⟨p, t, hp, rfl⟩ hlink
  | unhook hp _ _ _ hev => exact (hinv.edit hev rfl).store fun hname => hname.of_write hp rfl
  | revoke hp hm hcmd hev =>
    refine hinv.edit hev ?_
    rcases hcmd with rfl | rfl <;> rfl
  | unlearn hp hm => exact hinv.store fun hname => hname.of_unlearn hp
  | untrack hp =>
    refine hinv.store fun hname => ?_
    obtain ⟨q, u, hu, hname⟩ := hname
    exact ⟨q, u, (Store.heap_untrack_iff.mp hu).2, hname⟩
  | unready _ hp => exact hinv.store fun hname => hname.of_write hp rfl
  | reset hpend hgone hcmd hev =>
    refine hinv.edit hev ?_
    simp only [resetCmds, List.mem_cons, List.not_mem_nil, or_false] at hcmd
    rcases hcmd with rfl | rfl | rfl | rfl | rfl <;> rfl
  | clear =>
    refine ⟨fun hname => ?_, hinv.acts⟩
    obtain ⟨q, u, hu, -⟩ := hname
    cases hu

end Softgre
