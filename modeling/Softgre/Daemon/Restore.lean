-- SUMMARY: The host's own links and chains along every run, and the kernel a shutdown leaves behind.
import Softgre.Daemon.Foreign
import Softgre.Daemon.Recovery
import Softgre.Provision.Reset
import Softgre.Provision.Shutdown

/-!
# What the host gets back

The daemon and the host share one kernel. A link the daemon owns is never one of
the host's, so no command of a run changes the host's links, neither their order
nor the bridge they are in, but for those that sit on a link of the daemon's and go
with it. What the daemon has added it takes away again, unless a command is refused
that could have worked.
-/

namespace Softgre

open Base

variable {cfg : SoftgredConfig} {env : Env} {host : Kernel} {s : Sys}

-- ---------------------------------------------------------------------------
-- The links of the host
-- ---------------------------------------------------------------------------

namespace Kernel

variable {k k' : Kernel} {l : Link} {name : CStr}

/-- The link sits on one of the daemon's. -/
def rides (k : Kernel) (l : Link) : Bool :=
  k.links.any fun o => o.kind.owned && l.kind.below.contains o.name

theorem rides_iff : k.rides l = true ↔
    ∃ o ∈ k.links, o.kind.owned = true ∧ o.name ∈ l.kind.below := by
  simp [rides]

/-- The links that are neither the daemon's nor sit on one of the daemon's, in their
    order. -/
def bystanders (k : Kernel) : List Link := k.links.filter fun l => !l.kind.owned && !k.rides l

theorem bystanders_congr (h : k'.links = k.links) : k'.bystanders = k.bystanders := by
  simp only [bystanders, rides, h]

theorem bystanders_of_all (h : ∀ l ∈ k.links, l.kind.owned = false) : k.bystanders = k.links := by
  refine List.filter_eq_self.mpr fun l hl => ?_
  have hrides : k.rides l = false := by
    refine Bool.eq_false_iff.mpr fun hrides => ?_
    obtain ⟨o, ho, howned, -⟩ := rides_iff.mp hrides
    cases (h o ho).symm.trans howned
  rw [h l hl, hrides]
  rfl

/-- A new link of the daemon's has nothing on it. -/
theorem bystanders_addLink (hk : k.Stacked) (howned : l.kind.owned = true)
    (hfree : k.hasLink l.name = false) : (k.addLink l).bystanders = k.bystanders := by
  rw [bystanders, addLink, List.filter_cons_of_neg (by rw [howned]; exact Bool.false_ne_true)]
  refine List.filter_congr fun other hother => congrArg (!other.kind.owned && !·) ?_
  have hnot : l.name ∉ other.kind.below := by
    intro hbelow
    cases hfree.symm.trans (hk.exist other hother _ hbelow)
  simp [rides, hnot]

/-- No link under the name is the host's. -/
def Apart (k : Kernel) (name : CStr) : Prop :=
  ∀ l ∈ k.links, l.name = name → l.kind.owned = true

theorem Apart.of_free (h : k.hasLink name = false) : k.Apart name :=
  fun l hl hname => absurd hname (hasLink_eq_false_iff.mp h l hl)

theorem Apart.addLink (h : k.Apart name) (hl : l.name = name → l.kind.owned = true) :
    (k.addLink l).Apart name := by
  intro o ho
  rcases List.mem_cons.mp ho with rfl | ho
  · exact hl
  · exact h o ho

theorem bystanders_dropLink (hk : k.Stacked) (hlink : k.hasLink name = true)
    (h : k.Apart name) : (k.dropLink name).bystanders = k.bystanders := by
  rw [bystanders, bystanders]
  conv_lhs => rw [show (k.dropLink name).links = k.links.filter _ from rfl, List.filter_filter]
  refine List.filter_congr fun l hl => ?_
  rw [Bool.eq_iff_iff]
  simp only [Bool.and_eq_true, Bool.not_eq_true', bne_iff_ne, ne_eq, ← Bool.not_eq_true, rides_iff,
    List.contains_iff_mem]
  constructor
  · -- what it sat on that is gone would have taken it along
    rintro ⟨⟨hforeign, hrides⟩, -, hbelow⟩
    refine ⟨hforeign, fun ⟨o, ho, howned, hin⟩ => hrides ⟨o, mem_dropLink.mpr ⟨ho, ?_, ?_⟩, howned, hin⟩⟩
    · rintro rfl
      exact hbelow hin
    · exact fun hunder => hbelow (hk.closed l hl o ho hin hunder)
  · rintro ⟨hforeign, hrides⟩
    refine ⟨⟨hforeign, fun ⟨o, ho, hrest⟩ => hrides ⟨o, (mem_dropLink.mp ho).1, hrest⟩⟩, ?_, ?_⟩
    · exact fun hname => hforeign (h l hl hname)
    · intro hbelow
      obtain ⟨o, ho, rfl⟩ := hasLink_iff.mp hlink
      exact hrides ⟨o, ho, h o ho rfl, hbelow⟩

theorem kind_enslave {bridge : CStr} (l : Link) :
    (if l.name = name then { l with master := some bridge } else l).kind = l.kind := by
  split <;> rfl

theorem name_enslave {bridge : CStr} (l : Link) :
    (if l.name = name then { l with master := some bridge } else l).name = l.name := by
  split <;> rfl

theorem bystanders_enslave {bridge : CStr} (h : k.Apart name) :
    (k.enslave name bridge).bystanders = k.bystanders := by
  have hrides : ∀ l : Link, (k.enslave name bridge).rides
      (if l.name = name then { l with master := some bridge } else l) = k.rides l := by
    intro l
    simp only [rides, enslave, List.any_map, kind_enslave, Function.comp_def, name_enslave]
  rw [bystanders]
  conv_lhs => rw [show (k.enslave name bridge).links = k.links.map _ from rfl, List.filter_map]
  have hsame : (k.links.filter ((fun l => !l.kind.owned && !(k.enslave name bridge).rides l) ∘
      fun l => if l.name = name then { l with master := some bridge } else l)) = k.bystanders :=
    List.filter_congr fun l _ => by rw [Function.comp_apply, kind_enslave, hrides]
  rw [hsame]
  refine (List.map_congr_left fun l hl => ?_).trans (List.map_id _)
  obtain ⟨hl, hforeign⟩ := List.mem_filter.mp hl
  refine if_neg fun hname => ?_
  rw [h l hl hname] at hforeign
  cases hforeign

end Kernel

-- ---------------------------------------------------------------------------
-- What sits on what
-- ---------------------------------------------------------------------------

/-- The name is that of a link, and only of tunnel links of the daemon's, which sit on
    no other. -/
structure Kernel.IsTunnel (k : Kernel) (name : CStr) : Prop where
  hasLink : k.hasLink name = true
  gretap : ∀ l ∈ k.links, l.name = name → l.kind.isGretap = true

theorem LinkKind.owned_of_isGretap {kind : LinkKind} (h : kind.isGretap = true) :
    kind.owned = true := by
  cases kind with
  | gretap => rfl
  | vlan | foreign => cases h

theorem LinkKind.below_of_isGretap {kind : LinkKind} (h : kind.isGretap = true) :
    kind.below = [] := by
  cases kind with
  | gretap => rfl
  | vlan | foreign => cases h

namespace Kernel.IsTunnel

variable {k : Kernel} {name : CStr}

theorem apart (h : k.IsTunnel name) : k.Apart name :=
  fun l hl hname => LinkKind.owned_of_isGretap (h.gretap l hl hname)

theorem addLink (h : k.IsTunnel name) {l : Link} (hfree : k.hasLink l.name = false) :
    (k.addLink l).IsTunnel name where
  hasLink := by rw [Kernel.hasLink_addLink, h.hasLink, Bool.or_true]
  gretap o ho hname := by
    rcases List.mem_cons.mp ho with rfl | ho
    · rw [hname, h.hasLink] at hfree
      cases hfree
    · exact h.gretap o ho hname

theorem dropLink (h : k.IsTunnel name) {gone : CStr} (hne : name ≠ gone) :
    (k.dropLink gone).IsTunnel name where
  hasLink := by
    obtain ⟨l, hl, rfl⟩ := hasLink_iff.mp h.hasLink
    refine hasLink_iff.mpr ⟨l, mem_dropLink.mpr ⟨hl, hne, ?_⟩, rfl⟩
    rw [LinkKind.below_of_isGretap (h.gretap l hl rfl)]
    exact List.not_mem_nil
  gretap l hl := h.gretap l (mem_dropLink.mp hl).1

theorem enslave (h : k.IsTunnel name) (other bridge : CStr) :
    (k.enslave other bridge).IsTunnel name where
  hasLink := (hasLink_enslave k other bridge name).trans h.hasLink
  gretap l hl := by
    obtain ⟨o, ho, rfl⟩ := List.mem_map.mp hl
    rw [kind_enslave, name_enslave]
    exact h.gretap o ho

end Kernel.IsTunnel

namespace Kernel.Stacked

variable {k : Kernel} (hk : k.Stacked)

include hk

/-- A link under a name that is free sits under no other one. -/
theorem addLink {l : Link} (hfree : k.hasLink l.name = false)
    (hexist : ∀ name ∈ l.kind.below, k.hasLink name = true)
    (hclosed : ∀ o ∈ k.links, o.name ∈ l.kind.below → o.kind.below ⊆ l.kind.below) :
    (k.addLink l).Stacked := by
  have hlinks : ∀ {name}, k.hasLink name = true → (k.addLink l).hasLink name = true := by
    intro name hname
    rw [Kernel.hasLink_addLink, hname, Bool.or_true]
  have hnot : ∀ {name}, k.hasLink name = true → l.name ≠ name := by
    rintro name hname rfl
    cases hfree.symm.trans hname
  refine ⟨fun a ha name hname => ?_, fun a ha o ho hin => ?_⟩
  · rcases List.mem_cons.mp ha with rfl | ha
    · exact hlinks (hexist name hname)
    · exact hlinks (hk.exist a ha name hname)
  · rcases List.mem_cons.mp ha with rfl | hold
    · rcases List.mem_cons.mp ho with rfl | ho
      · exact absurd rfl (hnot (hexist _ hin))
      · exact hclosed o ho hin
    · rcases List.mem_cons.mp ho with heq | ho
      · exact absurd (congrArg Link.name heq).symm (hnot (hk.exist a hold _ hin))
      · exact hk.closed a hold o ho hin

theorem dropLink (name : CStr) : (k.dropLink name).Stacked := by
  refine ⟨fun l hl n hn => ?_, fun l hl o ho => ?_⟩
  · obtain ⟨hl, -, hbelow⟩ := mem_dropLink.mp hl
    obtain ⟨o, ho, rfl⟩ := hasLink_iff.mp (hk.exist l hl n hn)
    refine hasLink_iff.mpr ⟨o, mem_dropLink.mpr ⟨ho, ?_, fun hunder => ?_⟩, rfl⟩
    · rintro rfl
      exact hbelow hn
    · exact hbelow (hk.closed l hl o ho hn hunder)
  · exact hk.closed l (mem_dropLink.mp hl).1 o (mem_dropLink.mp ho).1

theorem enslave (name bridge : CStr) : (k.enslave name bridge).Stacked := by
  refine ⟨fun l hl n hn => ?_, fun l hl o ho => ?_⟩
  · obtain ⟨a, ha, rfl⟩ := List.mem_map.mp hl
    rw [kind_enslave] at hn
    rw [hasLink_enslave]
    exact hk.exist a ha n hn
  · obtain ⟨a, ha, rfl⟩ := List.mem_map.mp hl
    obtain ⟨b, hb, rfl⟩ := List.mem_map.mp ho
    rw [kind_enslave, kind_enslave, name_enslave]
    exact hk.closed a ha b hb

theorem congr {k' : Kernel} (h : k'.links = k.links) : k'.Stacked := by
  refine ⟨fun l hl name hname => ?_, fun l hl o ho => ?_⟩
  · rw [Kernel.hasLink_congr h]
    exact hk.exist l (h ▸ hl) name hname
  · exact hk.closed l (h ▸ hl) o (h ▸ ho)

/-- What other software puts on top of a link. -/
theorem stack {lower : Option CStr} {below : List CStr} (h : k.stack lower = some below) :
    (∀ name ∈ below, k.hasLink name = true) ∧
      ∀ o ∈ k.links, o.name ∈ below → o.kind.below ⊆ below := by
  cases lower with
  | none =>
    cases h
    exact ⟨fun _ hname => absurd hname List.not_mem_nil, fun _ _ hname => absurd hname List.not_mem_nil⟩
  | some lower =>
    rw [Kernel.stack] at h
    split at h
    · next hlower =>
      cases h
      have hunder : ∀ {name}, name ∈ (k.links.filter fun l => l.name == lower).flatMap
          (fun l => l.kind.below) ↔ ∃ q ∈ k.links, q.name = lower ∧ name ∈ q.kind.below := by
        simp [and_assoc]
      refine ⟨fun name hname => ?_, fun o ho hname n hn => ?_⟩
      · rcases List.mem_cons.mp hname with rfl | hname
        · exact hlower
        · obtain ⟨q, hq, -, hin⟩ := hunder.mp hname
          exact hk.exist q hq name hin
      · refine List.mem_cons_of_mem _ (hunder.mpr ?_)
        rcases List.mem_cons.mp hname with hname | hname
        · exact ⟨o, ho, hname, hn⟩
        · obtain ⟨q, hq, hqname, hin⟩ := hunder.mp hname
          exact ⟨q, hq, hqname, hk.closed q hq o ho hin hn⟩
    · cases h

end Kernel.Stacked

-- ---------------------------------------------------------------------------
-- Single commands
-- ---------------------------------------------------------------------------

/-- What the daemon's history says of names, the kernel bears out: a name it owns is that
    of a tunnel, and the VLAN link it has just made has its name for itself. -/
structure World.Knows (w : World) : Prop where
  stacked : w.kernel.Stacked
  owned : ∀ {name}, owns w.trace name = true → w.kernel.IsTunnel name
  made : ∀ {name}, (w.trace.head?.any fun ev => ev.madeVlan name) = true →
    w.kernel.hasLink name = true ∧ w.kernel.Apart name

theorem Event.not_madeVlan {ev : Event} {name : CStr} (h : ev.ok = false) :
    ev.madeVlan name = false := by
  rw [madeVlan]
  split
  · rw [h]; rfl
  · rfl

/-- One command: `ev` is in order by the history before it. -/
structure World.Knows.Next (w : World) (ev : Event) : Prop where
  knows : (w.record ev).Knows
  bystanders : ev.kernel.bystanders = w.kernel.bystanders

namespace World.Knows

variable {w : World} {ev : Event}

theorem refused (h : w.Knows) (hev : ev.Refused w.kernel) : Next w ev where
  knows :=
    { stacked := by
        rw [World.record, hev.kernel]
        exact h.stacked
      owned := fun {name} hname => by
        rw [World.record, owns_refused hev.ok] at hname
        rw [World.record, hev.kernel]
        exact h.owned hname
      made := fun {name} hname => by
        rw [World.record, List.head?_cons, Option.any_some, Event.not_madeVlan hev.ok] at hname
        cases hname }
  bystanders := by rw [hev.kernel]

/-- A command that neither makes a link nor deletes one. -/
theorem keeping (h : w.Knows) (hcmd : ev.cmd.keepsLinks = true)
    (hvlan : ∀ name, ev.madeVlan name = false) (hstacked : ev.kernel.Stacked)
    (htunnel : ∀ {name}, w.kernel.IsTunnel name → ev.kernel.IsTunnel name)
    (hbystanders : ev.kernel.bystanders = w.kernel.bystanders) : Next w ev where
  knows :=
    { stacked := hstacked
      owned := fun {name} hname => by
        rw [World.record, owns_of_keepsLinks hcmd] at hname
        exact htunnel (h.owned hname)
      made := fun {name} hname => by
        rw [World.record, List.head?_cons, Option.any_some, hvlan] at hname
        cases hname }
  bystanders := hbystanders

theorem edit (h : w.Knows) {cmd : Cmd} (hev : ev.Done w.kernel cmd)
    (hedits : cmd.edits.isSome = true) : Next w ev := by
  have hlinks := hev.links hedits
  refine h.keeping ?_ (fun name => ?_) (h.stacked.congr hlinks) (fun {name} hname => ?_)
    (Kernel.bystanders_congr hlinks)
  · rw [hev.cmd]
    exact Cmd.keepsLinks_of_edits hedits
  · rw [Event.madeVlan, hev.cmd]
    cases cmd with
    | newVlan => cases hedits
    | _ => rfl
  · refine ⟨(Kernel.hasLink_congr hlinks name).trans hname.hasLink, fun l hl => ?_⟩
    exact hname.gretap l (hlinks ▸ hl)

theorem gretap (h : w.Knows) {name dev : CStr} {loc rem : InAddr}
    (hev : ev.Done w.kernel (.newGretap name dev loc rem)) : Next w ev := by
  obtain ⟨hfree, hk⟩ := Kernel.apply_newGretap_iff.mp hev.apply
  refine ⟨⟨?_, fun {n} hname => ?_, fun {n} hname => ?_⟩, ?_⟩
  · rw [World.record, hk]
    exact h.stacked.addLink hfree (fun _ hin => absurd hin List.not_mem_nil)
      fun _ _ hin => absurd hin List.not_mem_nil
  · rw [World.record, hk]
    simp only [World.record, owns, hev.cmd, hev.ok, Bool.true_and, Bool.or_eq_true,
      beq_iff_eq] at hname
    rcases hname with rfl | hname
    · refine ⟨?_, fun l hl hname => ?_⟩
      · rw [Kernel.hasLink_addLink, beq_self_eq_true, Bool.true_or]
      · rcases List.mem_cons.mp hl with rfl | hl
        · rfl
        · exact absurd hname (Kernel.hasLink_eq_false_iff.mp hfree l hl)
    · exact (h.owned hname).addLink hfree
  · simp only [World.record, List.head?_cons, Option.any_some, Event.madeVlan, hev.cmd] at hname
    cases hname
  · rw [hk]
    exact Kernel.bystanders_addLink h.stacked rfl hfree

theorem vlan (h : w.Knows) {name parent : CStr} {vid : UInt16}
    (hev : ev.Done w.kernel (.newVlan name parent vid)) (hacts : actsOnOwn ev w.trace = true) :
    Next w ev := by
  obtain ⟨hfree, hparent, hk⟩ := Kernel.apply_newVlan_iff.mp hev.apply
  simp only [actsOnOwn, hev.cmd, hev.ok, Bool.not_true, Bool.false_or] at hacts
  have htunnel := h.owned hacts
  refine ⟨⟨?_, fun {n} hname => ?_, fun {n} hname => ?_⟩, ?_⟩
  · rw [World.record, hk]
    refine h.stacked.addLink hfree (fun n hin => ?_) fun o ho hin => ?_
    · rw [List.mem_singleton.mp hin]
      exact hparent
    · rw [LinkKind.below_of_isGretap (htunnel.gretap o ho (List.mem_singleton.mp hin))]
      exact List.nil_subset _
  · rw [World.record, owns_of_keepsLinks (by rw [hev.cmd]; rfl)] at hname
    rw [World.record, hk]
    exact (h.owned hname).addLink hfree
  · simp only [World.record, List.head?_cons, Option.any_some, Event.madeVlan, hev.cmd, hev.ok,
      Bool.true_and, beq_iff_eq] at hname
    subst hname
    rw [World.record, hk]
    refine ⟨?_, (Kernel.Apart.of_free hfree).addLink fun _ => rfl⟩
    rw [Kernel.hasLink_addLink, beq_self_eq_true, Bool.true_or]
  · rw [hk]
    exact Kernel.bystanders_addLink h.stacked rfl hfree

theorem master (h : w.Knows) {name bridge : CStr} (hev : ev.Done w.kernel (.setMaster name bridge))
    (henslaves : enslavesOwn ev w.trace = true) : Next w ev := by
  obtain ⟨-, -, hk⟩ := Kernel.apply_setMaster_iff.mp hev.apply
  -- the link is the one that was made by the command before
  rw [enslavesOwn, hev.cmd] at henslaves
  obtain ⟨-, hapart⟩ := h.made henslaves
  refine h.keeping (by rw [hev.cmd]; rfl) (fun n => by rw [Event.madeVlan, hev.cmd]) ?_
    (fun {n} hin => ?_) ?_
  · rw [hk]
    exact h.stacked.enslave _ _
  · rw [hk]
    exact hin.enslave _ _
  · rw [hk]
    exact Kernel.bystanders_enslave hapart

theorem deletion (h : w.Knows) {name : CStr} (hev : ev.Done w.kernel (.delLink name))
    (hacts : actsOnOwn ev w.trace = true) : Next w ev := by
  obtain ⟨-, hk⟩ := Kernel.apply_delLink_iff.mp hev.apply
  simp only [actsOnOwn, hev.cmd, hev.ok, Bool.not_true, Bool.false_or] at hacts
  have htunnel := h.owned hacts
  refine ⟨⟨?_, fun {n} hname => ?_, fun {n} hname => ?_⟩, ?_⟩
  · rw [World.record, hk]
    exact h.stacked.dropLink name
  · simp only [World.record, owns, hev.cmd, hev.ok, Bool.true_and, Bool.and_eq_true,
      Bool.not_eq_true', beq_eq_false_iff_ne] at hname
    rw [World.record, hk]
    exact (h.owned hname.2).dropLink hname.1.symm
  · simp only [World.record, List.head?_cons, Option.any_some, Event.madeVlan, hev.cmd] at hname
    cases hname
  · rw [hk]
    exact Kernel.bystanders_dropLink h.stacked htunnel.hasLink htunnel.apart

/-- Whatever command it is, it leaves the bystanders alone. -/
theorem done (h : w.Knows) {cmd : Cmd} (hev : ev.Done w.kernel cmd)
    (hacts : actsOnOwn ev w.trace = true) (henslaves : enslavesOwn ev w.trace = true) :
    Next w ev := by
  cases cmd with
  | newChain | deleteChain | flush | append | insert | delete => exact h.edit hev rfl
  | newGretap => exact h.gretap hev
  | newVlan => exact h.vlan hev hacts
  | setMaster => exact h.master hev henslaves
  | delLink => exact h.deletion hev hacts
  | lookup => cases hev.apply

end World.Knows

-- ---------------------------------------------------------------------------
-- Along a run
-- ---------------------------------------------------------------------------

/-- The daemon kept to its own links in all its history. -/
structure World.InOrder (w : World) : Prop where
  acts : history actsOnOwn w.trace = true
  enslaves : history enslavesOwn w.trace = true

theorem World.InOrder.cons {w : World} {ev : Event} (h : (w.record ev).InOrder) :
    w.InOrder ∧ actsOnOwn ev w.trace = true ∧ enslavesOwn ev w.trace = true := by
  obtain ⟨hacts, hacts'⟩ := history_cons.mp h.acts
  obtain ⟨henslaves, henslaves'⟩ := history_cons.mp h.enslaves
  exact ⟨⟨hacts', henslaves'⟩, hacts, henslaves⟩

theorem Sys.KeepsToOwn.inOrder (h : s.KeepsToOwn cfg) : s.world.InOrder := ⟨h.ledger.acts, h.enslaves⟩

/-- Since `w₀`, no command has changed the bystanders. -/
structure World.SparesHost (w₀ w : World) : Prop where
  knows : w.Knows
  bystanders : w.kernel.bystanders = w₀.kernel.bystanders
  only : w₀.Only (fun ev => ev.kernel.bystanders = w₀.kernel.bystanders) w

theorem World.Knows.sparesHost {w : World} (h : w.Knows) : w.SparesHost w :=
  ⟨h, rfl, World.Only.refl w⟩

theorem World.SparesHost.next {w₀ w : World} {ev : Event} (h : w₀.SparesHost w)
    (hnext : World.Knows.Next w ev) : w₀.SparesHost (w.record ev) where
  knows := hnext.knows
  bystanders := hnext.bystanders.trans h.bystanders
  only := h.only.trans (World.Only.record (hnext.bystanders.trans h.bystanders))

/-- Whether the daemon keeps to its own links is settled elsewhere; as long as it
    does, every single command spares the host's. -/
theorem kept_sparesHost (w₀ : World) : Kept env fun w => w.InOrder → w₀.SparesHost w := by
  have hrefused : ∀ (w : World) (ev : Event), ev.Refused w.kernel →
      (w.InOrder → w₀.SparesHost w) → (w.record ev).InOrder → w₀.SparesHost (w.record ev) := by
    intro w ev hev hw horder
    have hspares := hw horder.cons.1
    exact hspares.next (hspares.knows.refused hev)
  refine Kept.of_perform (fun fallback cmd w hw => ?_) (fun cmd e w hw => ?_)
    (fun w e hw horder => ?_) fun w usec hw horder => ?_
  · refine wp_mono (perform_spec env fallback cmd w) fun ret w' h => ?_
    obtain ⟨ev, rfl, -, ⟨-, -, hdone⟩ | ⟨-, -, hev, -⟩⟩ := h
    · intro horder
      obtain ⟨horder, hacts, henslaves⟩ := horder.cons
      have hspares := hw horder
      exact hspares.next (hspares.knows.done hdone hacts henslaves)
    · exact hrefused w ev hev hw
  · exact hrefused w _ ⟨rfl, rfl⟩ hw
  · obtain ⟨hknows, hbystanders, honly⟩ := hw ⟨horder.acts, horder.enslaves⟩
    exact ⟨⟨hknows.stacked, hknows.owned, hknows.made⟩, hbystanders, honly⟩
  · obtain ⟨hknows, hbystanders, honly⟩ := hw ⟨horder.acts, horder.enslaves⟩
    exact ⟨⟨hknows.stacked, hknows.owned, hknows.made⟩, hbystanders, honly⟩

theorem exec_sparesHost (call : Call) (hown : s.KeepsToOwn cfg) (hknows : s.world.Knows) :
    s.world.SparesHost (exec cfg env s call).world :=
  (kept_sparesHost s.world).exec call (fun _ => hknows.sparesHost)
    (exec_keepsToOwn call hown).inOrder

/-- A link of somebody else under a free name changes nothing about the daemon's. -/
theorem foreign_knows {name : CStr} {lower : Option CStr} (hknows : s.world.Knows) :
    (hostStep cfg env s (.foreign name lower)).world.Knows := by
  rw [hostStep]
  split
  · exact hknows
  · next below hstack =>
    obtain ⟨hexist, hclosed⟩ := hknows.stacked.stack hstack
    split
    · exact hknows
    · next hlink =>
      have hfree := Bool.of_not_eq_true hlink
      refine ⟨hknows.stacked.addLink hfree hexist hclosed, fun {n} hname => ?_, fun {n} hname => ?_⟩
      · exact (hknows.owned hname).addLink hfree
      · obtain ⟨hin, hapart⟩ := hknows.made hname
        refine ⟨?_, hapart.addLink fun heq => ?_⟩
        · show (Kernel.addLink _ _).hasLink n = true
          rw [Kernel.hasLink_addLink, hin, Bool.or_true]
        · cases hfree.symm.trans ((congrArg s.world.kernel.hasLink heq).trans hin)

theorem hostRun_knows (steps : List HostStep) (hown : s.KeepsToOwn cfg) (hknows : s.world.Knows)
    (hsteps : Unclaimed cfg env steps s) : (hostRun cfg env steps s).world.Knows := by
  induction steps generalizing s with
  | nil => exact hknows
  | cons step rest ih =>
    cases step with
    | call call =>
      exact ih (exec_keepsToOwn call hown) (exec_sparesHost call hown hknows).knows hsteps.2
    | foreign name lower =>
      refine ih ?_ (foreign_knows hknows) hsteps.2
      exact foreign_keepsToOwn hown fun remote p tun => hsteps.1 name lower remote p tun rfl

theorem owns_of_firewalls {trace : List Event} (h : ∀ ev ∈ trace, ev.cmd.edits.isSome = true)
    (name : CStr) : owns trace name = false := by
  induction trace with
  | nil => rfl
  | cons ev older ih =>
    obtain ⟨hev, holder⟩ := List.forall_mem_cons.mp h
    rw [owns_of_keepsLinks (Cmd.keepsLinks_of_edits hev), ih holder]

theorem Started.knows (h : Started env host s) : s.world.Knows := by
  obtain ⟨errno, clock, rfl, hok⟩ := h.boot
  have hfirewalls : ((ifaceEbtablesInit env).run ⟨host, [], errno, clock, false⟩).2.Firewalls :=
    kept_firewalls.ifaceEbtablesInit (fun _ _ hw => hw) _ fun _ hev => absurd hev List.not_mem_nil
  have hstacked : ((ifaceEbtablesInit env).run ⟨host, [], errno, clock, false⟩).2.kernel.Stacked :=
    h.pristine.stacked.congr (ifaceEbtablesInit_spec env _ hok).1.1
  generalize ((ifaceEbtablesInit env).run ⟨host, [], errno, clock, false⟩).2 = w at *
  refine ⟨hstacked, fun {name} hname => ?_, fun {name} hname => ?_⟩
  · cases (owns_of_firewalls hfirewalls name).symm.trans hname
  · have hmade : (w.trace.head?.any fun ev => ev.madeVlan name) = true := hname
    cases htrace : w.trace with
    | nil =>
      rw [htrace] at hmade
      cases hmade
    | cons ev older =>
      have hedits := hfirewalls ev (htrace ▸ List.mem_cons_self)
      rw [htrace, List.head?_cons, Option.any_some, Event.madeVlan] at hmade
      split at hmade
      · next heq => rw [heq] at hedits; cases hedits
      · cases hmade

/-- Whatever other software creates between the calls and whatever fails, no command
    of a call changes a link that is not the daemon's and does not sit on one of the
    daemon's: they are the same after it, in the same order and in the same bridges,
    as long as nobody takes the name of a tunnel that is on record without its link. -/
theorem host_links_spared (cfg : SoftgredConfig) (env : Env) (host : Kernel) (s s₁ : Sys)
    (steps : List HostStep) (call : Call) (hstart : Started env host s)
    (hsteps : Unclaimed cfg env steps s) (hs₁ : s₁ = hostRun cfg env steps s) :
    (exec cfg env s₁ call).world.kernel.bystanders = s₁.world.kernel.bystanders ∧
      ∀ ev, s₁.world.New (exec cfg env s₁ call).world ev →
        ev.kernel.bystanders = s₁.world.kernel.bystanders := by
  subst hs₁
  have hown : (hostRun cfg env steps s).KeepsToOwn cfg :=
    hostRun_keepsToOwn steps hstart.keepsToOwn hsteps
  have hspares : World.SparesHost _ (exec cfg env _ call).world := exec_sparesHost call hown
    (hostRun_knows steps hstart.keepsToOwn hstart.knows hsteps)
  exact ⟨hspares.bystanders, fun ev hnew => hspares.only.of_new hnew⟩

/-- Other software puts one interface on the host's and one on the tunnel. The cleanup
    takes away the tunnel with its VLAN link and the interface that sits on it, and none
    of the others. -/
theorem host_links_spared_clinging :
    (hostRun Sample.config Sample.clinging [.foreign "eth0.7".toList (some "eth0".toList),
      .call (.packet Sample.packet), .foreign "gre0.7".toList (some "gre0".toList)]
      (Sample.start Sample.clinging)).world.kernel.links.length = 6 ∧
    (exec Sample.config Sample.clinging (hostRun Sample.config Sample.clinging
      [.foreign "eth0.7".toList (some "eth0".toList), .call (.packet Sample.packet),
        .foreign "gre0.7".toList (some "gre0".toList)] (Sample.start Sample.clinging))
      .delall).world.kernel.links.length = 3 ∧
    (exec Sample.config Sample.clinging (hostRun Sample.config Sample.clinging
      [.foreign "eth0.7".toList (some "eth0".toList), .call (.packet Sample.packet),
        .foreign "gre0.7".toList (some "gre0".toList)] (Sample.start Sample.clinging))
      .delall).world.kernel.bystanders.map Link.name =
      ["eth0.7".toList, "eth0".toList, "br0".toList] := by
  have hstart : Started Sample.clinging Sample.kernel (Sample.start Sample.clinging) :=
    Sample.started (by decide +kernel)
  have hown : (hostStep Sample.config Sample.clinging (Sample.start Sample.clinging)
      (.foreign "eth0.7".toList (some "eth0".toList))).KeepsToOwn Sample.config :=
    foreign_keepsToOwn hstart.keepsToOwn fun _ _ _ hin => by cases hin.record
  have hunclaimed : Unclaimed Sample.config Sample.clinging
      [.foreign "eth0.7".toList (some "eth0".toList), .call (.packet Sample.packet),
        .foreign "gre0.7".toList (some "gre0".toList)] (Sample.start Sample.clinging) := by
    refine ⟨fun _ _ _ _ _ _ hin => ?_, fun _ _ _ _ _ h => ?_, fun _ _ _ p tun h hin hname => ?_,
      trivial⟩
    · cases hin.record
    · cases h
    · cases h
      have hgre0 : tun.ifgre = "gre0".toList :=
        (exec_tables Sample.config Sample.clinging (.packet Sample.packet)
          hown.tables).ifgre_of_next (by decide +kernel) (by decide +kernel) hin.record
      rw [hgre0] at hname
      exact absurd hname (by decide)
  have hspared := (host_links_spared Sample.config Sample.clinging Sample.kernel
    (Sample.start Sample.clinging) _ _ .delall hstart hunclaimed rfl).1
  rw [hspared]
  exact ⟨by decide +kernel, by decide +kernel, by decide +kernel⟩

-- ---------------------------------------------------------------------------
-- Taking everything back
-- ---------------------------------------------------------------------------

/-- Deletes a link, a rule or a chain, or empties a chain. -/
def Cmd.takesBack : Cmd → Bool
  | .delLink _ | .delete .. | .flush .. | .deleteChain .. => true
  | _ => false

/-- Something was not taken back that could have been. -/
def World.Withheld (w w' : World) : Prop :=
  ∃ ev, w.New w' ev ∧ ev.cmd.takesBack = true ∧ ev.Unwilling

theorem World.Withheld.of_suffix {w w₁ w' : World} (h : w₁.Withheld w')
    (hsuffix : w.trace <:+ w₁.trace) : w.Withheld w' :=
  h.imp fun _ hev => ⟨hev.1.of_suffix hsuffix, hev.2⟩

theorem World.Withheld.extend {w w' w₁ : World} (h : w.Withheld w')
    (hsuffix : w'.trace <:+ w₁.trace) : w.Withheld w₁ :=
  h.imp fun _ hev => ⟨hev.1.extend hsuffix, hev.2⟩

/-- Nothing of the daemon's is left but its chains, and no rule leads there. -/
structure Kernel.Stripped (k host : Kernel) : Prop where
  links : k.links = host.links
  chains : ∀ t c, c ≠ t.own → k.chain t c = host.chain t c
  own : ∀ t : EbTable, (k.chain t t.own).isSome = true

section Stripped

variable {c : Core} (hinv : c.Inv cfg host)
  (hall : ∀ p t, c.store.heap p = some t → t.hooks = 0 ∧ c.Gone t)

include hinv hall

theorem Core.Inv.links_of_gone (hsound : c.world.EnodevSound) :
    ∀ l ∈ c.kernel.links, l.kind.owned = false := by
  have hnone : ∀ {name P}, c.kernel.hasLink name = true → ¬ c.store.Has name P := by
    rintro name P hlink ⟨p, t, ht, rfl, -⟩
    rw [(hall p t ht).2 hsound] at hlink
    cases hlink
  intro l hl
  cases hkind : l.kind with
  | foreign => rfl
  | gretap =>
    have hlink : c.kernel.hasLink l.name = true := Kernel.hasLink_iff.mpr ⟨l, hl, rfl⟩
    exact (hnone hlink ((hinv.links hsound).gretap hl (by rw [hkind]; rfl))).elim
  | vlan =>
    have hlink := (hinv.links hsound).parent hl hkind
    exact (hnone hlink ((hinv.links hsound).hooked hl hkind)).elim

theorem Core.Inv.jumps_of_gone (t : EbTable) (ch : Chain) (hch : ch.builtin = true) :
    c.kernel.chain t ch = host.chain t ch := by
  obtain ⟨js, hchain, -, -, hmem⟩ := hinv.jumps t ch hch
  obtain rfl : js = [] := by
    refine List.eq_nil_iff_forall_not_mem.mpr fun r hr => ?_
    obtain ⟨_, i, _, _, _, _, ⟨p, t, ht, _, hbit⟩, _⟩ := (hmem r).mp hr
    rw [(hall p t ht).1] at hbit
    simp at hbit
  refine hchain.trans ?_
  cases host.chain t ch <;> rfl

end Stripped

/-- No step touches a chain that is neither built in nor the daemon's own. -/
theorem Step.elsewhere {l : Label} {c c' : Core} (h : Step cfg l c c')
    {t : EbTable} {ch : Chain} (hch : ch.builtin = false) (hown : ch ≠ t.own) :
    c'.kernel.chain t ch = c.kernel.chain t ch := by
  have hedits : ∀ {t' ch'}, ch'.builtin = true ∨ ch' = EbTable.own t' → (t', ch') ≠ (t, ch) := by
    rintro t' ch' hor ⟨⟩
    exact hor.elim (fun hb => Bool.noConfusion (hch.symm.trans hb)) hown
  have hdone : ∀ {ev : Event} {k : Kernel} {cmd : Cmd} {t' ch'}, ev.Done k cmd →
      cmd.edits = some (t', ch') → ch'.builtin = true ∨ ch' = EbTable.own t' →
      ev.kernel.chain t ch = k.chain t ch := by
    intro ev k cmd t' ch' hev heq hor
    refine hev.chain ?_
    rw [heq]
    exact fun h => hedits hor (Option.some.inj h)
  have hlink : ∀ {ev : Event} {k : Kernel} {cmd : Cmd}, ev.Done k cmd → cmd.edits = none →
      ev.kernel.chain t ch = k.chain t ch := by
    intro ev k cmd hev heq
    refine hev.chain ?_
    rw [heq]
    exact nofun
  cases h with
  | full | wait | errno | skip | ready | pend | unready | unlearn | untrack | clear => rfl
  | refused hev => exact congrArg (fun k : Kernel => k.chain t ch) hev.kernel
  | track _ _ _ _ hev => exact hlink hev rfl
  | vlan _ _ _ _ hev => exact hlink hev rfl
  | master _ _ _ hev => exact hlink hev rfl
  | unlink _ hev => exact hlink hev rfl
  | hook _ _ hi _ hev => exact hdone hev rfl (.inl (builtin_of_hooks hi))
  | unhook _ hi _ _ hev => exact hdone hev rfl (.inl (builtin_of_hooks hi))
  | learn _ _ _ _ hin hout =>
    exact (hdone hout rfl (.inr rfl)).trans (hdone hin rfl (.inr rfl))
  | undone _ hin _ hundo =>
    exact (hdone hundo rfl (.inr rfl)).trans (hdone hin rfl (.inr rfl))
  | leak _ hin _ hundo =>
    exact (congrArg (fun k : Kernel => k.chain t ch) hundo.kernel).trans (hdone hin rfl (.inr rfl))
  | revoke _ _ hcmd hev =>
    rcases hcmd with rfl | rfl
    · exact hdone hev rfl (.inr rfl)
    · exact hdone hev rfl (.inr rfl)
  | reset _ _ hcmd hev =>
    simp only [resetCmds, List.mem_cons, List.not_mem_nil, or_false] at hcmd
    rcases hcmd with rfl | rfl | rfl | rfl | rfl
    all_goals exact hdone hev rfl (.inr rfl)

/-- The chains of nobody in particular are those of the host. -/
def Core.Elsewhere (host : Kernel) (c : Core) : Prop :=
  ∀ t ch, ch.builtin = false → ch ≠ t.own → c.kernel.chain t ch = host.chain t ch

theorem Core.Elsewhere.trail {P : Label → Prop} {c c' : Core} (h : c.Elsewhere host)
    (htrail : Trail (Step cfg) P c c') : c'.Elsewhere host :=
  htrail.invariant (I := fun c => c.Elsewhere host)
    (fun _ _ _ _ hs hc t ch hch hown => (hs.elsewhere hch hown).trans (hc t ch hch hown)) h

/-- What a shutdown of a run relies on. -/
structure Sys.Returns (cfg : SoftgredConfig) (host : Kernel) (s : Sys) : Prop where
  inv : s.abs.Inv cfg host
  own : s.KeepsToOwn cfg
  knows : s.world.Knows
  bystanders : s.world.kernel.bystanders = host.links
  elsewhere : s.abs.Elsewhere host
  initialized : s.world.initialized = true

theorem Sys.Returns.exec (env : Env) (h : s.Returns cfg host) (call : Call) :
    (exec cfg env s call).Returns cfg host where
  inv := h.inv.trail (exec_trail cfg env call h.inv.tables h.inv.idle)
  own := exec_keepsToOwn call h.own
  knows := (exec_sparesHost call h.own h.knows).knows
  bystanders := (exec_sparesHost call h.own h.knows).bystanders.trans h.bystanders
  elsewhere := h.elsewhere.trail (exec_trail cfg env call h.inv.tables h.inv.idle)
  initialized :=
    (Core.trail_initialized (exec_trail cfg env call h.inv.tables h.inv.idle)).trans h.initialized

theorem run_returns (h : s.Returns cfg host) (calls : List Call) :
    (run cfg env calls s).Returns cfg host :=
  run_invariant (P := fun _ => True) (fun call _ _ hs => hs.exec env call) (fun _ _ => trivial) h

/-- Commands for the daemon's chains leave all others as they are. -/
theorem Kernel.applyAll_elsewhere {cmds : List Cmd} {t : EbTable} {ch : Chain} (hown : ch ≠ t.own)
    (hcmds : ∀ cmd ∈ cmds, ∃ t' : EbTable, cmd.edits = some (t', t'.own)) :
    ∀ {k k' : Kernel}, k.applyAll cmds = some k' → k'.chain t ch = k.chain t ch := by
  induction cmds with
  | nil =>
    rintro k k' ⟨⟩
    rfl
  | cons cmd rest ih =>
    intro k k' happly
    obtain ⟨⟨t', hcmd⟩, hrest⟩ := List.forall_mem_cons.mp hcmds
    obtain ⟨k₁, hk₁, hk'⟩ := Option.bind_eq_some_iff.mp happly
    refine (ih hrest hk').trans (Kernel.chain_of_apply ?_ hk₁)
    rw [hcmd]
    rintro ⟨⟩
    exact hown rfl

theorem edits_of_mem_initCmds : ∀ cmd ∈ initCmds, ∃ t : EbTable, cmd.edits = some (t, t.own) := by
  intro cmd hcmd
  simp only [initCmds, defaultCmds, List.cons_append, List.nil_append, List.mem_cons,
    List.not_mem_nil, or_false] at hcmd
  rcases hcmd with rfl | rfl | rfl | rfl | rfl
  · exact ⟨.nat, rfl⟩
  · exact ⟨.filter, rfl⟩
  · exact ⟨.filter, rfl⟩
  · exact ⟨.nat, rfl⟩
  · exact ⟨.filter, rfl⟩

theorem Started.returns (h : Started env host s) : s.Returns cfg host := by
  have hinv := h.inv cfg
  have hown : s.KeepsToOwn cfg := h.keepsToOwn
  have hknows := h.knows
  have hinit := h.initialized
  obtain ⟨errno, clock, rfl, hok⟩ := h.boot
  obtain ⟨⟨hlinks, -⟩, -, happly⟩ := ifaceEbtablesInit_spec env _ hok
  refine ⟨hinv, hown, hknows, ?_, fun t ch _ hch => ?_, hinit⟩
  · exact (Kernel.bystanders_congr hlinks).trans (Kernel.bystanders_of_all h.pristine.foreign)
  · exact Kernel.applyAll_elsewhere hch edits_of_mem_initCmds happly

/-- A command that takes a tunnel down and could have worked was withheld. -/
theorem Core.Blames.withheld {c : Core} {w : World} (h : c.Blames cfg host w)
    (hinv : c.Inv cfg host)
    (honly : c.world.Only (fun ev => ∃ name, ev.cmd.Dismantles name) w) : c.world.Withheld w := by
  obtain ⟨ev, hnew, -, hunwilling⟩ := h
  refine ⟨ev, hnew, ?_, hunwilling hinv⟩
  obtain ⟨name, hcmd⟩ := honly.of_new hnew
  have happly := (hunwilling hinv).2
  cases hev : ev.cmd with
  | delLink | delete => rfl
  | lookup => rw [hev] at happly; cases happly
  | _ => rw [hev] at hcmd; exact hcmd.elim

/-- A link that is taken for deleted could have been deleted. -/
theorem World.EnodevSound.extend_or_withheld {w w' : World} (h : w.EnodevSound)
    (hsuffix : w.trace <:+ w'.trace) : w.Withheld w' ∨ w'.EnodevSound := by
  by_cases hwilling : ∀ ev, w.New w' ev → ev.EnodevSound
  · obtain ⟨evs, htrace⟩ := hsuffix
    refine .inr fun ev hev => ?_
    rw [← htrace] at hev
    rcases List.mem_append.mp hev with hnew | hold
    · exact hwilling ev ⟨evs, htrace.symm, hnew⟩
    · exact h ev hold
  · simp only [not_forall] at hwilling
    obtain ⟨ev, hnew, hunsound⟩ := hwilling
    refine .inl ⟨ev, hnew, ?_, not_not.mp (mt Event.enodevSound_of_willing hunsound)⟩
    simp only [Event.EnodevSound, not_forall] at hunsound
    obtain ⟨name, hcmd, -⟩ := hunsound
    rw [hcmd]
    rfl

/-- Even if the reset of the chains is refused, nothing but them is left. -/
theorem provisionDelall_clears (hinv : s.abs.Inv cfg host)
    (hsound : s.world.EnodevSound) : wp (provisionDelall env) (fun _ s' =>
      s.world.trace <:+ s'.world.trace ∧ (s.world.Withheld s'.world ∨
        ((∀ l ∈ s'.world.kernel.links, l.kind.owned = false) ∧
        (∀ t c, c.builtin = true → s'.world.kernel.chain t c = host.chain t c) ∧
        ∀ t : EbTable, (s'.world.kernel.chain t t.own).isSome = true))) s := by
  have hst := hinv.tables
  have hinv₀ : ({ s with cleanupPending := true } : Sys).abs.Inv cfg host :=
    Step.pend.inv hinv
  simp only [provisionDelall, wp_bind, wp_modify, wp_get]
  refine wp_mono (cleanTunnels_all cfg env host (s := { s with cleanupPending := true }) hst rfl)
    fun ok s₁ hwalk => ?_
  obtain ⟨hmoves, honly, hpend, hout⟩ := hwalk
  have hsuffix : s.world.trace <:+ s₁.world.trace := Core.trail_suffix hmoves.trail
  cases ok with
  | false =>
    simp only [Bool.false_eq_true, if_false]
    have hblames := (hout.resolve_left fun h => Bool.noConfusion h.1).2
    exact ⟨hsuffix, .inl (hblames.withheld hinv₀ honly)⟩
  | true =>
    obtain ⟨-, hall⟩ := hout.resolve_right fun h => Bool.noConfusion h.1
    simp only [if_true, wp_bind, wp_lift]
    refine wp_mono (ifaceEbtablesReset_spec cfg host env
      (flushable_of_clean hpend hall)) fun ret w hreset => ?_
    obtain ⟨htrail, hlinks, -⟩ := hreset
    have hinv₁ := (hinv₀.trail hmoves.trail).trail htrail
    have hall₁ : ∀ p t, (s₁.abs.withWorld w).store.heap p = some t →
        t.hooks = 0 ∧ (s₁.abs.withWorld w).Gone t := by
      intro p t ht
      obtain ⟨tun, hp, rfl⟩ := heap_of_abs ht
      refine ⟨(hall p tun hp).1, fun hsound => ?_⟩
      exact (Kernel.hasLink_congr hlinks _).trans
        ((hall p tun hp).2 (hsound.of_suffix (Core.trail_suffix htrail)))
    have hclears : s.world.trace <:+ w.trace ∧ (s.world.Withheld w ∨
        ((∀ l ∈ w.kernel.links, l.kind.owned = false) ∧
        (∀ t c, c.builtin = true → w.kernel.chain t c = host.chain t c) ∧
        ∀ t : EbTable, (w.kernel.chain t t.own).isSome = true)) := by
      have hsuffix' : s.world.trace <:+ w.trace := hsuffix.trans (Core.trail_suffix htrail)
      refine ⟨hsuffix', (hsound.extend_or_withheld hsuffix').imp_right fun hsound₁ =>
        ⟨?_, ?_, fun t => ?_⟩⟩
      · exact hinv₁.links_of_gone hall₁ hsound₁
      · exact hinv₁.jumps_of_gone hall₁
      · cases t with
        | nat => exact hinv₁.chains.isSomeIn
        | filter => exact hinv₁.chains.isSomeOut
    refine wp_ite (fun _ => ?_) (fun _ => ?_)
    · exact hclears
    · exact hclears

theorem provisionDelall_strips (hs : s.Returns cfg host) (hsound : s.world.EnodevSound) :
    wp (provisionDelall env) (fun _ s' => s.world.trace <:+ s'.world.trace ∧
      (s.world.Withheld s'.world ∨ s'.world.kernel.Stripped host)) s := by
  have hexec := hs.exec env .delall
  have hlinks : wp (provisionDelall env) (fun _ s' => s'.world.kernel.bystanders = host.links) s :=
    hexec.bystanders
  have helse : wp (provisionDelall env) (fun _ s' => s'.abs.Elsewhere host) s := hexec.elsewhere
  refine wp_mono (wp_and (wp_and hlinks helse) (provisionDelall_clears hs.inv hsound)) fun _ s' h => ?_
  obtain ⟨⟨hbystanders, helse⟩, hsuffix, hclears⟩ := h
  refine ⟨hsuffix, hclears.imp_right fun hc => ?_⟩
  obtain ⟨hforeign, hbuiltin, hown⟩ := hc
  refine ⟨(Kernel.bystanders_of_all hforeign).symm.trans hbystanders, fun t ch hch => ?_, hown⟩
  cases hkind : ch.builtin with
  | true => exact hbuiltin t ch hkind
  | false => exact helse t ch hkind hch

/-- Unless something is withheld, `m` takes the kernel from `w` to `k`. -/
def Reaches {α : Type} (k : Kernel) (m : WorldM α) (w : World) : Prop :=
  wp m (fun _ w' => w.trace <:+ w'.trace ∧ (w.Withheld w' ∨ w'.kernel = k)) w

/-- A command that takes something back and can work works, or everything that
    follows is in vain. -/
theorem Reaches.bind {α : Type} {k k₁ : Kernel} {cmd : Cmd} {f : Ret → WorldM α} {w : World}
    (hback : cmd.takesBack = true) (happly : w.kernel.apply cmd = some k₁)
    (hissues : Issues (fun _ => True) (f .fail))
    (hok : ∀ w₁ : World, w₁.kernel = k₁ → w₁.initialized = w.initialized → Reaches k (f .ok) w₁) :
    Reaches k (helperExec env cmd >>= f) w := by
  rw [Reaches, wp_bind]
  refine wp_mono (perform_spec env none cmd w) fun ret w₁ h => ?_
  obtain ⟨ev, rfl, rfl, ⟨rfl, -, hdone⟩ | ⟨rfl, -, hrefused, -⟩⟩ := h
  · have hk : ev.kernel = k₁ := Option.some.inj (hdone.apply.symm.trans happly)
    refine wp_mono (hok _ hk rfl) fun _ w' h => ?_
    obtain ⟨hsuffix, hout⟩ := h
    have hsuffix' : w.trace <:+ w'.trace := (List.suffix_cons _ _).trans hsuffix
    exact ⟨hsuffix', hout.imp_left fun h => h.of_suffix (List.suffix_cons _ _)⟩
  · refine wp_mono (hissues.suffix _) fun _ w' hsuffix => ?_
    refine ⟨(List.suffix_cons _ _).trans hsuffix, .inl ⟨ev, ?_, hback, hrefused.unwilling happly⟩⟩
    exact (World.New.record w ev).extend hsuffix

/-- The kernel without the daemon's chains. -/
def Kernel.disowned (k : Kernel) : Kernel where
  links := k.links
  chain t c := if c = t.own then none else k.chain t c

theorem Kernel.Stripped.disowned {k : Kernel} (h : k.Stripped host)
    (hhost : ∀ t : EbTable, host.chain t t.own = none) : k.disowned = host := by
  obtain ⟨links, chain⟩ := host
  obtain ⟨hlinks, hchains, -⟩ := h
  simp only [Kernel.disowned, Kernel.mk.injEq]
  refine ⟨hlinks, funext fun t => funext fun c => ?_⟩
  split
  · next hc => rw [hc]; exact (hhost t).symm
  · next hc => exact hchains t c hc

/-- No rule outside the daemon's chain of the table leads there. -/
def Kernel.UnreferredIn (k : Kernel) (t : EbTable) : Prop :=
  ∀ c rules, c ≠ t.own → k.chain t c = some rules → ∀ r ∈ rules, r.target ≠ .chain t.own

def Kernel.Unreferred (k : Kernel) : Prop := ∀ t, k.UnreferredIn t

theorem Kernel.referenced_eq_false {k : Kernel} {t : EbTable} (h : k.UnreferredIn t)
    {k' : Kernel} (hsame : ∀ c, c ≠ t.own → k'.chain t c = k.chain t c)
    (hown : k'.chain t t.own = some []) : k'.referenced t t.own = false := by
  refine List.any_eq_false.mpr fun c _ hany => ?_
  obtain ⟨r, hr, htarget⟩ := List.any_eq_true.mp hany
  by_cases hc : c = t.own
  · rw [hc, hown] at hr
    cases hr
  · rw [hsame c hc] at hr
    cases hchain : k.chain t c with
    | none => rw [hchain] at hr; cases hr
    | some rules =>
      rw [hchain] at hr
      exact h c rules hc hchain r hr (eq_of_beq htarget)

theorem ifaceEbtablesEnd_reaches {w : World} (hinit : w.initialized = true)
    (hown : ∀ t : EbTable, (w.kernel.chain t t.own).isSome = true) (hrules : w.kernel.Unreferred) :
    Reaches w.kernel.disowned (ifaceEbtablesEnd env) w := by
  have hany : ∀ cmd, Issues (fun _ => True) (helperExec env cmd) := fun _ => Issues.perform trivial
  rw [Reaches, ifaceEbtablesEnd, wp_bind, wp_get]
  simp only [hinit, Bool.not_true, Bool.false_eq_true, if_false]
  have hin := Kernel.apply_flush_iff.mpr ⟨hown .nat, rfl⟩
  refine Reaches.bind rfl hin
    ((hany _).bind fun b => (hany _).bind fun c => (hany _).bind fun d => settleEnd_issues _ b c d)
    fun w₁ hk₁ _ => ?_
  have hout : w₁.kernel.apply (.flush .filter .softgreOut) = some _ :=
    Kernel.apply_flush_iff.mpr ⟨by rw [hk₁]; exact hown .filter, rfl⟩
  refine Reaches.bind rfl hout ((hany _).bind fun c => (hany _).bind fun d => settleEnd_issues _ _ c d)
    fun w₂ hk₂ _ => ?_
  rw [hk₁] at hk₂
  have hdelIn : w₂.kernel.apply (.deleteChain .nat .softgreIn) =
      some (w₂.kernel.setChain .nat .softgreIn none) := by
    refine Kernel.apply_deleteChain_iff.mpr ⟨by rw [hk₂]; rfl, ?_, rfl⟩
    refine Kernel.referenced_eq_false (hrules .nat) (fun c hc => ?_) (by rw [hk₂]; rfl)
    rw [hk₂]
    exact if_neg fun h => hc h.2
  refine Reaches.bind rfl hdelIn ((hany _).bind fun d => settleEnd_issues _ _ _ d) fun w₃ hk₃ _ => ?_
  rw [hk₂] at hk₃
  have hdelOut : w₃.kernel.apply (.deleteChain .filter .softgreOut) =
      some (w₃.kernel.setChain .filter .softgreOut none) := by
    refine Kernel.apply_deleteChain_iff.mpr ⟨by rw [hk₃]; rfl, ?_, rfl⟩
    refine Kernel.referenced_eq_false (hrules .filter) (fun c hc => ?_) (by rw [hk₃]; rfl)
    rw [hk₃]
    exact if_neg fun h => hc h.2
  refine Reaches.bind rfl hdelOut (settleEnd_issues _ _ _ _) fun w₄ hk₄ _ => ?_
  refine ⟨List.suffix_refl _, .inr ?_⟩
  show w₄.kernel = _
  rw [hk₄, hk₃, Kernel.disowned]
  simp only [Kernel.setChain, Kernel.mk.injEq, true_and]
  funext t c
  cases t with
  | nat => cases c <;> rfl
  | filter => cases c <;> rfl

/-! ## The whole run -/

/-- Nothing of the host's leads to the daemon's chains. -/
theorem Kernel.Pristine.unreferred (h : host.Pristine)
    (hhost : ∀ t : EbTable, host.chain t t.own = none) : host.Unreferred := by
  intro t c rules _ hrules r hr htarget
  have hexists := h.targets t c rules hrules r hr
  simp only [Kernel.targetExists, htarget, hhost t] at hexists
  cases hexists

theorem Kernel.Stripped.unreferred {k : Kernel} (h : k.Stripped host) (hhost : host.Unreferred) :
    k.Unreferred := fun t c rules hc hrules => hhost t c rules hc ((h.chains t c hc).symm.trans hrules)

end Softgre
