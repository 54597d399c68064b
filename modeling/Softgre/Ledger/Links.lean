-- SUMMARY: Every gretap link is tracked, and every VLAN link sits on a fully hooked tracked tunnel.
import Softgre.Iface.Names
import Softgre.Ledger.Tables

/-!
# Links are accounted for

`LinksInv` says which links the daemon can have left in the kernel. It needs
deletions that are truthful about missing links: otherwise a tunnel can leave the
tables while its link stays.
-/

namespace Softgre

open Base

variable {cfg : SoftgredConfig} {st st' : Store} {k k' : Kernel}

def LinkKind.isGretap : LinkKind → Bool
  | .gretap .. => true
  | _ => false

/-- A tracked tunnel has the name, and its hook word satisfies `P`. -/
def Store.Has (st : Store) (name : CStr) (P : BitVec 32 → Prop) : Prop :=
  ∃ p t, st.heap p = some t ∧ t.ifgre = name ∧ P t.hooks

/-- What the links of the daemon tell about the tables. The name of a tunnel on record
    is that of no other link. -/
structure LinksInv (cfg : SoftgredConfig) (st : Store) (k : Kernel) : Prop where
  gretap : ∀ {l}, l ∈ k.links → l.kind.isGretap = true → st.Has l.name fun _ => True
  parent : ∀ {l name vid}, l ∈ k.links → l.kind = .vlan name vid → k.hasLink name = true
  named : ∀ {l name vid}, l ∈ k.links → l.kind = .vlan name vid →
    ∃ b ∈ cfg.bridge, l.name = vlanName name b.vlanId
  hooked : ∀ {l name vid}, l ∈ k.links → l.kind = .vlan name vid → st.Has name (· = allHooks)
  own : ∀ {l p t}, l ∈ k.links → st.heap p = some t → l.name = t.ifgre → l.kind.isGretap = true

/-! ## Names that stay tracked -/

theorem Store.Has.write {p : Ptr} {t u : Tunnel} {name : CStr} {P : BitVec 32 → Prop}
    (hp : st.heap p = some t) (hifgre : u.ifgre = t.ifgre) (hhooks : P t.hooks → P u.hooks)
    (h : st.Has name P) : (st.write p u).Has name P := by
  obtain ⟨q, v, hv, hname, hP⟩ := h
  by_cases hq : q = p
  · subst hq
    cases hp.symm.trans hv
    exact ⟨q, u, by rw [heap_write, if_pos rfl], hifgre.trans hname, hhooks hP⟩
  · exact ⟨q, v, by rw [heap_write, if_neg hq, hv], hname, hP⟩

theorem Store.Has.learn {p : Ptr} {t : Tunnel} {name m : CStr} {P : BitVec 32 → Prop}
    (hp : st.heap p = some t) (h : st.Has name P) : (st.learn p t m).Has name P :=
  h.write (u := { t with macs := insert m t.macs }) hp rfl id

theorem Store.Has.unlearn {p : Ptr} {t : Tunnel} {name m : CStr} {P : BitVec 32 → Prop}
    (hp : st.heap p = some t) (h : st.Has name P) : (st.unlearn p t m).Has name P :=
  h.write (u := { t with macs := t.macs.erase m }) hp rfl id

theorem Store.Has.track {t : Tunnel} {name : CStr} {P : BitVec 32 → Prop}
    (hnext : st.heap st.next = none) (h : st.Has name P) : (st.track t).Has name P := by
  obtain ⟨q, v, hv, hname, hP⟩ := h
  exact ⟨q, v, (heap_track_iff hnext).mpr (.inr hv), hname, hP⟩

theorem Store.Has.untrack {p : Ptr} {t : Tunnel} {name : CStr} {P : BitVec 32 → Prop}
    (hp : st.heap p = some t) (hne : name ≠ t.ifgre) (h : st.Has name P) :
    (st.untrack p t).Has name P := by
  obtain ⟨q, v, hv, hname, hP⟩ := h
  refine ⟨q, v, heap_untrack_iff.mpr ⟨?_, hv⟩, hname, hP⟩
  rintro rfl
  cases hp.symm.trans hv
  exact hne hname.symm

theorem Store.Has.imp {name : CStr} {P Q : BitVec 32 → Prop} (hPQ : ∀ x, P x → Q x)
    (h : st.Has name P) : st.Has name Q := by
  obtain ⟨q, v, hv, hname, hP⟩ := h
  exact ⟨q, v, hv, hname, hPQ _ hP⟩

/-- A rewritten record keeps its name. -/
theorem Store.named_write {p q : Ptr} {t u v : Tunnel} (hp : st.heap p = some t)
    (hifgre : u.ifgre = t.ifgre) (hv : (st.write p u).heap q = some v) :
    ∃ r w, st.heap r = some w ∧ w.ifgre = v.ifgre := by
  rcases heap_write_cases hv with ⟨rfl, rfl⟩ | ⟨-, hv⟩
  · exact ⟨_, t, hp, hifgre.symm⟩
  · exact ⟨q, v, hv, rfl⟩

/-! ## Preservation -/

namespace LinksInv

/-- A change of the tables that keeps the names of the links. -/
theorem store (h : LinksInv cfg st k)
    (hown : ∀ {p t}, st'.heap p = some t → ∃ q u, st.heap q = some u ∧ u.ifgre = t.ifgre)
    (hgretap : ∀ {l}, l ∈ k.links → l.kind.isGretap = true → st.Has l.name (fun _ => True) →
      st'.Has l.name fun _ => True)
    (hvlan : ∀ {l name vid}, l ∈ k.links → l.kind = .vlan name vid → st.Has name (· = allHooks) →
      st'.Has name (· = allHooks)) : LinksInv cfg st' k where
  gretap hl hkind := hgretap hl hkind (h.gretap hl hkind)
  parent := h.parent
  named := h.named
  hooked hl hkind := hvlan hl hkind (h.hooked hl hkind)
  own hl ht hname := by
    obtain ⟨q, u, hu, hifgre⟩ := hown ht
    exact h.own hl hu (hname.trans hifgre.symm)

theorem congr (h : LinksInv cfg st k) (hlinks : k'.links = k.links) : LinksInv cfg st k' where
  gretap hl := h.gretap (hlinks ▸ hl)
  parent hl hkind := by
    rw [Kernel.hasLink_congr hlinks]
    exact h.parent (hlinks ▸ hl) hkind
  named hl := h.named (hlinks ▸ hl)
  hooked hl := h.hooked (hlinks ▸ hl)
  own hl := h.own (hlinks ▸ hl)

/-- No VLAN link sits on a missing link. -/
theorem ne_of_gone (h : LinksInv cfg st k) {l : Link} {name gone : CStr} {vid : UInt16}
    (hl : l ∈ k.links) (hkind : l.kind = .vlan name vid) (hgone : k.hasLink gone = false) :
    name ≠ gone := by
  rintro rfl
  have := h.parent hl hkind
  rw [hgone] at this
  cases this

theorem hasLink_addLink {l : Link} {name : CStr} (h : k.hasLink name = true) :
    (k.addLink l).hasLink name = true := by
  simp only [Kernel.hasLink, Kernel.addLink, List.any_cons, Bool.or_eq_true]
  exact .inr h

/-- A new tunnel and its link. -/
theorem addGretap (h : LinksInv cfg st k) {t : Tunnel} {dev : CStr} {loc rem : InAddr}
    (hnext : st.heap st.next = none) (hfree : k.hasLink t.ifgre = false) :
    LinksInv cfg (st.track t) (k.addLink ⟨t.ifgre, .gretap dev loc rem, none⟩) where
  gretap hl hkind := by
    rcases List.mem_cons.mp hl with rfl | hl
    · exact ⟨_, _, (Store.heap_track_iff hnext).mpr (.inl ⟨rfl, rfl⟩), rfl, trivial⟩
    · exact (h.gretap hl hkind).track hnext
  parent hl hkind := by
    rcases List.mem_cons.mp hl with rfl | hl
    · cases hkind
    · exact hasLink_addLink (h.parent hl hkind)
  named hl hkind := by
    rcases List.mem_cons.mp hl with rfl | hl
    · cases hkind
    · exact h.named hl hkind
  hooked hl hkind := by
    rcases List.mem_cons.mp hl with rfl | hl
    · cases hkind
    · exact (h.hooked hl hkind).track hnext
  own hl ht hname := by
    rcases List.mem_cons.mp hl with rfl | hold
    · rfl
    · rcases (Store.heap_track_iff hnext).mp ht with ⟨-, rfl⟩ | ht
      · exact absurd hname (Kernel.hasLink_eq_false_iff.mp hfree _ hold)
      · exact h.own hold ht hname

theorem addVlan (h : LinksInv cfg st k) (hst : st.Inv cfg) {name : CStr} {b : TunnelBridge}
    (hb : b ∈ cfg.bridge) (hparent : k.hasLink name = true) (hhooked : st.Has name (· = allHooks)) :
    LinksInv cfg st (k.addLink ⟨vlanName name b.vlanId, .vlan name b.vlanId, none⟩) where
  gretap hl hkind := by
    rcases List.mem_cons.mp hl with rfl | hl
    · cases hkind
    · exact h.gretap hl hkind
  parent hl hkind := by
    rcases List.mem_cons.mp hl with rfl | hl
    · cases hkind
      exact hasLink_addLink hparent
    · exact hasLink_addLink (h.parent hl hkind)
  named hl hkind := by
    rcases List.mem_cons.mp hl with rfl | hl
    · cases hkind
      exact ⟨b, hb, rfl⟩
    · exact h.named hl hkind
  hooked hl hkind := by
    rcases List.mem_cons.mp hl with rfl | hl
    · cases hkind
      exact hhooked
    · exact h.hooked hl hkind
  own hl ht hname := by
    rcases List.mem_cons.mp hl with rfl | hl
    · -- no VLAN link has a tunnel's name
      obtain ⟨q, u, hu, huname, -⟩ := hhooked
      have hvlan : vlanName name b.vlanId = _ := hname
      rw [← huname, hst.ifgre_eq hu, hst.ifgre_eq ht] at hvlan
      exact absurd hvlan
        (vlanName_ne_tunnelName cfg (hst.id_lt hu) (hst.id_lt ht) (cfg.bridge_valid b hb).2.2)
    · exact h.own hl ht hname

theorem enslave (h : LinksInv cfg st k) (name bridge : CStr) :
    LinksInv cfg st (k.enslave name bridge) := by
  -- every link keeps its name and kind
  have hfrom : ∀ {l}, l ∈ (k.enslave name bridge).links →
      ∃ l' ∈ k.links, l'.name = l.name ∧ l'.kind = l.kind := by
    intro l hl
    obtain ⟨l', hl', rfl⟩ := List.mem_map.mp hl
    exact ⟨l', hl', by split <;> rfl, by split <;> rfl⟩
  have hhas : ∀ {n}, k.hasLink n = true → (k.enslave name bridge).hasLink n = true := by
    intro n hn
    obtain ⟨l, hl, hname⟩ := Kernel.hasLink_iff.mp hn
    refine Kernel.hasLink_iff.mpr ⟨_, List.mem_map_of_mem hl, ?_⟩
    split <;> exact hname
  refine ⟨fun hl hkind => ?_, fun hl hkind => ?_, fun hl hkind => ?_, fun hl hkind => ?_,
    fun hl ht hown => ?_⟩ <;> obtain ⟨l', hl', hname, hkind'⟩ := hfrom hl
  · rw [← hname]
    exact h.gretap hl' (hkind' ▸ hkind)
  · exact hhas (h.parent hl' (hkind'.trans hkind))
  · rw [← hname]
    exact h.named hl' (hkind'.trans hkind)
  · exact h.hooked hl' (hkind'.trans hkind)
  · rw [← hkind']
    exact h.own hl' ht (hname.trans hown)

/-- Deleting a tunnel's link takes its VLAN links along, so none of those that
    stay loses its parent. -/
theorem dropLink (h : LinksInv cfg st k) (name : CStr) : LinksInv cfg st (k.dropLink name) where
  gretap hl := h.gretap (Kernel.mem_dropLink.mp hl).1
  parent {l parent vid} hl hkind := by
    obtain ⟨hl, -, hne⟩ := Kernel.mem_dropLink.mp hl
    obtain ⟨g, hg, hgname⟩ := Kernel.hasLink_iff.mp (h.parent hl hkind)
    refine Kernel.hasLink_iff.mpr ⟨g, Kernel.mem_dropLink.mpr ⟨hg, ?_, ?_⟩, hgname⟩
    · rw [hkind] at hne
      rw [hgname]
      exact fun heq => hne (List.mem_singleton.mpr heq.symm)
    · -- the parent is a tunnel, which sits on nothing
      obtain ⟨q, u, hu, huname, -⟩ := h.hooked hl hkind
      have hgretap := h.own hg hu (hgname.trans huname.symm)
      cases hgkind : g.kind with
      | gretap => exact List.not_mem_nil
      | vlan | foreign => rw [hgkind] at hgretap; cases hgretap
  named hl := h.named (Kernel.mem_dropLink.mp hl).1
  hooked hl := h.hooked (Kernel.mem_dropLink.mp hl).1
  own hl := h.own (Kernel.mem_dropLink.mp hl).1

end LinksInv

theorem edits_of_mem_resetCmds {cmd : Cmd} (h : cmd ∈ resetCmds) :
    cmd.edits = some (.nat, .softgreIn) ∨ cmd.edits = some (.filter, .softgreOut) := by
  simp only [resetCmds, List.mem_cons, List.not_mem_nil, or_false] at h
  rcases h with rfl | rfl | rfl | rfl | rfl
  · exact .inl rfl
  · exact .inr rfl
  · exact .inr rfl
  · exact .inl rfl
  · exact .inr rfl

theorem Step.links {l : Label} {c c' : Core} (h : Step cfg l c c') (hsound : c.world.EnodevSound)
    (hst : c.store.Inv cfg) (hinv : LinksInv cfg c.store c.kernel) :
    LinksInv cfg c'.store c'.kernel := by
  have hnext := hst.fresh (Nat.le_refl _)
  have hsame : ∀ {p t}, c.store.heap p = some t → ∃ q u, c.store.heap q = some u ∧ u.ifgre = t.ifgre :=
    fun ht => ⟨_, _, ht, rfl⟩
  cases h with
  | errno | full | wait | pend => exact hinv
  | refused hev =>
    rw [Core.kernel_record, hev.kernel]
    exact hinv
  | skip => exact hinv.store hsame (fun _ _ h => h) (fun _ _ h => h)
  | @track c ev remote id _ hnone hid hslot hev =>
    obtain ⟨hfree, hk⟩ := Kernel.apply_newGretap_iff.mp hev.apply
    show LinksInv cfg _ ev.kernel
    rw [hk]
    exact hinv.addGretap (t := .fresh cfg remote id) hnext hfree
  | @hook c ev p t i h _ hp hi hbit hev =>
    refine (hinv.congr (hev.links rfl)).store (Store.named_write hp rfl)
      (fun _ _ h => h.write hp rfl id) fun _ _ h => h.write hp rfl fun hall => ?_
    -- all bits are set already, so this hook would not be installed again
    have := lt_of_hooks hi
    rw [hall] at hbit
    interval_cases i <;> cases hbit
  | vlan _ hp hhooks hb hev =>
    obtain ⟨-, hparent, hk⟩ := Kernel.apply_newVlan_iff.mp hev.apply
    rw [Core.kernel_record, hk]
    exact hinv.addVlan hst hb hparent ⟨_, _, hp, rfl, hhooks⟩
  | master _ hp hb hev =>
    obtain ⟨-, -, hk⟩ := Kernel.apply_setMaster_iff.mp hev.apply
    rw [Core.kernel_record, hk]
    exact hinv.enslave _ _
  | ready _ hp =>
    exact hinv.store (Store.named_write hp rfl) (fun _ _ h => h.write hp rfl id)
      (fun _ _ h => h.write hp rfl id)
  | @learn c _ _ p t mac hp _ _ _ hin hout =>
    refine (hinv.congr ((hout.links rfl).trans (hin.links rfl))).store ?_ ?_ ?_
    · exact Store.named_write (u := { t with macs := insert mac t.macs }) hp rfl
    · exact fun _ _ h => h.learn hp
    · exact fun _ _ h => h.learn hp
  | undone hp hin hout hundo => exact hinv.congr ((hundo.links rfl).trans (hin.links rfl))
  | leak hp hin hout hundo =>
    exact hinv.congr ((congrArg Kernel.links hundo.kernel).trans (hin.links rfl))
  | unlink hp hev =>
    obtain ⟨-, hk⟩ := Kernel.apply_delLink_iff.mp hev.apply
    rw [Core.kernel_record, hk]
    exact hinv.dropLink _
  | unhook hp hi hbit hgone hev =>
    refine (hinv.congr (hev.links rfl)).store (Store.named_write hp rfl)
      (fun _ _ h => h.write hp rfl id) fun hl hkind h => ?_
    -- no VLAN link is left on this tunnel
    have hne := hinv.ne_of_gone (hev.links rfl ▸ hl) hkind (hgone hsound)
    obtain ⟨q, v, hv, hname, hhooks⟩ := h
    refine ⟨q, v, ?_, hname, hhooks⟩
    rw [Core.store_withStore, Store.heap_write, if_neg, hv]
    rintro rfl
    cases hp.symm.trans hv
    exact hne hname.symm
  | revoke hp hm hcmd hev =>
    refine hinv.congr (hev.links ?_)
    rcases hcmd with rfl | rfl <;> rfl
  | @unlearn c p t mac hp hm =>
    exact hinv.store (Store.named_write (u := { t with macs := t.macs.erase mac }) hp rfl)
      (fun _ _ h => h.unlearn hp) (fun _ _ h => h.unlearn hp)
  | untrack hp hmacs hhooks hgone =>
    refine hinv.store (fun ht => hsame (Store.heap_untrack_iff.mp ht).2)
      (fun hl _ h => h.untrack hp ?_) fun hl hkind h => h.untrack hp ?_
    · exact Kernel.hasLink_eq_false_iff.mp (hgone hsound) _ hl
    · exact hinv.ne_of_gone hl hkind (hgone hsound)
  | unready _ hp =>
    exact hinv.store (Store.named_write hp rfl) (fun _ _ h => h.write hp rfl id)
      (fun _ _ h => h.write hp rfl id)
  | reset hpend hgone hcmd hev =>
    refine hinv.congr (hev.links ?_)
    rcases edits_of_mem_resetCmds hcmd with hedits | hedits <;> rw [hedits] <;> rfl
  | clear hpend hgone hin hout =>
    -- nothing the daemon created is left
    refine hinv.store (fun ht => by cases ht) (fun hl hkind h => ?_) fun hl hkind h => ?_
    · obtain ⟨p, t, ht, hname, -⟩ := h
      exact absurd hname.symm (Kernel.hasLink_eq_false_iff.mp ((hgone p t ht).1 hsound) _ hl)
    · obtain ⟨p, t, ht, hname, -⟩ := h
      exact absurd hname.symm (hinv.ne_of_gone hl hkind ((hgone p t ht).1 hsound))

end Softgre
