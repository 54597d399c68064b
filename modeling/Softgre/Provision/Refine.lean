-- SUMMARY: The abstraction from the program's tables to the ledger, and the steps of small functions.
import Softgre.Ledger.Commands

/-!
# From the program to the ledger

`Sys.abs` forgets how the maps are stored. Each function of `provision.c` is
shown to be a trail of ledger steps; the specification of a function says which
labels the trail may carry, what the function returns, and whom a failure can be
blamed on.
-/

namespace Softgre

open Base

variable {cfg : SoftgredConfig} {env : Env} {host : Kernel} {s s' : Sys} {p : Ptr}

def TunnelContext.abs (tun : TunnelContext) : Tunnel :=
  ⟨tun.ipRemote, tun.ifgre, tun.id, tun.ready, tun.firewallHooks, tun.macs.keySet⟩

def Sys.abs (s : Sys) : Core where
  store :=
    { tunnels := fun r => s.tunnels.lookup r.sAddr
      owner := fun m => s.macIndex.lookup m
      heap := fun p => (s.heap p).map TunnelContext.abs
      slots := s.slots
      next := s.brk }
  pending := s.cleanupPending
  world := s.world

def Sys.withWorld (s : Sys) (w : World) : Sys := { s with world := w }

@[simp] theorem world_withWorld (s : Sys) (w : World) : (s.withWorld w).world = w := rfl

/-- The counters and the backoff, which only `provision_packet` and a complete
    cleanup touch. -/
def Sys.counters (s : Sys) : UInt64 × UInt64 × UInt64 × Int :=
  (s.packets, s.ignored, s.failures, s.retryAfter)

/-- Steps whose labels satisfy `P`, with the counters left alone. -/
structure Sys.Moves (cfg : SoftgredConfig) (P : Label → Prop) (s s' : Sys) : Prop where
  trail : Trail (Step cfg) P s.abs s'.abs
  counters : s'.counters = s.counters

namespace Sys.Moves

variable {P Q : Label → Prop} {s'' : Sys}

theorem refl : Moves cfg P s s := ⟨Trail.refl, rfl⟩

theorem trans (h : Moves cfg P s s') (h' : Moves cfg P s' s'') : Moves cfg P s s'' :=
  ⟨h.trail.trans h'.trail, h'.counters.trans h.counters⟩

theorem mono (hPQ : ∀ l, P l → Q l) (h : Moves cfg P s s') : Moves cfg Q s s' :=
  ⟨h.trail.mono hPQ, h.counters⟩

theorem step {l : Label} (hl : P l) (hs : Step cfg l s.abs s'.abs)
    (hcounters : s'.counters = s.counters) : Moves cfg P s s' :=
  ⟨Trail.single hl hs, hcounters⟩

theorem tables (h : Moves cfg P s s') (hst : s.abs.store.Inv cfg) : s'.abs.store.Inv cfg :=
  h.trail.invariant (I := fun c => c.store.Inv cfg) (fun _ _ _ _ hs => hs.tables) hst

end Sys.Moves

/-! ## The abstraction commutes with updates -/

theorem heap_abs (s : Sys) (p : Ptr) : s.abs.store.heap p = (s.heap p).map TunnelContext.abs := rfl

theorem heap_abs_of_some {tun : TunnelContext} (hp : s.heap p = some tun) :
    s.abs.store.heap p = some tun.abs := by
  rw [heap_abs, hp]
  rfl

theorem heap_of_abs {t : Tunnel} (h : s.abs.store.heap p = some t) :
    ∃ tun, s.heap p = some tun ∧ tun.abs = t :=
  Option.map_eq_some_iff.mp h

/-- What a remote is mapped to is a record of that remote. -/
theorem Store.Inv.record {remote : InAddr} (hst : s.abs.store.Inv cfg)
    (hlookup : provisionGetTunnelByip s remote = some p) :
    ∃ tun, s.heap p = some tun ∧ tun.ipRemote = remote := by
  obtain ⟨t, ht, hremote⟩ := hst.tracked (r := remote) (p := p) hlookup
  obtain ⟨tun, hp, rfl⟩ := heap_of_abs ht
  exact ⟨tun, hp, hremote⟩

theorem Store.Inv.ipRemote_eq {remote : InAddr} {tun : TunnelContext} (hst : s.abs.store.Inv cfg)
    (hlookup : provisionGetTunnelByip s remote = some p) (hp : s.heap p = some tun) :
    tun.ipRemote = remote := by
  obtain ⟨_, hp', hremote⟩ := hst.record hlookup
  cases hp.symm.trans hp'
  exact hremote

theorem deref_of_some {tun : TunnelContext} (hp : s.heap p = some tun) : s.deref p = tun := by
  rw [Sys.deref, hp]
  rfl

theorem heap_of_isSome (h : (s.heap p).isSome = true) : s.heap p = some (s.deref p) := by
  obtain ⟨tun, hp⟩ := Option.isSome_iff_exists.mp h
  rw [deref_of_some hp, hp]

theorem heap_write_self (s : Sys) (p : Ptr) (tun : TunnelContext) :
    (s.write p tun).heap p = some tun := if_pos rfl

theorem abs_write (s : Sys) (p : Ptr) (tun : TunnelContext) :
    (s.write p tun).abs = s.abs.withStore (s.abs.store.write p tun.abs) := by
  simp only [Sys.abs, Sys.write, Core.withStore, Store.write, Core.mk.injEq, Store.mk.injEq, and_true,
    true_and]
  funext q
  by_cases hq : q = p
  · simp [hq]
  · simp [hq]

theorem InAddr.sAddr_inj {a b : InAddr} : a.sAddr = b.sAddr ↔ a = b := by
  cases a
  cases b
  simp

/-- The state after a slot was released and a tunnel taken out of `tunnels`. -/
def Sys.untrack (s : Sys) (remote : InAddr) (id : Nat) : Sys :=
  { s with
    slots := fun i => if i = id then false else s.slots i
    tunnels := (s.tunnels.remove remote.sAddr).1
    heap := fun q => if q ∈ ((s.tunnels.remove remote.sAddr).2.map Prod.snd).toList then none
      else s.heap q }

theorem heap_untrack {remote : InAddr} {id : Nat}
    (hlookup : s.tunnels.lookup remote.sAddr = some p) (q : Ptr) :
    (s.untrack remote id).heap q = if q = p then none else s.heap q := by
  rw [Sys.untrack, Hashmap.remove_snd, hlookup]
  simp

theorem wp_untrack {remote : InAddr} {id : Nat} {Q : Ret → Sys → Prop}
    (h : Q .ok (s.untrack remote id)) :
    wp (do setSlot id false; tunnelsRemove remote.sAddr; return .ok) Q s := h

theorem lookup_untrack (s : Sys) (remote : InAddr) (id : Nat) :
    provisionGetTunnelByip (s.untrack remote id) remote = none := by
  rw [provisionGetTunnelByip, Sys.untrack, Hashmap.lookup_remove_eq, if_pos rfl]

/-- Both map entries of a tracked tunnel and its slot go at once. -/
theorem abs_untrack {remote : InAddr} {tun : TunnelContext} (hst : s.abs.store.Inv cfg)
    (hlookup : s.tunnels.lookup remote.sAddr = some p) (hp : s.heap p = some tun) :
    (s.untrack remote tun.id).abs = s.abs.withStore (s.abs.store.untrack p tun.abs) := by
  have hremote : tun.abs.remote = remote := hst.ipRemote_eq hlookup hp
  simp only [Sys.abs, Core.withStore, Store.untrack, Core.mk.injEq, Store.mk.injEq]
  refine ⟨⟨?_, rfl, ?_, ?_, rfl⟩, rfl, rfl⟩
  · funext r
    rw [Sys.untrack, Hashmap.lookup_remove_eq, Function.update_apply, hremote]
    simp only [InAddr.sAddr_inj]
  · funext q
    rw [heap_untrack hlookup, Function.update_apply]
    by_cases hq : q = p
    · simp [hq]
    · simp [hq]
  · funext i
    rw [Function.update_apply]
    rfl

/-- Only the world, `mac_index` and the record behind `p` differ. -/
structure Sys.Frame (p : Ptr) (s s' : Sys) : Prop where
  tunnels : s'.tunnels = s.tunnels
  slots : s'.slots = s.slots
  pending : s'.cleanupPending = s.cleanupPending
  others : ∀ {q}, q ≠ p → s'.heap q = s.heap q

theorem Sys.Frame.refl (p : Ptr) (s : Sys) : s.Frame p s := ⟨rfl, rfl, rfl, fun _ => rfl⟩

theorem Sys.Frame.trans {s'' : Sys} (h : s.Frame p s') (h' : s'.Frame p s'') : s.Frame p s'' :=
  ⟨h'.tunnels.trans h.tunnels, h'.slots.trans h.slots, h'.pending.trans h.pending,
    fun hq => (h'.others hq).trans (h.others hq)⟩

theorem wp_lift {α : Type} {m : WorldM α} {Q : α → Sys → Prop} :
    wp (lift m) Q s = wp m (fun a w => Q a (s.withWorld w)) s.world := wp_zoom

theorem wp_modifyTunnel {tun : TunnelContext} {f : TunnelContext → TunnelContext}
    {Q : Unit → Sys → Prop} (hp : s.heap p = some tun) (h : Q () (s.write p (f tun))) :
    wp (modifyTunnel p f) Q s := by
  rw [modifyTunnel, wp_modify, deref_of_some hp]
  exact h

/-! ## Removing a tunnel -/

theorem Kernel.hasLink_dropLink (k : Kernel) (name : CStr) : (k.dropLink name).hasLink name = false :=
  Kernel.hasLink_eq_false_iff.mpr fun _ hl => (Kernel.mem_dropLink.mp hl).2.1

variable (cfg host env)

/-- Deleting the link of a tracked tunnel. If that did not fail, the link is gone, unless
    the deletion ended with `ENODEV` although it could have worked; if it did, the link
    was there and the deletion refused. -/
theorem greDelFailed_spec {tun : TunnelContext} (hp : s.heap p = some tun) :
    wp (greDelFailed env p) (fun failed s' => ∃ ev, s' = s.withWorld (s.world.record ev) ∧
      s.Moves cfg Quiet s' ∧ ev.cmd = .delLink tun.ifgre ∧
      s.world.Unlinks env tun.ifgre s'.world ∧
      ((failed = false ∧
        (ev.EnodevSound ∨ ¬ ev.Unwilling → ev.kernel.hasLink tun.ifgre = false)) ∨
      (failed = true ∧ ev.Refused s.world.kernel ∧
        s.world.kernel.hasLink tun.ifgre = true))) s := by
  have hstep : ∀ {ev l}, Step cfg l s.abs (s.abs.record ev) → Quiet l →
      s.Moves cfg Quiet (s.withWorld (s.world.record ev)) :=
    fun h hl => ⟨Trail.single hl h, rfl⟩
  simp only [greDelFailed, wp_bind, wp_get, wp_pure, wp_lift, deref_of_some hp]
  refine wp_mono (ifaceGreDel_spec env tun.ifgre s.world) fun ret w h => ?_
  obtain ⟨ev, hw, hcmd, hlinks, h⟩ := h
  refine ⟨ev, ?_⟩
  subst hw
  rcases h with ⟨rfl, hdone⟩ | ⟨rfl, hrefused, hnodev, helse⟩
  · obtain ⟨-, hk⟩ := Kernel.apply_delLink_iff.mp hdone.apply
    refine ⟨rfl, hstep (Step.unlink (heap_abs_of_some hp) hdone) rfl, hcmd, hlinks,
      .inl ⟨rfl, fun _ => ?_⟩⟩
    rw [hk]
    exact Kernel.hasLink_dropLink _ _
  · refine ⟨rfl, hstep (Step.refused hrefused) rfl, hcmd, hlinks, ?_⟩
    by_cases herr : (s.world.record ev).errno = ENODEV
    · refine .inl ⟨by simp [herr], fun hwhy => ?_⟩
      rcases hwhy with hsound | hwilling
      · exact hsound _ hcmd hrefused.ok (hnodev herr)
      · by_contra hlink
        rw [hrefused.kernel] at hlink
        have happly := Kernel.apply_delLink_iff.mpr ⟨Bool.of_not_eq_false hlink, rfl⟩
        exact hwilling (hrefused.unwilling (hcmd.symm ▸ happly))
    · exact .inr ⟨by simpa using herr, hrefused, helse herr⟩

/-- Deletes a rule. -/
def Cmd.deletes : Cmd → Bool
  | .delete .. => true
  | _ => false

theorem delHooks_deletes (name : CStr) (hs : List Hook) : ∀ i installed,
    Issues (·.deletes = true) (delHooks env name hs i installed) := by
  induction hs with
  | nil => exact fun _ _ => Issues.pure _
  | cons h rest ih =>
    intro i installed
    rw [delHooks]
    split
    · refine Issues.bind (Issues.perform rfl) fun ret => ?_
      cases ret with
      | ok => exact ih _ _
      | fail => exact ih _ _
    · exact ih _ _

theorem ifaceEbtablesDelTunnel_deletes (name : CStr) (installed : BitVec 32) :
    Issues (·.deletes = true) (ifaceEbtablesDelTunnel env name installed) :=
  (delHooks_deletes env name hooks 0 installed).bind fun _ => Issues.pure _

theorem delTunnelHooks_spec {tun : TunnelContext} (hst : s.abs.store.Inv cfg)
    (hp : s.heap p = some tun)
    (hgone : s.world.EnodevSound → s.world.kernel.hasLink tun.ifgre = false) :
    wp (delTunnelHooks env p) (fun ret s' => ∃ x w,
      s' = (s.withWorld w).write p { tun with firewallHooks := x } ∧
      s.Moves cfg Quiet s' ∧ w.kernel.links = s.world.kernel.links ∧
      s.world.Only (·.cmd.deletes = true) w ∧
      ((ret = .ok ∧ x = 0) ∨ (ret = .fail ∧ s.abs.Blames cfg host w))) s := by
  have habs := heap_abs_of_some hp
  simp only [delTunnelHooks, wp_bind, wp_get, wp_pure, wp_lift, deref_of_some hp]
  refine wp_mono (wp_and (ifaceEbtablesDelTunnel_deletes env tun.ifgre tun.firewallHooks s.world)
    (ifaceEbtablesDelTunnel_spec cfg host env hst habs hgone))
    fun out w ⟨honly, htrail, hlinks, hout⟩ => ?_
  refine wp_modifyTunnel hp ⟨out.2, w, rfl, ⟨?_, rfl⟩, hlinks, honly, hout⟩
  rw [abs_write]
  exact htrail

/-- `s` after the address at which an iterator stands has left both maps. -/
def Sys.forget (s : Sys) (p : Ptr) (tun : TunnelContext) (iter : Iter) (mac : CStr) : Sys :=
  ({ s with macIndex := (s.macIndex.remove mac).1 } : Sys).write p
    { tun with macs := (tun.macs.iterRemove iter).1 }

theorem abs_forget {tun : TunnelContext} {iter : Iter} {mac : CStr}
    (hat : tun.macs.AtEntry iter mac ()) :
    (s.forget p tun iter mac).abs = s.abs.withStore (s.abs.store.unlearn p tun.abs mac) := by
  rw [Sys.forget, abs_write]
  simp only [Sys.abs, Core.withStore, Store.write, Store.unlearn, TunnelContext.abs,
    Hashmap.keySet_iterRemove hat, Core.mk.injEq, Store.mk.injEq, and_true, true_and]
  funext m
  rw [Hashmap.lookup_remove_eq, Function.update_apply]

/-- The rule for the loop over the learned addresses: `I` holds between the rounds, and
    `E` after a round that fails. -/
theorem revokeMacs_rule {I E : Sys → Prop}
    (hround : ∀ {s : Sys} {tun iter mac}, I s → s.heap p = some tun → mac ∈ tun.macs.keySet →
      tun.macs.AtEntry iter mac () → wp (ifaceEbtablesRevoke env tun.ifgre mac) (fun ret w =>
        (ret = .fail → E (s.withWorld w)) ∧
        (ret = .ok → I ((s.withWorld w).forget p tun iter mac))) s.world)
    (fuel : Nat) : ∀ {s : Sys} {iter : Iter} {tun : TunnelContext}, I s → s.heap p = some tun →
    (∀ m, m ∈ tun.macs.keySet ↔ m ∈ (tun.macs.rest iter).map Prod.fst) →
    (tun.macs.rest iter).length < fuel →
    wp (revokeMacs env p fuel iter) (fun ret s' =>
      (ret = .ok ∧ I s' ∧ ∃ tun', s'.heap p = some tun' ∧ tun'.macs.keySet = ∅) ∨
      (ret = .fail ∧ E s')) s := by
  induction fuel with
  | zero => exact fun _ _ _ h => absurd h (Nat.not_lt_zero _)
  | succ fuel ih =>
    intro s iter tun hI hp hkeys hfuel
    simp only [revokeMacs, wp_bind, wp_get, deref_of_some hp]
    rcases tun.macs.iterNext_cases iter with ⟨hnil, _, hnone⟩ | ⟨mac, ⟨⟩, iter', hsome, hrest, hat⟩
    · rw [hnone]
      refine .inl ⟨rfl, hI, tun, hp, ?_⟩
      exact Finset.eq_empty_of_forall_notMem fun m hm => by simp [hkeys, hnil] at hm
    · rw [hsome]
      have hmac : mac ∈ tun.macs.keySet := (hkeys mac).mpr (by rw [hrest]; exact List.mem_cons_self)
      simp only [wp_bind, wp_lift]
      refine wp_mono (hround hI hp hmac hat) fun ret w ⟨hfail, hok⟩ => ?_
      cases ret with
      | fail => exact .inr ⟨rfl, hfail rfl⟩
      | ok =>
        simp only [wp_bind, wp_modify]
        refine wp_modifyTunnel hp ?_
        -- the address has left both maps, and the rest of the walk is unaffected
        have hnodup := tun.macs.nodup_rest iter
        rw [hrest, List.map_cons, List.nodup_cons] at hnodup
        have hrest' := Hashmap.rest_iterRemove hat
        refine ih (hok rfl) (heap_write_self _ p _) (fun m => ?_) ?_
        · rw [hrest', Hashmap.keySet_iterRemove hat, Finset.mem_erase, hkeys, hrest, List.map_cons,
            List.mem_cons]
          constructor
          · rintro ⟨hne, hm | hm⟩
            · exact absurd hm hne
            · exact hm
          · exact fun hm => ⟨fun heq => hnodup.1 (heq ▸ hm), .inr hm⟩
        · rw [hrest']
          rw [hrest, List.length_cons] at hfuel
          exact Nat.lt_of_succ_lt_succ hfuel

/-- What the loop over the addresses of `tun` has done so far. -/
structure Sys.Revoking (cfg : SoftgredConfig) (p : Ptr) (tun : TunnelContext)
    (s s' : Sys) : Prop where
  record : ∃ macs, s'.heap p = some { tun with macs } ∧ macs.keySet ⊆ tun.macs.keySet
  frame : s.Frame p s'
  links : s'.world.kernel.links = s.world.kernel.links
  moves : s.Moves cfg (fun l => Quiet l ∨ ∃ m ∈ tun.macs.keySet, l = .revoke tun.ipRemote m) s'

/-- A rule of an address of `tun` could not be deleted. -/
def World.Refuses (tun : TunnelContext) (w w' : World) : Prop :=
  ∃ mac ∈ tun.macs.keySet, ∃ ev, w.New w' ev ∧ ev.ok = false ∧
    (ev.cmd = revokeIn tun.ifgre mac ∨ ev.cmd = revokeOut tun.ifgre mac)

theorem revokeMacs_spec {tun : TunnelContext} {iter : Iter} {fuel : Nat} (hp : s.heap p = some tun)
    (hkeys : ∀ m, m ∈ tun.macs.keySet ↔ m ∈ (tun.macs.rest iter).map Prod.fst)
    (hfuel : (tun.macs.rest iter).length < fuel) :
    wp (revokeMacs env p fuel iter) (fun ret s' => s.Revoking cfg p tun s' ∧
      ((ret = .ok ∧ ∃ macs, s'.heap p = some { tun with macs } ∧ macs.keySet = ∅) ∨
      (ret = .fail ∧ s.world.Refuses tun s'.world))) s := by
  refine wp_mono (revokeMacs_rule env (I := s.Revoking cfg p tun)
    (E := fun s' => s.Revoking cfg p tun s' ∧ s.world.Refuses tun s'.world) ?_ fuel
    ⟨⟨tun.macs, hp, Finset.Subset.refl _⟩, Sys.Frame.refl p s, rfl, Sys.Moves.refl⟩ hp hkeys hfuel)
    fun ret s' hout => ?_
  · -- one round
    intro s₁ tun₁ iter₁ mac h₁ hp₁ hmac hat
    obtain ⟨macs, hmacs, hsub⟩ := h₁.record
    cases hp₁.symm.trans hmacs
    have hmem := hsub hmac
    refine wp_mono (ifaceEbtablesRevoke_revokes env _ mac s₁.world)
      fun ret w ⟨evIn, evOut, hrevokes⟩ => ?_
    have htrail := hrevokes.trail cfg (c := s₁.abs) rfl (heap_abs_of_some hp₁) rfl
      hmac
    have hmoves : s.Moves cfg
        (fun l => Quiet l ∨ ∃ m ∈ tun.macs.keySet, l = .revoke tun.ipRemote m) (s₁.withWorld w) :=
      h₁.moves.trans ⟨htrail.mono fun l hl => hl.imp_right fun h => ⟨mac, hmem, h⟩, rfl⟩
    have hlinks := hrevokes.links.trans h₁.links
    refine ⟨fun hret => ⟨⟨⟨macs, hp₁, hsub⟩, ⟨h₁.frame.tunnels, h₁.frame.slots, h₁.frame.pending,
      h₁.frame.others⟩, hlinks, hmoves⟩, ?_⟩, fun _ => ⟨⟨_, heap_write_self _ p _, ?_⟩, ?_, hlinks, ?_⟩⟩
    · obtain ⟨ev, hnew, hok, hcmd⟩ := hrevokes.failure hret
      exact ⟨mac, hmem, ev, hnew.of_suffix (Core.trail_suffix h₁.moves.trail), hok, hcmd⟩
    · rw [Hashmap.keySet_iterRemove hat]
      exact (Finset.erase_subset _ _).trans hsub
    · exact ⟨h₁.frame.tunnels, h₁.frame.slots, h₁.frame.pending,
        fun hq => (if_neg hq).trans (h₁.frame.others hq)⟩
    · have hstep : Step cfg (.revoke tun.ipRemote mac) (s₁.withWorld w).abs _ :=
        Step.unlearn (heap_abs_of_some (s := s₁.withWorld w) hp₁) hmac
      rw [← abs_forget (s := s₁.withWorld w) hat] at hstep
      exact hmoves.trans (Sys.Moves.step (.inr ⟨mac, hmem, rfl⟩) hstep rfl)
  · rcases hout with ⟨rfl, hrevoking, tun', hp', hempty⟩ | ⟨rfl, hrevoking, hrefuses⟩
    · obtain ⟨macs, hmacs, -⟩ := hrevoking.record
      cases hp'.symm.trans hmacs
      exact ⟨hrevoking, .inl ⟨rfl, macs, hmacs, hempty⟩⟩
    · exact ⟨hrevoking, .inr ⟨rfl, hrefuses⟩⟩

/-- The entries of a map are all still ahead of a new iterator. -/
theorem mem_keySet_iff_rest_init (m : Hashmap strOps Unit) (mac : CStr) :
    mac ∈ m.keySet ↔ mac ∈ (m.rest Table.iterInit).map Prod.fst := by
  rw [Hashmap.rest_init, Hashmap.keySet, List.mem_toFinset]
  rfl

/-- What `provision_del` does in any case, `tun` being the record behind `p`. -/
structure Sys.Removing (cfg : SoftgredConfig) (env : Env) (p : Ptr) (tun : TunnelContext)
    (s s' : Sys) : Prop where
  moves : s.Moves cfg (fun l => Quiet l ∨ ∃ m ∈ tun.macs.keySet, l = .revoke tun.ipRemote m) s'
  pending : s'.cleanupPending = s.cleanupPending
  others : ∀ {q}, q ≠ p → s'.heap q = s.heap q
  unlinks : s.world.Unlinks env tun.ifgre s'.world

/-- What it does when it succeeds. The link is gone, unless its deletion ended with
    `ENODEV` although it could have worked. -/
structure Sys.Removed (remote : InAddr) (p : Ptr) (tun : TunnelContext) (s s' : Sys) :
    Prop where
  lookup : provisionGetTunnelByip s' remote = none
  record : s'.heap p = none
  slot : s'.slots tun.id = false
  gone : s'.world.EnodevSound ∨ (∀ ev, s.world.New s'.world ev → ¬ ev.Unwilling) →
    s'.world.kernel.hasLink tun.ifgre = false

/-- Why it fails: the link is there and was not deleted, a rule of an address was not
    deleted, or a jump was not. -/
def Sys.Hindered (cfg : SoftgredConfig) (host : Kernel) (tun : TunnelContext)
    (s s' : Sys) : Prop :=
  (s'.world.kernel.hasLink tun.ifgre = true ∧ ∃ ev, s.world.New s'.world ev ∧ ev.Unwilling) ∨
  s.world.Refuses tun s'.world ∨
  ∃ ev, s.world.New s'.world ev ∧ ev.ok = false ∧ ev.cmd.deletes = true ∧
    (s.abs.Inv cfg host → ev.Unwilling)

/-- What it does when it fails: the tunnel stays where it is, with some of its addresses
    and jumps gone. -/
structure Sys.Retained (cfg : SoftgredConfig) (host : Kernel) (remote : InAddr)
    (p : Ptr) (tun : TunnelContext) (s s' : Sys) : Prop where
  lookup : provisionGetTunnelByip s' remote = some p
  record : ∃ macs x, s'.heap p = some { tun with macs, firewallHooks := x }
  hindered : s.Hindered cfg host tun s'

theorem provisionDel_spec {remote : InAddr} {tun : TunnelContext} (hst : s.abs.store.Inv cfg)
    (hlookup : provisionGetTunnelByip s remote = some p) (hp : s.heap p = some tun) :
    wp (provisionDel env remote) (fun ret s' => s.Removing cfg env p tun s' ∧
      ((ret = .ok ∧ s.Removed remote p tun s') ∨
      (ret = .fail ∧ s.Retained cfg host remote p tun s'))) s := by
  have hquiet : ∀ l, Quiet l → Quiet l ∨ ∃ m ∈ tun.macs.keySet, l = .revoke tun.ipRemote m :=
    fun _ => .inl
  simp only [provisionDel, wp_bind, wp_get, hlookup]
  refine wp_mono (greDelFailed_spec cfg env hp) fun failed s₁ ⟨ev, hs₁, hmoves₁, hcmd, hunlinks, h₁⟩ => ?_
  rcases h₁ with ⟨rfl, hgone⟩ | ⟨rfl, hrefused, hlink⟩
  swap
  · subst hs₁
    have happly := Kernel.apply_delLink_iff.mpr ⟨hlink, rfl⟩
    refine ⟨⟨hmoves₁.mono hquiet, rfl, fun _ => rfl, hunlinks⟩, .inr ⟨rfl, hlookup, ⟨_, _, hp⟩, .inl ?_⟩⟩
    exact ⟨(Kernel.hasLink_congr (congrArg Kernel.links hrefused.kernel) _).trans hlink, ev,
      World.New.record _ _, hrefused.unwilling (hcmd.symm ▸ happly)⟩
  have hnew₁ : s.world.New s₁.world ev := by rw [hs₁]; exact World.New.record _ _
  have hlinks₁ : s₁.world.kernel.links = ev.kernel.links := by rw [hs₁]; rfl
  have hp₁ : s₁.heap p = some tun := by rw [hs₁]; exact hp
  simp only [Bool.false_eq_true, if_false, wp_bind, wp_get, deref_of_some hp₁]
  refine wp_mono (revokeMacs_spec cfg env hp₁ (mem_keySet_iff_rest_init tun.macs)
    (Nat.lt_succ_of_le (tun.macs.length_rest_le _))) fun ret s₂ ⟨h₂, hout₂⟩ => ?_
  have hsuffix₁ : s.world.trace <:+ s₁.world.trace := Core.trail_suffix hmoves₁.trail
  have hframe₂ : s.Frame p s₂ := by
    refine Sys.Frame.trans ?_ h₂.frame
    rw [hs₁]
    exact ⟨rfl, rfl, rfl, fun _ => rfl⟩
  have hlinks₂ := h₂.links.trans hlinks₁
  have hmoves₂ := (hmoves₁.mono hquiet).trans h₂.moves
  have hst₂ := hmoves₂.tables hst
  have hlookup₂ : provisionGetTunnelByip s₂ remote = some p := by
    rw [provisionGetTunnelByip, hframe₂.tunnels]
    exact hlookup
  have hremoving₂ : s.Removing cfg env p tun s₂ :=
    ⟨hmoves₂, hframe₂.pending, hframe₂.others,
      hunlinks.extend (Core.trail_suffix h₂.moves.trail) h₂.links⟩
  rcases hout₂ with ⟨rfl, macs, hp₂, hmacs⟩ | ⟨rfl, mac, hmac, ev', hnew, hrest⟩
  swap
  · obtain ⟨macs, hp₂, -⟩ := h₂.record
    exact ⟨hremoving₂, .inr ⟨rfl, hlookup₂, ⟨_, _, hp₂⟩,
      .inr (.inl ⟨mac, hmac, ev', hnew.of_suffix hsuffix₁, hrest⟩)⟩⟩
  have hgone' : ∀ {w : World}, s₁.world.trace <:+ w.trace → w.kernel.links = ev.kernel.links →
      w.EnodevSound → w.kernel.hasLink tun.ifgre = false := by
    intro w hsuffix hlinks hsound
    refine (Kernel.hasLink_congr hlinks _).trans (hgone (.inl (hsound ev (hsuffix.mem ?_))))
    rw [hs₁]
    exact List.mem_cons_self
  have hgone₂ : s₂.world.EnodevSound → s₂.world.kernel.hasLink tun.ifgre = false :=
    hgone' (Core.trail_suffix h₂.moves.trail) hlinks₂
  simp only [wp_bind]
  refine wp_mono (delTunnelHooks_spec cfg env host hst₂ hp₂ hgone₂)
    fun ret s₃ ⟨x, w, hs₃, hmoves₃, hlinks₃, honly, h₃⟩ => ?_
  have hmoves₃ := hmoves₂.trans (hmoves₃.mono hquiet)
  have hst₃ := hmoves₃.tables hst
  have hlinks₃ : w.kernel.links = ev.kernel.links := hlinks₃.trans hlinks₂
  have hsuffix₃ : s₁.world.trace <:+ w.trace := (Core.trail_suffix h₂.moves.trail).trans honly.suffix
  have hunlinks₃ := hunlinks.extend hsuffix₃ (hlinks₃.trans hlinks₁.symm)
  have hsuffix₂ : s.world.trace <:+ s₂.world.trace := Core.trail_suffix hmoves₂.trail
  subst hs₃
  have hp₃ := heap_write_self (s₂.withWorld w) p { tun with macs, firewallHooks := x }
  have hothers₃ : ∀ {q}, q ≠ p → ((s₂.withWorld w).write p
      { tun with macs, firewallHooks := x }).heap q = s.heap q :=
    fun hq => (if_neg hq).trans (hframe₂.others hq)
  rcases h₃ with ⟨rfl, rfl⟩ | ⟨rfl, hblames⟩
  swap
  · obtain ⟨ev', hnew, hok, hwilling⟩ := hblames
    refine ⟨⟨hmoves₃, hframe₂.pending, hothers₃, hunlinks₃⟩,
      .inr ⟨rfl, hlookup₂, ⟨_, _, hp₃⟩, .inr (.inr ⟨ev', ?_, hok, honly.of_new hnew, fun hinv => ?_⟩)⟩⟩
    · exact hnew.of_suffix hsuffix₂
    · exact hwilling (hinv.trail hmoves₂.trail)
  -- the record is empty and its link gone, so it leaves the tables
  have hgone₃ : w.EnodevSound → w.kernel.hasLink tun.ifgre = false := hgone' hsuffix₃ hlinks₃
  have hstep : Step cfg .internal _ _ :=
    Step.untrack (heap_abs_of_some hp₃) hmacs rfl hgone₃
  have hlookup₃ : ((s₂.withWorld w).write p { tun with macs, firewallHooks := 0 }).tunnels.lookup
      remote.sAddr = some p := hlookup₂
  rw [← abs_untrack hst₃ hlookup₃ hp₃] at hstep
  rw [wp_bind, wp_get, deref_of_some hp₃]
  refine wp_untrack ⟨⟨hmoves₃.trans (Sys.Moves.step (.inl rfl) hstep rfl), hframe₂.pending,
    fun hq => ?_, hunlinks₃⟩, .inl ⟨rfl, lookup_untrack _ _ _, ?_, if_pos rfl, fun hwhy => ?_⟩⟩
  · exact (heap_untrack hlookup₃ _).trans ((if_neg hq).trans (hothers₃ hq))
  · exact (heap_untrack hlookup₃ _).trans (if_pos rfl)
  · rcases hwhy with hsound | hwilling
    · exact hgone₃ hsound
    · refine (Kernel.hasLink_congr hlinks₃ _).trans (hgone (.inr ?_))
      exact hwilling ev (hnew₁.extend hsuffix₃)

theorem Sys.Hindered.fails {tun : TunnelContext} (h : s.Hindered cfg host tun s') :
    s.world.Fails s'.world := by
  rcases h with ⟨-, ev, hnew, hunwilling⟩ | ⟨_, -, ev, hnew, hok, -⟩ | ⟨ev, hnew, hok, -⟩
  · exact ⟨ev, hnew, hunwilling.1⟩
  · exact ⟨ev, hnew, hok⟩
  · exact ⟨ev, hnew, hok⟩

/-- Only the rules of addresses can be missing without the tables knowing. -/
theorem Sys.Hindered.blames {tun : TunnelContext} (h : s.Hindered cfg host tun s')
    (hmacs : tun.macs.keySet = ∅) : s.abs.Blames cfg host s'.world := by
  rcases h with ⟨-, ev, hnew, hunwilling⟩ | ⟨mac, hmac, -⟩ | ⟨ev, hnew, hok, -, hwilling⟩
  · exact ⟨ev, hnew, hunwilling.1, fun _ => hunwilling⟩
  · rw [hmacs] at hmac
    cases hmac
  · exact ⟨ev, hnew, hok, hwilling⟩

/-- A tunnel without addresses goes without revoking any. -/
theorem Sys.Removing.quiet {tun : TunnelContext} (h : s.Removing cfg env p tun s')
    (hmacs : tun.macs.keySet = ∅) : s.Moves cfg Quiet s' := by
  refine h.moves.mono fun l hl => hl.resolve_right fun ⟨m, hm, _⟩ => ?_
  rw [hmacs] at hm
  cases hm

end Softgre
