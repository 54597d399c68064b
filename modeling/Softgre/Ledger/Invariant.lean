-- SUMMARY: The whole ledger invariant, kept by every step, and what a trail does to the world.
import Softgre.Ledger.Filter

/-!
# The ledger invariant

`Core.Inv` collects what the previous modules prove step by step, together with
the property of all kernels the daemon went through on its way.
-/

namespace Softgre

open Base

variable {cfg : SoftgredConfig} {host : Kernel} {c c' : Core} {l : Label}

/-- Outside a pending cleanup a tunnel that is not ready owns no address. -/
def Core.Idle (c : Core) : Prop :=
  c.pending = false → ∀ {p t}, c.store.heap p = some t → t.ready = false → t.macs = ∅

structure Core.Inv (cfg : SoftgredConfig) (host : Kernel) (c : Core) : Prop where
  tables : c.store.Inv cfg
  idle : c.Idle
  jumps : JumpsInv host c.store c.kernel
  links : c.world.EnodevSound → LinksInv cfg c.store c.kernel
  chains : ChainsInv c.world.EnodevSound c.pending c.kernel
  closed : c.world.EnodevSound → ∀ ev ∈ c.world.trace, ev.kernel.FailClosed

/-! ## Idle tunnels -/

/-- Rewriting a record that becomes ready, or stays as ready as it was without
    gaining addresses. -/
theorem Core.Idle.write (h : c.Idle) {p : Ptr} {t : Tunnel} (u : Tunnel)
    (hp : c.store.heap p = some t) (hheap : c'.store.heap = (c.store.write p u).heap)
    (hpend : c'.pending = c.pending) (hu : u.ready = true ∨ (u.ready = t.ready ∧ u.macs ⊆ t.macs)) :
    c'.Idle := by
  intro hidle q v hv hready
  rw [hpend] at hidle
  rw [hheap] at hv
  rcases Store.heap_write_cases hv with ⟨rfl, rfl⟩ | ⟨-, hv⟩
  · rcases hu with hu | ⟨hready', hsub⟩
    · rw [hu] at hready
      cases hready
    · rw [h hidle hp (hready' ▸ hready)] at hsub
      exact Finset.subset_empty.mp hsub
  · exact h hidle hv hready

theorem Step.idle (h : Step cfg l c c') (hst : c.store.Inv cfg) (hidle : c.Idle) :
    c'.Idle := by
  cases h with
  | refused | errno | full | wait | skip | vlan | master | undone | leak | unlink | revoke | reset =>
    exact hidle
  | pend => exact fun h => nomatch h
  | track =>
    intro hpend q v hv hready
    rcases (Store.heap_track_iff (hst.fresh (Nat.le_refl _))).mp hv with ⟨-, rfl⟩ | hv
    · rfl
    · exact hidle hpend hv hready
  | hook _ hp => exact hidle.write _ hp rfl rfl (.inr ⟨rfl, Finset.Subset.refl _⟩)
  | ready _ hp => exact hidle.write _ hp rfl rfl (.inl rfl)
  | @learn c _ _ p t mac hp hready =>
    exact hidle.write { t with macs := insert mac t.macs } hp rfl rfl (.inl hready)
  | unhook hp => exact hidle.write _ hp rfl rfl (.inr ⟨rfl, Finset.Subset.refl _⟩)
  | @unlearn c p t mac hp =>
    exact hidle.write { t with macs := t.macs.erase mac } hp rfl rfl
      (.inr ⟨rfl, Finset.erase_subset _ _⟩)
  | untrack hp => exact fun hpend _ _ hv => hidle hpend (Store.heap_untrack_iff.mp hv).2
  | unready hpend =>
    intro h
    rw [Core.pending_withStore, hpend] at h
    cases h
  | clear => exact fun _ _ _ hv => nomatch hv

/-! ## Kernels along the way -/

theorem Core.failClosed (hjumps : JumpsInv host c.store c.kernel)
    (hlinks : LinksInv cfg c.store c.kernel)
    (hchains : ChainsInv c.world.EnodevSound c.pending c.kernel) (hsound : c.world.EnodevSound) :
    c.kernel.FailClosed := by
  intro l hl name vid hkind _
  have hhooked := hlinks.hooked hl hkind
  refine ⟨fun hook hmem => ?_, ?_⟩
  · obtain ⟨i, hi⟩ := List.mem_iff_getElem?.mp hmem
    refine hjumps.mem_chain hi (hhooked.imp fun x hx => ?_)
    have := lt_of_hooks hi
    subst hx
    interval_cases i <;> rfl
  · refine hchains.tails.resolve_right fun ⟨_, hforeign⟩ => ?_
    have := hforeign hsound l hl
    rw [hkind] at this
    cases this

theorem Core.Inv.failClosed (h : c.Inv cfg host) (hsound : c.world.EnodevSound) :
    c.kernel.FailClosed :=
  Core.failClosed h.jumps (h.links hsound) h.chains hsound

/-- Letting an address in does not open the filter. -/
theorem Event.Done.failClosed_allowIn {k : Kernel} {ev : Event} {name mac : CStr}
    (hev : ev.Done k (allowIn name mac)) (h : k.FailClosed) : ev.kernel.FailClosed := by
  intro l hl name' vid hkind hmaster
  obtain ⟨hjumps, hin, hout⟩ := h l (hev.links rfl ▸ hl) name' vid hkind hmaster
  refine ⟨hjumps.congr fun hc => hev.chain ?_, hev.tailIn_allowIn hin, hev.tailOut nofun hout⟩
  intro heq
  cases heq
  cases hc

theorem Step.closed (h : Step cfg l c c') (hsound : c.world.EnodevSound) (hinv : c.Inv cfg host)
    (hnow : c'.kernel.FailClosed) : ∀ ev ∈ c'.world.trace, ev.kernel.FailClosed := by
  have hold := hinv.closed hsound
  have hcons : ∀ {ev : Event} {evs : List Event}, ev.kernel.FailClosed →
      (∀ e ∈ evs, e.kernel.FailClosed) → ∀ e ∈ ev :: evs, e.kernel.FailClosed := by
    intro ev evs hev hevs
    exact List.forall_mem_cons.mpr ⟨hev, hevs⟩
  cases h with
  | errno | full | wait | skip | ready | pend | unready | unlearn | untrack | clear => exact hold
  | refused | vlan | master | unlink | revoke | reset | track | hook | unhook => exact hcons hnow hold
  | learn _ _ _ _ hin =>
    exact hcons hnow (hcons (hin.failClosed_allowIn (hinv.failClosed hsound)) hold)
  | undone _ hin hout =>
    have hmid := hin.failClosed_allowIn (hinv.failClosed hsound)
    exact hcons hnow (hcons (hout.kernel ▸ hmid) (hcons hmid hold))
  | leak _ hin hout =>
    have hmid := hin.failClosed_allowIn (hinv.failClosed hsound)
    exact hcons hnow (hcons (hout.kernel ▸ hmid) (hcons hmid hold))

/-! ## The invariant -/

theorem Step.inv (h : Step cfg l c c') (hinv : c.Inv cfg host) :
    c'.Inv cfg host := by
  have hjumps := h.jumps hinv.tables hinv.jumps
  have hbefore : c'.world.EnodevSound → c.world.EnodevSound := fun hsound =>
    hsound.of_suffix h.suffix
  have hlinks := fun hsound =>
    h.links (hbefore hsound) hinv.tables (hinv.links (hbefore hsound))
  have hchains := h.chains hinv.links hinv.chains
  exact
    { tables := h.tables hinv.tables
      idle := h.idle hinv.tables hinv.idle
      jumps := hjumps
      links := hlinks
      chains := hchains
      closed := fun hsound =>
        h.closed (hbefore hsound) hinv (Core.failClosed hjumps (hlinks hsound) hchains hsound) }

theorem Core.Inv.trail {P : Label → Prop} (h : Trail (Step cfg) P c c')
    (hinv : c.Inv cfg host) : c'.Inv cfg host :=
  h.invariant (fun _ _ _ _ hs => hs.inv) hinv

/-! ## What a trail does to the world -/

/-- The last error a list of events, newest first, reports. -/
def lastErrno (evs : List Event) : Option Errno := evs.findSome? Event.errno

/-- `w'` is `w` after `evs`: the clock moved by what they took, and `errno` is
    `ENOSPC` only if they, or `w` before them, say so. -/
structure World.After (w w' : World) (evs : List Event) : Prop where
  trace : w'.trace = evs ++ w.trace
  clock : w'.clock = w.clock + (evs.map Event.elapsed).sum
  errno : w'.errno = ENOSPC → (lastErrno evs).getD w.errno = ENOSPC
  initialized : w'.initialized = w.initialized

theorem World.After.refl (w : World) : w.After w [] := ⟨rfl, by simp, id, rfl⟩

theorem World.After.trans {w w' w'' : World} {evs evs' : List Event} (h : w.After w' evs)
    (h' : w'.After w'' evs') : w.After w'' (evs' ++ evs) where
  trace := by rw [h'.trace, h.trace, List.append_assoc]
  clock := by
    rw [h'.clock, h.clock, List.map_append, List.sum_append]
    omega
  errno herr := by
    have h₁ := h'.errno herr
    rw [lastErrno, List.findSome?_append, ← lastErrno, ← lastErrno]
    cases hlast : lastErrno evs' with
    | none =>
      rw [hlast] at h₁
      exact h.errno h₁
    | some e =>
      rw [hlast] at h₁
      exact h₁
  initialized := h'.initialized.trans h.initialized

theorem World.After.record {w w' : World} {evs : List Event} (h : w.After w' evs) (ev : Event) :
    w.After (w'.record ev) (ev :: evs) := by
  have hev : w'.After (w'.record ev) [ev] := by
    refine ⟨rfl, by simp [World.record], fun herr => ?_, rfl⟩
    cases hev : ev.errno with
    | none => simpa [lastErrno, hev, World.record] using herr
    | some e => simpa [lastErrno, hev, World.record] using herr
  exact h.trans hev

/-- Some command failed on the way from `c` to `w`, and if `c` satisfies the
    invariant it is one that could have taken effect. -/
def Core.Blames (cfg : SoftgredConfig) (host : Kernel) (c : Core) (w : World) : Prop :=
  ∃ ev, c.world.New w ev ∧ ev.ok = false ∧ (c.Inv cfg host → ev.Unwilling)

theorem Core.Blames.of_trail {P : Label → Prop} {w : World} (h : Trail (Step cfg) P c c')
    (hblames : c'.Blames cfg host w) : c.Blames cfg host w := by
  obtain ⟨ev, hnew, hok, hwill⟩ := hblames
  exact ⟨ev, hnew.of_suffix (Core.trail_suffix h), hok, fun hinv => hwill (hinv.trail h)⟩

theorem Core.Blames.extend {w w' : World} (h : c.Blames cfg host w)
    (hsuffix : w.trace <:+ w'.trace) : c.Blames cfg host w' := by
  obtain ⟨ev, hnew, hrest⟩ := h
  exact ⟨ev, hnew.extend hsuffix, hrest⟩

/-- Neither a capacity limit was hit nor time passed. -/
def Label.Busy : Label → Prop
  | .full | .wait => False
  | _ => True

theorem Step.after (h : Step cfg l c c') (hl : l.Busy) : ∃ evs, c.world.After c'.world evs := by
  have hrefl := World.After.refl c.world
  cases h with
  | full | wait => cases hl
  | errno hne => exact ⟨[], rfl, by simp [Core.setErrno], fun h => absurd h hne, rfl⟩
  | skip | ready | pend | unready | unlearn | untrack | clear => exact ⟨[], hrefl⟩
  | refused | vlan | master | unlink | revoke | reset | track | hook | unhook =>
    exact ⟨_, hrefl.record _⟩
  | learn => exact ⟨_, (hrefl.record _).record _⟩
  | undone | leak => exact ⟨_, ((hrefl.record _).record _).record _⟩

theorem Core.trail_after {P : Label → Prop} (hP : ∀ l, P l → l.Busy)
    (h : Trail (Step cfg) P c c') : ∃ evs, c.world.After c'.world evs := by
  refine h.relates (R := fun c c' => ∃ evs, c.world.After c'.world evs)
    (fun c => ⟨[], World.After.refl _⟩) ?_ fun l _ _ hl hs => hs.after (hP l hl)
  rintro _ _ _ ⟨evs, h⟩ ⟨evs', h'⟩
  exact ⟨_, h.trans h'⟩

theorem Step.clock_le (h : Step cfg l c c') : c.world.clock ≤ c'.world.clock := by
  have hrecord : ∀ (w : World) (ev : Event), w.clock ≤ (w.record ev).clock :=
    fun w ev => Int.le_add_of_nonneg_right (Int.natCast_nonneg _)
  cases h with
  | wait usec => exact Int.le_add_of_nonneg_right (Int.natCast_nonneg _)
  | full | errno | skip | ready | pend | unready | unlearn | untrack | clear => exact Int.le_refl _
  | refused | vlan | master | unlink | revoke | reset | track | hook | unhook => exact hrecord _ _
  | learn => exact (hrecord _ _).trans (hrecord _ _)
  | undone | leak => exact ((hrecord _ _).trans (hrecord _ _)).trans (hrecord _ _)

theorem Core.trail_clock_le {P : Label → Prop} (h : Trail (Step cfg) P c c') :
    c.world.clock ≤ c'.world.clock :=
  h.relates (R := fun c c' => c.world.clock ≤ c'.world.clock) (fun _ => Int.le_refl _)
    (fun _ _ _ => Int.le_trans) fun _ _ _ _ hs => hs.clock_le

theorem Step.initialized (h : Step cfg l c c') :
    c'.world.initialized = c.world.initialized := by
  cases h <;> rfl

theorem Core.trail_initialized {P : Label → Prop} (h : Trail (Step cfg) P c c') :
    c'.world.initialized = c.world.initialized :=
  h.invariant (I := fun c' : Core => c'.world.initialized = c.world.initialized)
    (fun _ _ _ _ hs hc => hs.initialized.trans hc) rfl

end Softgre
