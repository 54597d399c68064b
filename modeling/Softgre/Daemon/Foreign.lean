-- SUMMARY: Runs in which other software creates interfaces too, and whose interfaces the daemon acts on.
import Softgre.Daemon.Keeps
import Softgre.Daemon.Tables
import Softgre.Ledger.History

/-!
# Other software on the host

Between the calls other software may create interfaces under any name that is
not in use, on top of any link, the daemon's own included. The daemon tells
interfaces apart by name only, so a tunnel whose link is gone while its record
stays is where it can go wrong.
-/

namespace Softgre

open Base

/-! ## Runs -/

inductive HostStep where
  | call (call : Call)
  | foreign (name : CStr) (lower : Option CStr)

variable (cfg : SoftgredConfig) (env : Env)

/-- What a new interface on top of `lower` sits on, if there is such a link. -/
def Kernel.stack (k : Kernel) : Option CStr → Option (List CStr)
  | none => some []
  | some lower =>
    if k.hasLink lower then
      some (lower :: (k.links.filter fun l => l.name == lower).flatMap fun l => l.kind.below)
    else none

def Sys.withLink (s : Sys) (l : Link) : Sys :=
  { s with world := { s.world with kernel := s.world.kernel.addLink l } }

/-- The state after a call, or after other software has created an interface. -/
def hostStep (s : Sys) : HostStep → Sys
  | .call call => exec cfg env s call
  | .foreign name lower =>
    match s.world.kernel.stack lower with
    | none => s
    | some below =>
      if s.world.kernel.hasLink name then s else s.withLink ⟨name, .foreign below, none⟩

def hostRun (steps : List HostStep) (s : Sys) : Sys := steps.foldl (hostStep cfg env) s

/-- In all its history, the daemon deleted and attached only interfaces that it had
    created itself and not deleted since. -/
structure Sys.ActsOnOwn (s : Sys) : Prop where
  acts : history actsOnOwn s.world.trace = true
  enslaves : history enslavesOwn s.world.trace = true

instance (s : Sys) : Decidable s.ActsOnOwn :=
  decidable_of_iff (history actsOnOwn s.world.trace = true ∧ history enslavesOwn s.world.trace = true)
    ⟨fun h => ⟨h.1, h.2⟩, fun h => ⟨h.acts, h.enslaves⟩⟩

/-- No other software takes the name of a tunnel on record whose link is gone. -/
def Unclaimed : List HostStep → Sys → Prop
  | [], _ => True
  | step :: rest, s =>
    (∀ name lower remote p tun, step = .foreign name lower → s.InTable remote p tun → tun.ifgre = name →
      s.world.kernel.hasLink name = true) ∧ Unclaimed rest (hostStep cfg env s step)

/-! ## Attaching -/

/-- Whatever was put into a bridge had just been created. -/
def World.Enslaves (w : World) : Prop := history enslavesOwn w.trace = true

/-- The command puts a link into a bridge. -/
def Cmd.enslaves : Cmd → Bool
  | .setMaster .. => true
  | _ => false

theorem Cmd.not_enslaves {cmd : Cmd} (h : cmd.edits.isSome = true) : cmd.enslaves = false := by
  cases cmd with
  | setMaster => cases h
  | _ => rfl

theorem enslavesOwn_of_not {ev : Event} {older : List Event} (h : ev.cmd.enslaves = false) :
    enslavesOwn ev older = true := by
  rw [enslavesOwn]
  split
  · next heq => rw [heq] at h; cases h
  · rfl

theorem perform_enslaves {fallback : Option Errno} {cmd : Cmd} (hcmd : cmd.enslaves = false) :
    Keeps World.Enslaves (perform env fallback cmd) := by
  intro w hw
  refine wp_mono (perform_spec env fallback cmd w) fun ret w' h => ?_
  obtain ⟨ev, rfl, rfl, -⟩ := h
  exact history_cons.mpr ⟨enslavesOwn_of_not hcmd, hw⟩

/-- The VLAN link is put into the bridge right after it was created. -/
theorem attach_enslaves (gre bridge : CStr) (vlan : UInt16) :
    Keeps World.Enslaves (ifaceBridgeAttach env gre bridge vlan) := by
  refine keeps_ifaceBridgeAttach (fun _ _ hw => hw) (fun _ hw => ?_) fun w hw => ?_
  · exact history_cons.mpr ⟨rfl, hw⟩
  rw [wp_bind]
  refine wp_mono (wp_and (perform_spec env _ _ w) (perform_enslaves env rfl w hw))
    fun ret w₁ h => ?_
  obtain ⟨⟨ev, rfl, -, h⟩, hmade⟩ := h
  rcases h with ⟨rfl, -, hdone⟩ | ⟨rfl, -, -, -⟩
  · refine wp_mono (setMaster_spec env _ _ _) fun ret w₂ h => ?_
    obtain ⟨ev', rfl, hcmd' | hcmd', -⟩ := h
    · refine history_cons.mpr ⟨?_, hmade⟩
      simp only [enslavesOwn, hcmd', World.record, List.head?_cons, Option.any_some]
      simp only [Event.madeVlan, hdone.cmd, hdone.ok, Bool.true_and, beq_self_eq_true]
    · exact history_cons.mpr ⟨enslavesOwn_of_not (by rw [hcmd']; rfl), hmade⟩
  · exact hmade

theorem kept_enslaves : Kept env World.Enslaves := by
  have hunresolved : ∀ {cmd e}, cmd.enslaves = false → Keeps World.Enslaves (unresolved cmd e) :=
    fun hcmd _ hw => history_cons.mpr ⟨enslavesOwn_of_not hcmd, hw⟩
  exact
    { helperExec := fun hcmd => perform_enslaves env (Cmd.not_enslaves hcmd)
      ifaceGreAdd := fun _ _ _ _ =>
        keeps_ifaceGreAdd (fun _ _ hw => hw) (hunresolved rfl) (perform_enslaves env rfl)
      ifaceGreDel := fun _ =>
        keeps_ifaceGreDel (fun _ _ hw => hw) (hunresolved rfl) (perform_enslaves env rfl)
      attach := attach_enslaves env
      errno := fun _ _ hw => hw
      clock := fun _ _ hw => hw }

/-! ## Whole runs -/

/-- What holds between the steps of a run in which no name was taken. -/
structure Sys.KeepsToOwn (cfg : SoftgredConfig) (s : Sys) : Prop where
  tables : s.Tables cfg
  ledger : s.abs.KeepsToOwn
  enslaves : s.world.Enslaves

variable {cfg env} {s : Sys}

theorem exec_keepsToOwn (call : Call) (h : s.KeepsToOwn cfg) :
    (exec cfg env s call).KeepsToOwn cfg where
  tables := exec_tables cfg env call h.tables
  ledger := by
    have htrail := exec_trail cfg env call h.tables.1 h.tables.2
    refine (htrail.invariant (I := fun c => c.store.Inv cfg ∧ c.KeepsToOwn)
      (fun l c c' _ hstep hc => ?_) ⟨h.tables.1, h.ledger⟩).2
    exact ⟨hstep.tables hc.1, hstep.keepsToOwn hc.1 hc.2⟩
  enslaves := (kept_enslaves env).exec call h.enslaves

/-- A new interface is nobody's whose name is on record. -/
theorem foreign_keepsToOwn {name : CStr} {lower : Option CStr} (h : s.KeepsToOwn cfg)
    (hname : ∀ remote p tun, s.InTable remote p tun → tun.ifgre = name →
      s.world.kernel.hasLink name = true) :
    (hostStep cfg env s (.foreign name lower)).KeepsToOwn cfg := by
  rw [hostStep]
  split
  · exact h
  split
  · exact h
  · next hfree =>
    refine ⟨h.tables, ⟨fun {other} hother hlink => ?_, h.ledger.acts⟩, h.enslaves⟩
    refine h.ledger.owned hother ?_
    have hlink : (name == other || s.world.kernel.hasLink other) = true := hlink
    rw [Bool.or_eq_true, beq_iff_eq] at hlink
    refine hlink.resolve_left fun heq => ?_
    obtain ⟨q, t, ht, rfl⟩ := hother
    obtain ⟨tun, hq, rfl⟩ := heap_of_abs ht
    exact hfree (hname _ q tun (inTable_of_heap h.tables.1 hq) heq.symm)

theorem hostRun_keepsToOwn (steps : List HostStep) (h : s.KeepsToOwn cfg)
    (hsteps : Unclaimed cfg env steps s) : (hostRun cfg env steps s).KeepsToOwn cfg := by
  induction steps generalizing s with
  | nil => exact h
  | cons step rest ih =>
    refine ih ?_ hsteps.2
    cases step with
    | call call => exact exec_keepsToOwn call h
    | foreign name lower =>
      exact foreign_keepsToOwn h fun remote p tun => hsteps.1 name lower remote p tun rfl

/-! ## The start -/

/-- So far, only the firewall was touched. -/
def World.Firewalls (w : World) : Prop := ∀ ev ∈ w.trace, ev.cmd.edits.isSome = true

theorem kept_firewalls : FirewallKept env World.Firewalls where
  helperExec {cmd} hcmd w hw := by
    refine wp_mono (perform_spec env none cmd w) fun ret w' h => ?_
    obtain ⟨ev, rfl, rfl, -⟩ := h
    exact List.forall_mem_cons.mpr ⟨hcmd, hw⟩

theorem history_of_forall {check : Event → List Event → Bool} {trace : List Event}
    (h : ∀ ev ∈ trace, ∀ older, check ev older = true) : history check trace = true := by
  induction trace with
  | nil => rfl
  | cons ev older ih =>
    obtain ⟨hev, holder⟩ := List.forall_mem_cons.mp h
    exact history_cons.mpr ⟨hev older, ih holder⟩

theorem Started.keepsToOwn {host : Kernel} (h : Started env host s) : s.KeepsToOwn cfg := by
  obtain ⟨errno, clock, rfl, -⟩ := h.boot
  have hfirewalls : ((ifaceEbtablesInit env).run ⟨host, [], errno, clock, false⟩).2.Firewalls :=
    kept_firewalls.ifaceEbtablesInit (fun _ _ hw => hw) _ fun _ hev => absurd hev List.not_mem_nil
  generalize ((ifaceEbtablesInit env).run ⟨host, [], errno, clock, false⟩).2 = w at *
  refine ⟨⟨provisionInit_tables cfg w, provisionInit_idle w⟩, ⟨fun hname => ?_, ?_⟩, ?_⟩
  · rw [abs_provisionInit] at hname
    obtain ⟨p, t, ht, -⟩ := hname
    cases ht
  · exact history_of_forall fun ev hev older => actsOnOwn_of_edits (hfirewalls ev hev)
  · refine history_of_forall fun ev hev older => enslavesOwn_of_not ?_
    exact Cmd.not_enslaves (hfirewalls ev hev)

/-! ## The daemon and others -/

/-- As long as nobody takes the name of a tunnel that is on record without its
    link, the daemon deletes and attaches its own interfaces only, whatever fails
    and whatever else other software creates. -/
theorem foreign_untouched_of_unclaimed (cfg : SoftgredConfig) (env : Env) (host : Kernel) (s : Sys)
    (steps : List HostStep) (hstart : Started env host s) (hsteps : Unclaimed cfg env steps s) :
    (hostRun cfg env steps s).ActsOnOwn := by
  have hinit : s.KeepsToOwn cfg := hstart.keepsToOwn
  have hrun := hostRun_keepsToOwn steps hinit hsteps
  exact ⟨hrun.ledger.acts, hrun.enslaves⟩

/-- Refuses to delete any rule the first time. -/
def Sample.clinging : Env := fun c n =>
  match c with
  | .delete .. => ⟨n != 0, none, 0⟩
  | _ => ⟨true, none, 0⟩

/-- The name in the only record that was ever made. -/
theorem Sys.Tables.ifgre_of_next {s : Sys} {cfg : SoftgredConfig} {name : CStr} (h : s.Tables cfg)
    (hnext : s.abs.store.next = 1) (hfirst : (s.heap 0).map TunnelContext.ifgre = some name)
    {p : Ptr} {tun : TunnelContext} (hp : s.heap p = some tun) : tun.ifgre = name := by
  obtain rfl : p = 0 := by
    by_contra hne
    have hnone := h.1.fresh (hnext ▸ Nat.one_le_iff_ne_zero.mpr hne)
    cases (heap_abs_of_some hp).symm.trans hnone
  rw [hp] at hfirst
  exact Option.some.inj hfirst

/-- A cleanup is cut short and completed later, and meanwhile other software takes
    the name of a slot that is free. -/
theorem foreign_untouched_of_unclaimed_clinging :
    (hostRun Sample.config Sample.clinging
      [.call (.packet Sample.packet), .call .delall, .foreign "gre1".toList none, .call .delall]
      (Sample.start Sample.clinging)).ActsOnOwn := by
  refine foreign_untouched_of_unclaimed Sample.config Sample.clinging Sample.kernel _ _
    (Sample.started (by decide +kernel)) ⟨?_, ?_, ?_, ?_, trivial⟩
  · intro _ _ _ _ _ h
    cases h
  · intro _ _ _ _ _ h
    cases h
  · intro name lower remote p tun hstep hin hname
    have hgre0 : tun.ifgre = "gre0".toList :=
      (run_tables Sample.config Sample.clinging [.packet Sample.packet, .delall]
        (Sample.start_tables Sample.clinging)).ifgre_of_next (by decide +kernel) (by decide +kernel)
        hin.record
    cases hstep
    rw [hgre0] at hname
    exact absurd hname (by decide)
  · intro _ _ _ _ _ h
    cases h

/-- The first cleanup deletes the link and keeps the record, as the jumps cannot be
    deleted. The second one finds an interface under the name again, which is not
    the daemon's, and deletes it. -/
theorem not_foreign_untouched :
    ¬ (hostRun Sample.config Sample.clinging
      [.call (.packet Sample.packet), .call .delall, .foreign "gre0".toList none, .call .delall]
      (Sample.start Sample.clinging)).ActsOnOwn := by
  decide +kernel

end Softgre
