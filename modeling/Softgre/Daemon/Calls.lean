-- SUMMARY: Runs of calls into the provisioning code, each call a trail of the ledger.
import Softgre.Provision.Learn
import Softgre.Provision.Cleanup

/-!
# Runs

The entry points of `provision.c` as one type of calls, with the time that passes
between them. A run is a list of calls; how the commands of a call end is up to
the environment, which is a parameter.
-/

namespace Softgre

open Base

inductive Call where
  | packet (packet : PayloadPacket)
  | delall
  | add (remote : InAddr)
  | allowMac (remote : InAddr) (mac : CStr)
  | del (remote : InAddr)
  | wait (usec : Nat)

/-- The calls the main loop makes. -/
def Call.fromLoop : Call → Bool
  | .packet _ | .delall | .wait _ => true
  | _ => false

variable (cfg : SoftgredConfig) (env : Env)

/-- `provision_tunnel_allow_mac` is called on the tunnel that is in the table for
    the remote, if there is one. -/
def Call.program : Call → ProvM Unit
  | .packet pkt => provisionPacket cfg env pkt
  | .delall => provisionDelall env
  | .add remote => discard (provisionAdd cfg env remote)
  | .allowMac remote mac => do
    match provisionGetTunnelByip (← get) remote with
    | none => return
    | some p => discard (provisionTunnelAllowMac env p mac)
  | .del remote => discard (provisionDel env remote)
  | .wait usec => modify fun s => { s with world := { s.world with clock := s.world.clock + usec } }

/-- The state after a call. -/
def exec (s : Sys) (call : Call) : Sys := ((call.program cfg env).run s).2

def run (calls : List Call) (s : Sys) : Sys := calls.foldl (exec cfg env) s

theorem run_append (calls calls' : List Call) (s : Sys) :
    run cfg env (calls ++ calls') s = run cfg env calls' (run cfg env calls s) :=
  List.foldl_append

variable {cfg env} in
/-- What every call of a kind preserves, a run of such calls preserves. -/
theorem run_invariant {P : Call → Prop} {I : Sys → Prop}
    (hexec : ∀ call s, P call → I s → I (exec cfg env s call)) {calls : List Call}
    (hcalls : ∀ call ∈ calls, P call) {s : Sys} (hs : I s) : I (run cfg env calls s) := by
  induction calls generalizing s with
  | nil => exact hs
  | cons call rest ih =>
    obtain ⟨hcall, hrest⟩ := List.forall_mem_cons.mp hcalls
    exact ih hrest (hexec call s hcall hs)

/-- No cleanup in the run completes. -/
def Uncleared : List Call → Sys → Prop
  | [], _ => True
  | call :: rest, s =>
    (call = .delall → (exec cfg env s call).cleanupPending = true) ∧
      Uncleared rest (exec cfg env s call)

/-! ## Calls are trails -/

/-- The labels of the steps a call can cause. -/
def Call.Labels : Call → Label → Prop
  | .packet pkt, l => PacketLabel pkt l
  | .delall, l => Quiet l ∨ l = .clear
  | .add remote, l => AddsFor remote l ∨ l = .full
  | .allowMac remote mac, l => Quiet l ∨ l = .learn remote mac ∨ l = .leak remote mac ∨ l = .full
  | .del remote, l => Quiet l ∨ ∃ mac, l = .revoke remote mac
  | .wait _, l => l = .wait

variable {s : Sys}

theorem add_trail {remote : InAddr} (hst : s.abs.store.Inv cfg) (hno : s.abs.Idle) :
    Trail (Step cfg) (Call.add remote).Labels s.abs
      (exec cfg env s (.add remote)).abs := by
  have hadds : ∀ {s₁ : Sys}, s.Moves cfg (AddsFor remote) s₁ →
      Trail (Step cfg) (Call.add remote).Labels s.abs s₁.abs :=
    fun h => h.trail.mono fun _ => .inl
  show wp (provisionAdd cfg env remote) (fun _ s' =>
    Trail (Step cfg) (Call.add remote).Labels s.abs s'.abs) s
  by_cases hidle : s.cleanupPending = true
  · simp only [provisionAdd, wp_bind, wp_get, hidle, if_true]
    exact Trail.refl
  refine wp_mono (provisionAdd_spec cfg env hst hno (Bool.of_not_eq_true hidle)) fun out s' h => ?_
  rcases h with ⟨p, -, rfl, -⟩ | ⟨p, -, hmoves, -⟩ | ⟨-, hmoves, -⟩ | ⟨s₁, -, hmoves, -, rfl, -⟩
  · exact Trail.refl
  · exact hadds hmoves
  · exact hadds hmoves
  · refine (hadds (hmoves.mono Quiet.addsFor)).tail (.inr rfl) ?_
    rw [abs_setErrno]
    exact Step.full

theorem allowMac_trail {remote : InAddr} {mac : CStr} (hst : s.abs.store.Inv cfg) :
    Trail (Step cfg) (Call.allowMac remote mac).Labels s.abs
      (exec cfg env s (.allowMac remote mac)).abs := by
  show wp (Call.program cfg env (.allowMac remote mac)) (fun _ s' =>
    Trail (Step cfg) (Call.allowMac remote mac).Labels s.abs s'.abs) s
  simp only [Call.program, wp_bind, wp_get]
  cases hlookup : provisionGetTunnelByip s remote with
  | none => exact Trail.refl
  | some p =>
    obtain ⟨tun, hp, hremote⟩ := hst.record hlookup
    simp only [wp_discard]
    refine wp_mono (provisionTunnelAllowMac_spec cfg env mac hp) fun ret s' h => ?_
    rcases h with ⟨-, rfl, -⟩ | ⟨-, hlearn, -⟩ | ⟨-, rfl, -⟩ | ⟨-, rfl, -⟩ | ⟨-, hleak, -⟩
    · exact Trail.refl
    · exact hlearn.trail.mono fun l hl => .inr (.inl (hremote ▸ hl))
    · exact Trail.single (.inr (.inr (.inr rfl))) Step.full
    · exact Trail.refl
    · exact hleak.trail.mono fun l hl => hl.imp_right fun hl => .inr (.inl (hremote ▸ hl))

theorem del_trail {remote : InAddr} (hst : s.abs.store.Inv cfg) :
    Trail (Step cfg) (Call.del remote).Labels s.abs
      (exec cfg env s (.del remote)).abs := by
  show wp (provisionDel env remote) (fun _ s' =>
    Trail (Step cfg) (Call.del remote).Labels s.abs s'.abs) s
  cases hlookup : provisionGetTunnelByip s remote with
  | none =>
    simp only [provisionDel, wp_bind, wp_get, hlookup]
    exact Trail.refl
  | some p =>
    obtain ⟨tun, hp, hremote⟩ := hst.record hlookup
    refine wp_mono (provisionDel_spec cfg env s.world.kernel hst hlookup hp) fun ret s' hdel => ?_
    refine hdel.1.moves.trail.mono fun l hl => hl.imp_right fun hrevoke => ?_
    obtain ⟨m, -, hl⟩ := hrevoke
    exact ⟨m, hremote ▸ hl⟩

theorem exec_packet (packet : PayloadPacket) (hst : s.abs.store.Inv cfg) (hno : s.abs.Idle) :
    Handles cfg packet s (exec cfg env s (.packet packet)) :=
  provisionPacket_spec cfg env hst hno

theorem exec_delall (host : Kernel) (hst : s.abs.store.Inv cfg) :
    Cleans cfg host s (exec cfg env s .delall) :=
  provisionDelall_spec cfg env host hst

theorem exec_trail (call : Call) (hst : s.abs.store.Inv cfg) (hno : s.abs.Idle) :
    Trail (Step cfg) call.Labels s.abs (exec cfg env s call).abs := by
  cases call with
  | packet packet => exact Handles.trail cfg (exec_packet cfg env packet hst hno)
  | delall => exact Cleans.trail (exec_delall cfg env s.world.kernel hst)
  | add remote => exact add_trail cfg env hst hno
  | allowMac remote mac => exact allowMac_trail cfg env hst
  | del remote => exact del_trail cfg env hst
  | wait usec => exact Trail.single rfl (Step.wait usec)

/-! ## The tables along a run -/

/-- The tables agree, and idle tunnels are empty. -/
def Sys.Tables (cfg : SoftgredConfig) (s : Sys) : Prop := s.abs.store.Inv cfg ∧ s.abs.Idle

theorem exec_tables (call : Call) (h : s.Tables cfg) : (exec cfg env s call).Tables cfg :=
  (exec_trail cfg env call h.1 h.2).invariant (I := fun c : Core => c.store.Inv cfg ∧ c.Idle)
    (fun _ _ _ _ hs hc => ⟨hs.tables hc.1, hs.idle hc.1 hc.2⟩) h

theorem run_initialized (calls : List Call) (h : s.Tables cfg) :
    (run cfg env calls s).world.initialized = s.world.initialized := by
  refine (run_invariant (P := fun _ => True)
    (I := fun s' => s'.Tables cfg ∧ s'.world.initialized = s.world.initialized)
    (fun call s' _ hs => ⟨exec_tables cfg env call hs.1, ?_⟩) (fun _ _ => trivial) ⟨h, rfl⟩).2
  exact (Core.trail_initialized (exec_trail cfg env call hs.1.1 hs.1.2)).trans hs.2

theorem run_tables (calls : List Call) (h : s.Tables cfg) : (run cfg env calls s).Tables cfg :=
  run_invariant (P := fun _ => True) (fun call _ _ => exec_tables cfg env call) (fun _ _ => trivial) h

variable {cfg env}

theorem exec_suffix (call : Call) (h : s.Tables cfg) :
    s.world.trace <:+ (exec cfg env s call).world.trace :=
  Core.trail_suffix (exec_trail cfg env call h.1 h.2)

theorem run_suffix (calls : List Call) (h : s.Tables cfg) :
    s.world.trace <:+ (run cfg env calls s).world.trace := by
  induction calls generalizing s with
  | nil => exact List.suffix_refl _
  | cons call rest ih => exact (exec_suffix call h).trans (ih (exec_tables cfg env call h))

end Softgre
