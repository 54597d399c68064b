-- SUMMARY: When the shared backoff is armed, how long it lasts, and what never arms it.
import Softgre.Daemon.Boot

/-!
# Backoff

`provision_packet` arms the backoff from the clock reading at its start, and
decides by `errno` whether a failure is one that should arm it.
-/

namespace Softgre

open Base

variable {cfg : SoftgredConfig} {env : Env} {s s' : Sys}

theorem World.Fails.trace_ne {w w' : World} (h : w.Fails w') : w'.trace ≠ w.trace := by
  obtain ⟨ev, ⟨evs, htrace, hmem⟩, -⟩ := h
  intro heq
  rw [heq, List.self_eq_append_left] at htrace
  rw [htrace] at hmem
  cases hmem

theorem World.fails_of_since {w w' : World} (h : w.trace <:+ w'.trace)
    (hany : ∃ ev ∈ w.since w', ev.ok = false) : w.Fails w' := by
  obtain ⟨ev, hmem, hok⟩ := hany
  exact ⟨ev, ⟨_, World.since_append h, hmem⟩, hok⟩

/-! ## Only a failing command arms the backoff -/

theorem Sys.Moves.backoff_eq {P : Label → Prop} (h : s.Moves cfg P s') :
    s'.failures = s.failures ∧ s'.retryAfter = s.retryAfter := by
  have := h.counters
  simp only [Sys.counters, Prod.mk.injEq] at this
  exact ⟨this.2.2.1, this.2.2.2⟩

/-- Without a failing command a packet leaves the backoff alone. -/
theorem Handles.backoff_eq {packet : PayloadPacket} (h : Handles cfg packet s s')
    (hno : ¬ s.world.Fails s'.world) :
    s'.failures = s.failures ∧ s'.retryAfter = s.retryAfter := by
  cases h with
  | ignored => exact ⟨rfl, rfl⟩
  | passed => exact ⟨rfl, rfl⟩
  | @tried learned s₁ _ hattempt =>
    have hworld : (s₁.settled learned s.world.clock).world = s₁.world :=
      congrArg Core.world (abs_settled s₁ learned s.world.clock)
    rw [hworld] at hno
    cases hattempt with
    | learned hmoves => exact hmoves.backoff_eq
    | failed _ _ hfails => exact absurd hfails hno
    | full hmoves => exact hmoves.backoff_eq

/-- Why a packet can be turned away. -/
inductive Rejected (cfg : SoftgredConfig) (env : Env) (s : Sys) (packet : PayloadPacket) : Prop where
  | pending : s.cleanupPending = true → Rejected cfg env s packet
  | filtered : addressed cfg packet = false ∨
      configRemoteAllowed cfg (ntohl packet.remote.sAddr) = false ∨ mapped cfg packet = false →
      Rejected cfg env s packet
  | ownedElsewhere {p} : provisionGetTunnelByMac s (macText packet.mac) = some p →
      provisionGetTunnelByip s packet.remote ≠ some p → Rejected cfg env s packet
  | tunnelFull {p tun} : provisionGetTunnelByip s packet.remote = some p → s.heap p = some tun →
      maxClients ≤ tun.macs.size → Rejected cfg env s packet
  /-- No slot with a free name is left, and the lookups of the names say so. -/
  | noSlot : provisionGetTunnelByip s packet.remote = none → s.Full cfg →
      (∀ id < maxSlots, s.slots id = false → s.world.Resolves env (tunnelName cfg id)) →
      Rejected cfg env s packet

/-- A full tunnel is turned away before any command. -/
theorem provisionTunnelAllowMac_trace {p : Ptr} {tun : TunnelContext} {mac : CStr}
    (hp : s.heap p = some tun) (hfull : maxClients ≤ tun.macs.size) :
    wp (provisionTunnelAllowMac env p mac) (fun _ s' => s'.world.trace = s.world.trace) s := by
  simp only [provisionTunnelAllowMac, wp_bind, wp_get, deref_of_some hp]
  refine wp_ite (fun _ => rfl) (fun _ => ?_)
  refine wp_ite (fun _ => rfl) (fun _ => ?_)
  exact wp_ite (fun _ => rfl) (fun hroom => absurd hfull hroom)

theorem settle_trace {learned : Bool} {now : Int} :
    wp (settle learned now) (fun _ s' => s'.world.trace = s.world.trace) s :=
  wp_mono settle_spec fun _ s' hs' => by
    rw [hs']
    exact congrArg (fun c => c.world.trace) (abs_settled s learned now)

theorem learnPacket_trace_of_tunnelFull {remote : InAddr} {mac : CStr} {now : Int} {p : Ptr}
    {tun : TunnelContext} (hp : s.heap p = some tun) (hready : tun.ready = true)
    (hfull : maxClients ≤ tun.macs.size) :
    wp (learnPacket cfg env remote mac (some p) now)
      (fun _ s' => s'.world.trace = s.world.trace) s := by
  have hderef : (s.setErrno 0).deref p = tun := deref_of_some hp
  simp only [learnPacket, readyTunnel, allowOn, wp_bind, wp_modify, wp_get, wp_pure, hderef, hready,
    Option.any_some, if_true]
  refine wp_mono (provisionTunnelAllowMac_trace (s := s.setErrno 0) hp hfull) fun _ s₁ h₁ => ?_
  exact wp_mono settle_trace fun _ s₂ h₂ => h₂.trans h₁

theorem learnPacket_trace_of_noSlot {remote : InAddr} {mac : CStr} {now : Int}
    (hidle : s.cleanupPending = false) (hnone : provisionGetTunnelByip s remote = none)
    (hfull : s.Full cfg)
    (hnames : ∀ id < maxSlots, s.slots id = false → s.world.Resolves env (tunnelName cfg id)) :
    wp (learnPacket cfg env remote mac none now)
      (fun _ s' => s'.world.trace = s.world.trace) s := by
  have hidle₀ : (s.setErrno 0).cleanupPending = false := hidle
  have hnone₀ : provisionGetTunnelByip (s.setErrno 0) remote = none := hnone
  simp only [learnPacket, readyTunnel, wp_bind, wp_modify, wp_get, Option.any_none,
    Bool.false_eq_true, if_false, provisionAdd, addTunnel, hidle₀, hnone₀]
  refine wp_mono (findSlot_spec maxSlots (Nat.le_refl _)) fun out s₁ h => ?_
  rcases h with ⟨id, _, -, -, -, hid, hslot, hlink⟩ | ⟨rfl, rfl, -⟩
  · rcases hfull id hid with h | h
    · cases hslot.symm.trans h
    · cases (hlink (hnames id hid hslot)).symm.trans h
  · simp only [allowOn, wp_bind, wp_modify, wp_pure]
    exact wp_mono settle_trace fun _ s₂ h₂ => h₂

theorem Rejected.trace_eq {packet : PayloadPacket} (h : Rejected cfg env s packet)
    (htables : s.Tables cfg) :
    (exec cfg env s (.packet packet)).world.trace = s.world.trace := by
  -- a packet that passes every gate is turned away by a capacity limit
  refine wp_provisionPacket (Q := fun _ s' => s'.world.trace = s.world.trace) rfl rfl
    fun haccepts => ?_
  cases h with
  | pending hpend => cases haccepts.idle.symm.trans hpend
  | filtered hfilter =>
    rcases hfilter with h | h | h
    · cases haccepts.addressed.symm.trans h
    · cases haccepts.allowed.symm.trans h
    · cases haccepts.mapped.symm.trans h
  | ownedElsewhere howned => cases haccepts.unowned.symm.trans howned
  | @tunnelFull p tun hlookup hp hfull =>
    rw [hlookup]
    refine learnPacket_trace_of_tunnelFull (s := s.counted) hp ?_ hfull
    by_contra hready
    have hempty : tun.macs.keySet = ∅ :=
      htables.2 haccepts.idle (heap_abs_of_some hp) (Bool.of_not_eq_true hready)
    rw [← Hashmap.card_keySet, hempty] at hfull
    cases hfull
  | noSlot hnone hfull hnames =>
    rw [hnone]
    exact learnPacket_trace_of_noSlot (s := s.counted) haccepts.idle hnone hfull hnames

/-- In every state, a packet that counts as a failure or moves the backoff saw a
    command fail, and one that is turned away by a filter or a limit does neither. -/
theorem backoff_only_on_failure (cfg : SoftgredConfig) (env : Env) (w : World) (calls : List Call)
    (packet : PayloadPacket) :
    let s := run cfg env calls (provisionInit w)
    let s' := exec cfg env s (.packet packet)
    (s'.failures ≠ s.failures ∨ s'.retryAfter ≠ s.retryAfter → s.world.Fails s'.world) ∧
    (Rejected cfg env s packet → s'.failures = s.failures ∧ s'.retryAfter = s.retryAfter) := by
  intro s s'
  have htables : s.Tables cfg :=
    run_tables cfg env calls ⟨provisionInit_tables cfg w, provisionInit_idle w⟩
  have hhandles : Handles cfg packet s s' := exec_packet cfg env packet htables.1 htables.2
  refine ⟨fun hchange => ?_, fun hrejected => hhandles.backoff_eq fun hfails => ?_⟩
  · by_contra hno
    obtain ⟨hfailures, hretry⟩ := hhandles.backoff_eq hno
    exact hchange.elim (· hfailures) (· hretry)
  · exact hfails.trace_ne (hrejected.trace_eq htables)

namespace Sample

/-- Creates no tunnel link. -/
def unable : Env
  | .newGretap .., _ => ⟨false, some EAGAIN, 0⟩
  | _, _ => ⟨true, none, 0⟩

theorem start_suffix (env : Env) (call : Call) :
    (start env).world.trace <:+ (exec config env (start env) call).world.trace :=
  Core.trail_suffix (exec_trail config env call (start_tables env).1 (start_tables env).2)

end Sample

/-- A tunnel that cannot be created counts as a failure; a remote that claims the
    address of another does not. -/
theorem backoff_only_on_failure_sample :
    ((exec Sample.config Sample.unable (Sample.start Sample.unable)
        (.packet Sample.packet)).failures = 1 ∧
      (Sample.start Sample.unable).world.Fails
        (exec Sample.config Sample.unable (Sample.start Sample.unable) (.packet Sample.packet)).world) ∧
    (exec Sample.config Sample.obliging (run Sample.config Sample.obliging [.packet Sample.packet]
        (Sample.start Sample.obliging))
      (.packet { Sample.packet with remote := InAddr.ofBytes 10 0 0 3 })).failures = 0 := by
  refine ⟨⟨by decide +kernel, ?_⟩, ?_⟩
  · exact (backoff_only_on_failure Sample.config Sample.unable _ [] Sample.packet).1
      (.inl (by decide +kernel))
  · refine ((backoff_only_on_failure Sample.config Sample.obliging _ [.packet Sample.packet]
      { Sample.packet with remote := InAddr.ofBytes 10 0 0 3 }).2
      (.ownedElsewhere (p := 0) (by decide +kernel) (by decide +kernel))).1.trans ?_
    decide +kernel

/-! ## How long the backoff lasts -/

/-- No command issued between `w` and `w'` took any time, and the last error they
    reported was not the one that stands for a capacity limit. -/
def World.Prompt (w w' : World) : Prop :=
  ∃ evs, w'.trace = evs ++ w.trace ∧ (evs.map Event.elapsed).sum = 0 ∧ lastErrno evs ≠ some ENOSPC

/-- A packet from state `s` that fails keeps the daemon from issuing commands for
    one second after it returned: `later` calls lead to the state in which
    `packet'` arrives. -/
def BacksOff (cfg : SoftgredConfig) (env : Env) (s : Sys) (packet : PayloadPacket)
    (later : List Call) (packet' : PayloadPacket) : Prop :=
  let s₁ := exec cfg env s (.packet packet)
  let s₂ := run cfg env later s₁
  s.world.Fails s₁.world → provisionGetTunnelByMac s₁ (macText packet.mac) = none →
  (∀ call ∈ later, call.fromLoop = true) → Uncleared cfg env later s₁ →
  s₁.world.clock ≤ s₂.world.clock → s₂.world.clock < s₁.world.clock + usecPerSec →
  (exec cfg env s₂ (.packet packet')).world.trace = s₂.world.trace

/-- A failing attempt arms the backoff, unless `errno` says that a limit was met. -/
theorem Handles.armed {packet : PayloadPacket} (h : Handles cfg packet s s')
    (hsound : s'.world.EnodevSound) (hfails : s.world.Fails s'.world)
    (hunlearned : provisionGetTunnelByMac s' (macText packet.mac) = none)
    (hprompt : s.world.Prompt s'.world) :
    s'.retryAfter = s.world.clock + usecPerSec ∧ s'.world.clock = s.world.clock := by
  cases h with
  | ignored => exact absurd rfl hfails.trace_ne
  | passed => exact absurd rfl hfails.trace_ne
  | @tried learned s₁ _ hattempt =>
    have hworld : (s₁.settled learned s.world.clock).world = s₁.world :=
      congrArg Core.world (abs_settled s₁ learned s.world.clock)
    have hindex : (s₁.settled learned s.world.clock).macIndex.lookup (macText packet.mac) =
        s₁.macIndex.lookup (macText packet.mac) :=
      congrFun (congrArg (fun c => c.store.owner) (abs_settled s₁ learned s.world.clock)) _
    rw [hworld] at hsound hfails hprompt
    cases hattempt with
    | learned _ _ hlearned => cases (hindex.symm.trans hunlearned).symm.trans hlearned
    | full _ _ hsame =>
      rw [hsame hsound] at hfails
      exact absurd rfl hfails.trace_ne
    | failed hmoves =>
      obtain ⟨evs, htrace, hzero, herrno⟩ := hprompt
      obtain ⟨evs', hafter⟩ := Core.trail_after LearnsFor.busy hmoves.trail
      obtain rfl : evs' = evs := List.append_cancel_right (hafter.trace.symm.trans htrace)
      have hno : s₁.world.errno ≠ ENOSPC := by
        intro heq
        have hlast := hafter.errno heq
        cases hevs : lastErrno evs' with
        | none => rw [hevs] at hlast; cases hlast
        | some e => rw [hevs] at hlast; exact herrno (hevs.trans (congrArg some hlast))
      refine ⟨?_, ?_⟩
      · simp only [Sys.settled, Bool.false_eq_true, if_false, if_neg hno]
      · rw [hworld]
        have hclock := hafter.clock
        rw [hzero] at hclock
        exact hclock.trans (Int.add_zero _)

/-- The backoff is still armed until `deadline`, or that time has passed. -/
def Sys.Holding (deadline : Int) (s : Sys) : Prop :=
  s.retryAfter = deadline ∨ deadline ≤ s.world.clock

theorem exec_holding {call : Call} {deadline : Int} (hloop : call.fromLoop = true)
    (htables : s.Tables cfg)
    (huncleared : call = .delall → (exec cfg env s call).cleanupPending = true)
    (h : s.Holding deadline) : (exec cfg env s call).Holding deadline := by
  have hclock : s.world.clock ≤ (exec cfg env s call).world.clock :=
    Core.trail_clock_le (exec_trail cfg env call htables.1 htables.2)
  -- once the time has passed it stays so
  refine h.elim (fun hretry => ?_) fun hpast => .inr (hpast.trans hclock)
  cases call with
  | packet packet =>
    have hhandles := exec_packet cfg env packet htables.1 htables.2
    generalize exec cfg env s (.packet packet) = s' at *
    cases hhandles with
    | ignored => exact .inl hretry
    | passed => exact .inl hretry
    | tried haccepts => exact .inr ((hretry ▸ haccepts.due).trans hclock)
  | delall =>
    have hpend := huncleared rfl
    have hcleans := exec_delall cfg env s.world.kernel htables.1
    generalize exec cfg env s .delall = s' at *
    cases hcleans with
    | complete => cases hpend
    | incomplete hmoves => exact .inl (hmoves.backoff_eq.2.trans hretry)
  | wait => exact .inl hretry
  | add | allowMac | del => cases hloop

theorem run_holding {calls : List Call} {deadline : Int}
    (hloop : ∀ call ∈ calls, call.fromLoop = true) (htables : s.Tables cfg)
    (huncleared : Uncleared cfg env calls s) (h : s.Holding deadline) :
    (run cfg env calls s).Holding deadline := by
  induction calls generalizing s with
  | nil => exact h
  | cons call rest ih =>
    obtain ⟨hcall, hrest⟩ := List.forall_mem_cons.mp hloop
    exact ih hrest (exec_tables cfg env call htables) huncleared.2
      (exec_holding hcall htables huncleared.1 h)

/-- In every run, a packet that fails is followed by a second without commands, if
    its own commands took no time and did not end with `ENOSPC`, and no deletion of a
    link that is there has ended with `ENODEV`. -/
theorem backs_off_of_prompt (cfg : SoftgredConfig) (env : Env) (w : World) (calls : List Call)
    (packet : PayloadPacket) (later : List Call) (packet' : PayloadPacket)
    (hsound : (exec cfg env (run cfg env calls (provisionInit w)) (.packet packet)).world.EnodevSound)
    (hprompt : (run cfg env calls (provisionInit w)).world.Prompt
      (exec cfg env (run cfg env calls (provisionInit w)) (.packet packet)).world) :
    BacksOff cfg env (run cfg env calls (provisionInit w)) packet later packet' := by
  have htables : (run cfg env calls (provisionInit w)).Tables cfg :=
    run_tables cfg env calls ⟨provisionInit_tables cfg w, provisionInit_idle w⟩
  generalize run cfg env calls (provisionInit w) = s at *
  have htables₁ := exec_tables cfg env (.packet packet) htables
  have hhandles := exec_packet cfg env packet htables.1 htables.2
  rw [BacksOff]
  generalize exec cfg env s (.packet packet) = s₁ at *
  intro hfails hunlearned hloop huncleared _ hreading
  obtain ⟨hretry, hclock⟩ := hhandles.armed hsound hfails hunlearned hprompt
  have hholding := run_holding hloop htables₁ huncleared (.inl (hretry.trans (by rw [hclock])) :
    s₁.Holding (s₁.world.clock + usecPerSec))
  have htables₂ := run_tables cfg env later htables₁
  generalize run cfg env later s₁ = s₂ at *
  have hhandles₂ := exec_packet cfg env packet' htables₂.1 htables₂.2
  generalize exec cfg env s₂ (.packet packet') = s₃ at *
  cases hhandles₂ with
  | ignored => rfl
  | passed => rfl
  | tried haccepts =>
    -- the gate is closed
    rcases hholding with h | h
    · exact absurd (h ▸ haccepts.due) (Int.not_le.mpr hreading)
    · exact absurd h (Int.not_le.mpr hreading)

/-- A tunnel cannot be created, and the next packet comes half a second later. -/
theorem backs_off_of_prompt_unable :
    (exec Sample.config Sample.unable (Sample.start Sample.unable)
      (.packet Sample.packet)).failures = 1 ∧
    BacksOff Sample.config Sample.unable (Sample.start Sample.unable) Sample.packet [.wait 500000]
      Sample.packet :=
  ⟨by decide +kernel, backs_off_of_prompt Sample.config Sample.unable _ [] Sample.packet
    [.wait 500000] Sample.packet (by decide +kernel)
    ⟨_, World.since_append (Sample.start_suffix Sample.unable _), by decide +kernel,
      by decide +kernel⟩⟩

/-! ## When it does not -/

namespace Sample

/-- Takes its time to refuse the egress rule of an address. -/
def slow : Env
  | .insert .filter .softgreOut _, _ => ⟨false, none, 600000⟩
  | _, _ => ⟨true, none, 0⟩

/-- Creates no tunnel link, for lack of space. -/
def crowded : Env
  | .newGretap .., _ => ⟨false, some ENOSPC, 0⟩
  | _, _ => ⟨true, none, 0⟩

end Sample

/-- The call returns at 0.6 s and commands are issued again at 1.1 s; with `ENOSPC`
    they are issued again at once. -/
theorem not_backs_off :
    ¬ BacksOff Sample.config Sample.slow (Sample.start Sample.slow) Sample.packet [.wait 500000]
      Sample.packet ∧
    ¬ BacksOff Sample.config Sample.crowded (Sample.start Sample.crowded) Sample.packet []
      Sample.packet := by
  constructor
  · intro h
    have htrace := h (World.fails_of_since (Sample.start_suffix _ _) (by decide +kernel))
      (by decide +kernel) (by decide) ⟨nofun, trivial⟩ (by decide +kernel) (by decide +kernel)
    exact absurd (congrArg List.length htrace) (by decide +kernel)
  · intro h
    have htrace := h (World.fails_of_since (Sample.start_suffix _ _) (by decide +kernel))
      (by decide +kernel) nofun trivial (by decide +kernel) (by decide +kernel)
    exact absurd (congrArg List.length htrace) (by decide +kernel)

end Softgre
