-- SUMMARY: The main loop of `softgred.c`: signals, captured frames and status rounds in one run.
import Softgre.Service.Delivery
import Softgre.Service.Answers
import Softgre.Payload.Exact

/-!
# The main loop

One round of the loop in `main` polls the signal descriptor, the capture socket and
the status server, and then handles them in this order. Signals and frames change
the provisioning state; the commands of the status server are answered in what they
have led to.

What the outside world does in a round is `LoopRound`. The log of a run tells what
the daemon took in and what it did on its connections, in the order of the source.
-/

namespace Softgre

-- ---------------------------------------------------------------------------
-- One round
-- ---------------------------------------------------------------------------

/-- What `recvfrom` returns on the capture socket; `again` is `EAGAIN` or `EINTR`. -/
inductive Capture where
  | frame (outgoing : Bool) (data : List UInt8)
  | again
  | fail

/-- How opening something ends that has to be set up or checked behind `open`. -/
inductive Opening where
  | unavailable
  /-- It was opened, and closed again. -/
  | unusable
  | ready
deriving DecidableEq, Repr

/-- What `signalfd` reports: `SIGHUP`, with how `log_open` ends, `SIGUSR1`, `SIGUSR2`,
    or one of the signals that stop the daemon. -/
inductive Signal where
  | hup (log : Opening)
  | usr1 | usr2 | stop

/-- How `poll` returns; a timeout is `ready` with no events. -/
inductive Polled where
  | ready | interrupted | failed

/-- What the outside world does in one round: `elapsed` microseconds pass in `poll`,
    and then come the signals, the frames, and the sockets of the status server. A
    queue that is used up is `EAGAIN`. -/
structure LoopRound where
  elapsed : Nat
  polled : Polled
  signalled : Bool
  signals : List Signal
  capture : Flags
  captures : List Capture
  outside : Outside

/-- What the main loop works on. -/
structure Daemon where
  sys : Sys
  service : Service

/-- An entry of the log: something the provisioning code takes in, something done on a
    connection, or a call of `log_open`. -/
inductive Happening where
  | took (input : Input)
  | did (deed : Deed)
  | reopened (log : Opening)

/-- The requests for a cleanup among the signals. -/
def signalInputs (signals : List Signal) : List Input :=
  signals.filterMap fun
    | .usr1 => some .delall
    | _ => none

/-- What the signals are in the log. -/
def signalLog (signals : List Signal) : List Happening :=
  signals.filterMap fun
    | .hup log => some (.reopened log)
    | .usr1 => some (.took .delall)
    | .usr2 | .stop => none

/-- The frames that `payload_receive` parses, with the number it may still read. -/
def frameInputs : Nat → List Capture → List Input
  | left + 1, .frame outgoing data :: rest =>
    (if outgoing then [] else [.frame data]) ++ frameInputs left rest
  | _, _ => []

section Round

variable (host : HostInfo) (cfg : SoftgredConfig) (env : Env)

/-- The loop over the signals. It returns whether the daemon goes on; a signal that
    stops it does not keep the others from being handled. -/
def handleSignals : List Signal → ProvM Bool
  | [] => return true
  | .usr1 :: rest => do
    provisionDelall env
    handleSignals rest
  -- the log is opened again, the counters are written to it
  | .hup _ :: rest | .usr2 :: rest => handleSignals rest
  | .stop :: rest => do
    discard (handleSignals rest)
    return false

/-- `payload_receive`, with the number of frames that it may still read. -/
def payloadReceive : Nat → List Capture → StateT Sys (Except Fault) Ret
  | left + 1, .frame outgoing data :: rest => do
    if !outgoing then
      if let some packet ← (payloadParse data : Except Fault _) then
        modify fun s => ((provisionPacket cfg env packet).run s).2
    payloadReceive left rest
  | _ + 1, .fail :: _ => return .fail
  | _, _ => return .ok

/-- `POLLERR`, `POLLHUP` or `POLLNVAL`. -/
def Flags.broken (f : Flags) : Bool := f.pollerr || f.pollhup || f.pollnval

/-- The status server polls and answers at the time the provisioning state has. -/
def LoopRound.outsideAt (r : LoopRound) (s : Sys) : Outside := { r.outside with now := s.world.clock }

/-- The body of the loop, with its log. The result is how `main` leaves the loop, if
    it does. -/
def loopRound (r : LoopRound) (d : Daemon) :
    Except Fault (Daemon × List Happening × Option Ret) := do
  let (service, fds, count) ← servicePollfds d.service pollArray
  let sys := ((Call.wait r.elapsed).program cfg env |>.run d.sys).2
  let log := [.took (.wait r.elapsed)]
  match r.polled with
  | .interrupted => return (⟨sys, service⟩, log, none)
  | .failed => return (⟨sys, service⟩, log, some .fail)
  | .ready =>
    let signals := if r.signalled then r.signals else []
    let (running, sys) := (handleSignals env signals).run sys
    let log := log ++ signalLog signals
    if !running then return (⟨sys, service⟩, log, some .ok)
    if r.capture.broken then return (⟨sys, service⟩, log, some .fail)
    let captures := if r.capture.pollin then r.captures else []
    let (ret, sys) ← (payloadReceive cfg env 64 captures).run sys
    let log := log ++ (frameInputs 64 captures).map .took
    if ret = .fail then return (⟨sys, service⟩, log, some .fail)
    let o := r.outsideAt sys
    let deeds ← roundDeeds (answer host sys) o d.service
    let (service, _) ← serviceDispatch (answer host sys) o service (fds.map o.fill) count
    return (⟨sys, service⟩, log ++ deeds.map .did, none)

/-- Rounds until the loop is left, with the log of all of them. -/
def mainLoop : List LoopRound → Daemon → Except Fault (Daemon × List Happening × Option Ret)
  | [], d => return (d, [], none)
  | r :: rest, d => do
    let (d, log, exit) ← loopRound host cfg env r d
    if exit.isSome then return (d, log, exit)
    let (d, more, exit) ← mainLoop rest d
    return (d, log ++ more, exit)

end Round

-- ---------------------------------------------------------------------------
-- What a round amounts to
-- ---------------------------------------------------------------------------

def Happening.input? : Happening → Option Input
  | .took input => some input
  | .did _ | .reopened _ => none

def Happening.deed? : Happening → Option Deed
  | .did deed => some deed
  | .took _ | .reopened _ => none

/-- What the daemon took in. -/
def inputsOf (log : List Happening) : List Input := log.filterMap Happening.input?

/-- What it did on its connections. -/
def deedsOf (log : List Happening) : List Deed := log.filterMap Happening.deed?

section Amounts

variable {host : HostInfo} {cfg : SoftgredConfig} {env : Env} {s : Sys} {log more : List Happening}

theorem inputsOf_append : inputsOf (log ++ more) = inputsOf log ++ inputsOf more :=
  List.filterMap_append

theorem deedsOf_append : deedsOf (log ++ more) = deedsOf log ++ deedsOf more :=
  List.filterMap_append

@[simp] theorem inputsOf_took (inputs : List Input) : inputsOf (inputs.map .took) = inputs := by
  simp [inputsOf, Happening.input?, List.filterMap_map, Function.comp_def]

@[simp] theorem inputsOf_did (deeds : List Deed) : inputsOf (deeds.map .did) = [] := by
  simp [inputsOf, Happening.input?]

@[simp] theorem deedsOf_took (inputs : List Input) : deedsOf (inputs.map .took) = [] := by
  simp [deedsOf, Happening.deed?]

@[simp] theorem deedsOf_did (deeds : List Deed) : deedsOf (deeds.map .did) = deeds := by
  simp [deedsOf, Happening.deed?, List.filterMap_map, Function.comp_def]

@[simp] theorem inputsOf_signalLog (signals : List Signal) :
    inputsOf (signalLog signals) = signalInputs signals := by
  rw [inputsOf, signalLog, List.filterMap_filterMap, signalInputs]
  congr 1
  funext signal
  cases signal <;> rfl

@[simp] theorem deedsOf_signalLog (signals : List Signal) : deedsOf (signalLog signals) = [] := by
  rw [deedsOf, signalLog, List.filterMap_filterMap]
  refine List.filterMap_eq_nil_iff.mpr fun signal _ => ?_
  cases signal <;> rfl

theorem feed_cons (input : Input) (inputs : List Input) :
    feed cfg env (input :: inputs) s = feed cfg env inputs (run cfg env input.calls s) := by
  rw [← List.singleton_append, feed_append, feed_singleton]

variable (cfg) in
/-- All signals are handled, those behind one that stops the daemon too. -/
theorem handleSignals_run (signals : List Signal) :
    ((handleSignals env signals).run s).2 = feed cfg env (signalInputs signals) s := by
  induction signals generalizing s with
  | nil => rfl
  | cons signal rest ih =>
    cases signal with
    | usr1 =>
      show ((handleSignals env rest).run ((provisionDelall env).run s).2).2 = _
      rw [ih]
      exact (@feed_cons cfg env _ Input.delall (signalInputs rest)).symm
    | hup | usr2 | stop => exact ih

/-- The frames are parsed and learned from one by one. -/
theorem payloadReceive_run (left : Nat) (captures : List Capture) :
    ∃ ret, (payloadReceive cfg env left captures).run s =
      .ok (ret, feed cfg env (frameInputs left captures) s) := by
  induction left generalizing captures s with
  | zero => exact ⟨.ok, by cases captures <;> rfl⟩
  | succ left ih =>
    cases captures with
    | nil => exact ⟨.ok, rfl⟩
    | cons capture rest =>
      cases capture with
      | again => exact ⟨.ok, rfl⟩
      | fail => exact ⟨.fail, rfl⟩
      | frame outgoing data =>
        cases outgoing with
        | true => exact ih rest
        | false =>
          obtain ⟨parsed, hparse, -⟩ := payloadParse_decides data
          obtain ⟨ret, hrest⟩ := ih (s := run cfg env (Input.frame data).calls s) rest
          refine ⟨ret, ?_⟩
          rw [frameInputs, if_neg Bool.false_ne_true, List.singleton_append, feed_cons, ← hrest,
            Input.calls, payloadReceive]
          simp only [Bool.not_false, if_true, hparse]
          cases parsed <;> rfl

/-- Polling changes the list of slots only, and is the first half of a round. -/
theorem Service.Ok.polls {s : Service} (hok : s.Ok) {listener : Nat}
    (hlistener : s.listener = some listener) :
    ∃ slots fds count, slots.length = serviceMaxClients ∧
      servicePollfds s pollArray = .ok ({ s with pollSlots := slots }, fds, count) ∧
      ∀ command o, serviceRound command o s =
        serviceDispatch command o { s with pollSlots := slots } (fds.map o.fill) count := by
  have hpoll := Softgre.servicePollfds_eq hok hlistener
  refine ⟨_, _, _, ?_, hpoll, fun command o => ?_⟩
  · rw [length_overwrite, hok.slots_length]
    rw [hok.slots_length, Nat.zero_add]
    exact (length_openSlots_le s).trans hok.limit_le
  · rw [serviceRound, ← pollArray, hpoll, ok_bind]

variable (host cfg env) in
/-- How a round ends: before the status server gets its turn, or behind it. -/
inductive Amounts (r : LoopRound) (d : Daemon) : Daemon → List Happening → Option Ret → Prop
  | stops (log : List Happening) (hquiet : deedsOf log = []) (exit : Option Ret) (slots : List Nat)
    (hslots : slots.length = serviceMaxClients) :
    Amounts r d ⟨feed cfg env (inputsOf log) d.sys, { d.service with pollSlots := slots }⟩ log exit
  | serves (log : List Happening) (hquiet : deedsOf log = []) {service : Service}
    {events : List ServiceEvent} {deeds : List Deed}
    (hround : serviceRound (answer host (feed cfg env (inputsOf log) d.sys))
      (r.outsideAt (feed cfg env (inputsOf log) d.sys)) d.service = .ok (service, events))
    (hdeeds : roundDeeds (answer host (feed cfg env (inputsOf log) d.sys))
      (r.outsideAt (feed cfg env (inputsOf log) d.sys)) d.service = .ok deeds) :
    Amounts r d ⟨feed cfg env (inputsOf log) d.sys, service⟩ (log ++ deeds.map .did) none

variable (host cfg env) in
/-- Every round goes through. -/
theorem loopRound_amounts (r : LoopRound) {d : Daemon} (hok : d.service.Ok) {listener : Nat}
    (hlistener : d.service.listener = some listener) :
    ∃ d' log exit, loopRound host cfg env r d = .ok (d', log, exit) ∧
      Amounts host cfg env r d d' log exit := by
  obtain ⟨slots, fds, count, hslots, hpoll, hdispatch⟩ := hok.polls hlistener
  have hstops := fun log hquiet exit =>
    @Amounts.stops host cfg env r d log hquiet exit slots hslots
  rw [loopRound, hpoll, ok_bind]
  cases r.polled with
  | interrupted => exact ⟨_, _, _, rfl, hstops [.took (.wait r.elapsed)] rfl none⟩
  | failed => exact ⟨_, _, _, rfl, hstops [.took (.wait r.elapsed)] rfl (some .fail)⟩
  | ready =>
    dsimp only
    generalize (if r.signalled then r.signals else []) = signals
    generalize (if r.capture.pollin then r.captures else []) = captures
    have hsignals := @handleSignals_run cfg env (feed cfg env [.wait r.elapsed] d.sys) signals
    have hinputs : inputsOf (.took (.wait r.elapsed) :: signalLog signals) =
        .wait r.elapsed :: signalInputs signals := congrArg (_ :: ·) (inputsOf_signalLog signals)
    have hquiet : deedsOf (.took (.wait r.elapsed) :: signalLog signals) = [] :=
      deedsOf_signalLog signals
    rw [← feed_append, List.singleton_append, ← hinputs] at hsignals
    rw [show ((Call.program cfg env (.wait r.elapsed)).run d.sys).2 =
      feed cfg env [.wait r.elapsed] d.sys from rfl, List.singleton_append]
    generalize .took (.wait r.elapsed) :: signalLog signals = log at hsignals hquiet ⊢
    generalize (handleSignals env signals).run (feed cfg env [.wait r.elapsed] d.sys) = handled
      at hsignals ⊢
    obtain ⟨running, sys⟩ := handled
    dsimp only at hsignals ⊢
    subst hsignals
    cases running with
    | false => exact ⟨_, _, _, rfl, hstops log hquiet (some .ok)⟩
    | true =>
      simp only [Bool.not_true, Bool.false_eq_true, if_false]
      split
      · exact ⟨_, _, _, rfl, hstops log hquiet (some .fail)⟩
      obtain ⟨ret, hreceive⟩ := @payloadReceive_run cfg env (feed cfg env (inputsOf log) d.sys) 64
        captures
      have hinputs' : inputsOf (log ++ (frameInputs 64 captures).map .took) =
          inputsOf log ++ frameInputs 64 captures := by rw [inputsOf_append, inputsOf_took]
      have hquiet' : deedsOf (log ++ (frameInputs 64 captures).map .took) = [] := by
        rw [deedsOf_append, hquiet, deedsOf_took, List.append_nil]
      rw [hreceive, ok_bind, ← feed_append, ← hinputs']
      generalize log ++ (frameInputs 64 captures).map .took = log' at hquiet' ⊢
      dsimp only
      split
      · exact ⟨_, _, _, rfl, hstops log' hquiet' (some .fail)⟩
      · obtain ⟨service, events, hround, -⟩ := serviceRound_follows
          (answer host (feed cfg env (inputsOf log') d.sys))
          (r.outsideAt (feed cfg env (inputsOf log') d.sys)) hok hlistener
        obtain ⟨accepted, admitted, hdeeds, -⟩ := roundDeeds_eq hok hlistener hround
        rw [hdeeds, ok_bind, ← hdispatch, hround, ok_bind]
        exact ⟨_, _, _, rfl, .serves log' hquiet' hround hdeeds⟩

end Amounts

end Softgre
