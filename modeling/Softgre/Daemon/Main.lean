-- SUMMARY: The whole of `main` after the configuration: what it opens, when it works on the kernel, how it ends.
import Softgre.Base.Held
import Softgre.Daemon.Bulk
import Softgre.Daemon.Conversations
import Softgre.Daemon.Restore

/-!
# From start to end

`main` opens one thing after the other and jumps to `end:` when something fails.
What is cleaned up there is decided by variables: descriptors that are not -1, and
the two flags for the firewall and the tables. Any step of the start may fail, which
is what `Startup` tells; the loop may end in any of its ways.

The log has what `main` does to its descriptors and to those of the clients, its work
on the kernel and what it tells the process that started it, newest first. Descriptors
that are opened and closed within one call, like those of the helpers and of netlink,
are not in it.
-/

namespace Softgre

open Base

-- ---------------------------------------------------------------------------
-- The process
-- ---------------------------------------------------------------------------

/-- What the process holds a descriptor of; `reader` and `notify` are the two ends of
    the pipe to the parent, `null` is `/dev/null`, and `log n` is the log file as it was
    opened behind `n` others. -/
inductive Held where
  | log (older : Nat)
  | reader | notify | null | pid | signals | capture | listener
  | client (fd : Nat)
deriving DecidableEq, Repr

/-- The parts of `main` that work on the kernel. -/
inductive Work where
  | bridges | firewall | loop | tunnels | chains
deriving DecidableEq, Repr

inductive Milestone where
  | use (use : Use Held)
  | works (work : Work) (before after : World)
  /-- One byte to the parent. -/
  | tells (status : Nat)

/-- `logs` is how often the log was replaced: `log_fd` is that of `log logs`. -/
structure Process where
  held : Held → Bool
  logs : Nat
  provisionReady : Bool
  firewallReady : Bool
  sys : Sys
  log : List Milestone

abbrev MainM := StateM Process

namespace Process

def take (x : Held) (p : Process) : Process :=
  { p with held := Function.update p.held x true, log := .use (.acquire x) :: p.log }

def give (x : Held) (p : Process) : Process :=
  { p with held := Function.update p.held x false, log := .use (.release x) :: p.log }

end Process

/-- Before `main`, with the kernel as the host has it. -/
def Process.initial (host : Kernel) (errno : Errno) (clock : Int) : Process where
  held _ := false
  logs := 0
  provisionReady := false
  firewallReady := false
  sys := provisionInit ⟨host, [], errno, clock, false⟩
  log := []

/-- `open` and `dup2` of `/dev/null`. -/
inductive NullDevice where
  | unavailable
  /-- `dup2` fails. -/
  | stuck
  /-- It was opened as the standard input. -/
  | isStdin
  | copied
deriving DecidableEq, Repr

/-- The options of `main`, and how each of its steps before the loop ends. -/
structure Startup where
  isForeground : Bool
  bridgeForce : Bool
  isRoot : Bool
  log : Opening
  hasAddress : Bool
  pipe : Bool
  fork : Bool
  setsid : Bool
  null : NullDevice
  pidFile : Opening
  sigprocmask : Bool
  signalfd : Bool
  capture : Opening
  listener : Opening
  bridge : CStr → BridgeReply
  /-- The bytes to the parent can be written. -/
  reports : Bool
  reportsFailure : Bool

section Main

variable (host : HostInfo) (cfg : SoftgredConfig) (env : Env) (o : Startup)

def openHeld (x : Held) : Opening → MainM Bool
  | .unavailable => return false
  | .unusable => do
    modify (Process.take x)
    modify (Process.give x)
    return false
  | .ready => do
    modify (Process.take x)
    return true

/-- `close`, unless the variable is -1. -/
def closeHeld (x : Held) : MainM Unit := do
  if (← get).held x then modify (Process.give x)

/-- `log_close`. -/
def closeLog : MainM Unit := do
  closeHeld (.log (← get).logs)

/-- `log_open`, when the log is open already. -/
def reopenLog (log : Opening) : MainM Unit := do
  if ← openHeld (.log ((← get).logs + 1)) log then
    closeLog
    modify fun p => { p with logs := p.logs + 1 }

/-- What an event of the status server does to the descriptors. -/
def noteEvent : ServiceEvent → MainM Unit
  | .accepted fd => modify (Process.take (.client fd))
  | .closed fd => modify (Process.give (.client fd))
  | .applied .. | .recv _ | .answered .. => return ()

/-- What an entry of the loop's log does to them. -/
def noteHappening : Happening → MainM Unit
  | .took _ => return ()
  | .did deed => deed.events.forM noteEvent
  | .reopened log => reopenLog log

/-- Work on the kernel. -/
def works {α : Type} (work : Work) (m : ProvM α) : MainM α := fun p =>
  ((m.run p.sys).1, { p with
    sys := (m.run p.sys).2
    log := .works work p.sys.world (m.run p.sys).2.world :: p.log })

/-- From `geteuid` to `local_address`. -/
def beginLog : MainM Bool := do
  if !o.isRoot then return false
  if !(← openHeld (.log 0) o.log) then return false
  return o.hasAddress

/-- Behind `fork`, in the child. -/
def becomeChild : MainM Bool := do
  modify (Process.give .reader)
  if !o.setsid then return false
  match o.null with
  | .unavailable => return false
  | .stuck =>
    modify (Process.take .null)
    return false
  | .isStdin =>
    modify (Process.take .null)
    return true
  | .copied =>
    modify (Process.take .null)
    modify (Process.give .null)
    return true

def daemonize : MainM Bool := do
  if o.isForeground then return true
  if !o.pipe then return false
  modify (Process.take .reader)
  modify (Process.take .notify)
  if !o.fork then
    modify (Process.give .reader)
    modify (Process.give .notify)
    return false
  becomeChild o

/-- From `sigprocmask` to `service_init`. -/
def openSources : MainM Bool := do
  if !o.sigprocmask then return false
  if !o.signalfd then return false
  modify (Process.take .signals)
  if !(← openHeld .capture o.capture) then return false
  openHeld .listener o.listener

def prepareBridges : List TunnelBridge → WorldM Ret
  | [] => return .ok
  | b :: rest => do
    match ← ifaceBridgePrepare env (o.bridge b.ifname) o.bridgeForce b.ifname with
    | .fail => return .fail
    | .ok => prepareBridges rest

/-- The firewall and the tables. -/
def setUp : MainM Bool := do
  match ← works .firewall (lift (ifaceEbtablesInit env)) with
  | .fail => return false
  | .ok =>
    modify fun p => { p with
      firewallReady := true
      sys := provisionInit p.sys.world
      provisionReady := true }
    return true

/-- Tell the parent that the daemon is up. -/
def report : MainM Bool := do
  if (← get).held .notify then
    if !o.reports then return false
    modify fun p => { p with log := .tells 0 :: p.log }
    modify (Process.give .notify)
  return true

/-- Everything that is opened before the kernel is touched. -/
def openAll : MainM Bool := do
  if !(← beginLog o) then return false
  if !(← daemonize o) then return false
  if !(← openHeld .pid o.pidFile) then return false
  openSources o

/-- Everything before the loop; the result is whether the loop is entered. -/
def startup : MainM Bool := do
  if !(← openAll o) then return false
  match ← works .bridges (lift (prepareBridges env o cfg.bridge)) with
  | .fail => return false
  | .ok =>
    if !(← setUp env) then return false
    report o

/-- `provision_end`, if there is something to end. -/
def endProvision : MainM Unit := do
  if (← get).provisionReady then works .tunnels (provisionEnd env)

/-- `iface_ebtables_end` likewise, which decides on the exit status too. -/
def endFirewall (result : Ret) : MainM Ret := do
  if (← get).firewallReady then
    match ← works .chains (lift (ifaceEbtablesEnd env)) with
    | .fail => return .fail
    | .ok => return result
  else return result

/-- A parent that still waits is told of the failure. -/
def reportFailure : MainM Unit := do
  if (← get).held .notify then
    if o.reportsFailure then modify fun p => { p with log := .tells 1 :: p.log }
    modify (Process.give .notify)

/-- Behind `end:`, with the clients that `service_end` closes. -/
def atEnd (closed : List ServiceEvent) (result : Ret) : MainM Ret := do
  closed.forM noteEvent
  closeHeld .listener
  closeHeld .capture
  endProvision env
  let result ← endFirewall env result
  closeHeld .signals
  closeHeld .pid
  reportFailure o
  closeLog
  return result

/-- The status server as the start leaves it. -/
def Process.service (listener limit : Nat) (p : Process) : Service :=
  { serviceInit listener limit with listener := if p.held .listener then some listener else none }

/-- The process behind the loop. -/
def Process.behindLoop (log : List Happening) (sys : Sys) (p : Process) : Process :=
  ((log.forM noteHappening).run
    { p with sys := sys, log := .works .loop p.sys.world sys.world :: p.log }).2

/-- `main` behind the configuration, in the process that becomes the daemon. There is
    no result while it is still in its loop. -/
def main (listener limit : Nat) (rounds : List LoopRound) (p : Process) :
    Except Fault (Option Ret × Process) := do
  let (entered, p) := (startup cfg env o).run p
  if !entered then
    let (_, closed) ← serviceEnd (p.service listener limit)
    let (result, p) := (atEnd env o closed .fail).run p
    return (some result, p)
  let (d, log, exit) ← mainLoop host cfg env rounds ⟨p.sys, serviceInit listener limit⟩
  let p := p.behindLoop log d.sys
  match exit with
  | none => return (none, p)
  | some exit =>
    let (_, closed) ← serviceEnd d.service
    let (result, p) := (atEnd env o closed exit).run p
    return (some result, p)

/-- `main` in the parent, behind `fork`, with the byte that it reads. -/
def parent (got : Option Nat) : MainM Nat := do
  modify (Process.give .notify)
  modify (Process.give .reader)
  closeLog
  return got.getD 1

end Main

-- ---------------------------------------------------------------------------
-- Descriptors
-- ---------------------------------------------------------------------------

def Milestone.use? : Milestone → Option (Use Held)
  | .use u => some u
  | _ => none

def Milestone.status? : Milestone → Option Nat
  | .tells status => some status
  | _ => none

def usesOf (log : List Milestone) : List (Use Held) := log.filterMap Milestone.use?

/-- What the parent has been told, newest first. -/
def toldOf (log : List Milestone) : List Nat := log.filterMap Milestone.status?

/-- All work on the kernel was done with the PID file in hand. -/
def Guarded : List Milestone → Prop
  | [] => True
  | .works .. :: older => heldAfter .pid (usesOf older) = some true ∧ Guarded older
  | .use _ :: older | .tells _ :: older => Guarded older

theorem Guarded.behind {newer older : List Milestone} {work : Work} {before after : World}
    (h : Guarded (newer ++ .works work before after :: older)) :
    heldAfter .pid (usesOf older) = some true := by
  induction newer with
  | nil => exact h.1
  | cons m newer ih =>
    cases m with
    | use | tells => exact ih h
    | works => exact ih h.2

namespace Process

variable {p p' p'' : Process} {x : Held} {S T : List Held}

@[simp] theorem held_take (y : Held) : (p.take x).held y = if y = x then true else p.held y :=
  Function.update_apply ..

@[simp] theorem held_give (y : Held) : (p.give x).held y = if y = x then false else p.held y :=
  Function.update_apply ..

/-- Nothing happens but to the descriptors in `S`. -/
structure Uses (S : List Held) (p p' : Process) : Prop where
  held : ∀ x ∉ S, p'.held x = p.held x
  logs : p'.logs = p.logs
  provisionReady : p'.provisionReady = p.provisionReady
  firewallReady : p'.firewallReady = p.firewallReady
  sys : p'.sys = p.sys
  log : ∃ new : List (Use Held), p'.log = new.map .use ++ p.log
  accounts : Accounts p.held (usesOf p.log) → Accounts p'.held (usesOf p'.log)

namespace Uses

theorem refl : p.Uses S p where
  held _ _ := rfl
  logs := rfl
  provisionReady := rfl
  firewallReady := rfl
  sys := rfl
  log := ⟨[], rfl⟩
  accounts := id

theorem trans (h : p.Uses S p') (h' : p'.Uses T p'') : p.Uses (S ++ T) p'' where
  held x hx := by
    rw [List.mem_append, not_or] at hx
    exact (h'.held x hx.2).trans (h.held x hx.1)
  logs := h'.logs.trans h.logs
  provisionReady := h'.provisionReady.trans h.provisionReady
  firewallReady := h'.firewallReady.trans h.firewallReady
  sys := h'.sys.trans h.sys
  log := by
    obtain ⟨new, hlog⟩ := h.log
    obtain ⟨new', hlog'⟩ := h'.log
    exact ⟨new' ++ new, by rw [hlog', hlog, List.map_append, List.append_assoc]⟩
  accounts haccounts := h'.accounts (h.accounts haccounts)

theorem mono (h : p.Uses S p') (hST : S ⊆ T) : p.Uses T p' :=
  { h with held := fun x hx => h.held x fun hmem => hx (hST hmem) }

theorem take (hfree : p.held x = false) : p.Uses [x] (p.take x) where
  held y hy := by rw [held_take, if_neg fun h => hy (List.mem_singleton.mpr h)]
  logs := rfl
  provisionReady := rfl
  firewallReady := rfl
  sys := rfl
  log := ⟨[.acquire x], rfl⟩
  accounts h := h.acquire hfree

theorem give (hheld : p.held x = true) : p.Uses [x] (p.give x) where
  held y hy := by rw [held_give, if_neg fun h => hy (List.mem_singleton.mpr h)]
  logs := rfl
  provisionReady := rfl
  firewallReady := rfl
  sys := rfl
  log := ⟨[.release x], rfl⟩
  accounts h := h.release hheld

theorem told (h : p.Uses S p') : toldOf p'.log = toldOf p.log := by
  obtain ⟨new, hlog⟩ := h.log
  rw [hlog, toldOf, List.filterMap_append, List.filterMap_map]
  have hnone : Milestone.status? ∘ .use = fun _ : Use Held => none := rfl
  rw [hnone, List.filterMap_none, List.nil_append]
  rfl

theorem guarded (h : p.Uses S p') (hguarded : Guarded p.log) : Guarded p'.log := by
  obtain ⟨new, hlog⟩ := h.log
  rw [hlog]
  clear hlog
  induction new with
  | nil => exact hguarded
  | cons u new ih => exact ih

end Uses

end Process

/-- Opening something that turns out to be of no use. -/
theorem Process.Uses.touch {p : Process} {x : Held} (hfree : p.held x = false) :
    p.Uses [x] ((p.take x).give x) :=
  ((Uses.take hfree).trans (Uses.give (by rw [held_take, if_pos rfl]))).mono (by simp)

/-- A stage that touches the descriptors in `S`, which are closed when it begins. -/
def Touches {α : Type} (S : List Held) (m : MainM α) : Prop :=
  ∀ p : Process, (∀ x ∈ S, p.held x = false) → wp m (fun _ p' => p.Uses S p') p

namespace Stage

variable {α β : Type} {S T : List Held}

theorem pure (a : α) : Touches S (Pure.pure a : MainM α) := fun _ _ => .mono .refl (List.nil_subset S)

theorem ite {c : Prop} [Decidable c] {m n : MainM α} (hm : Touches S m) (hn : Touches S n) :
    Touches S (if c then m else n) := by
  split
  · exact hm
  · exact hn

/-- Stages that touch different descriptors follow on one another. -/
theorem bind {m : MainM α} {f : α → MainM β} (hST : ∀ x ∈ T, x ∉ S) (hm : Touches S m)
    (hf : ∀ a, Touches T (f a)) : Touches (S ++ T) (m >>= f) := by
  intro p hfree
  rw [wp_bind]
  refine wp_mono (hm p fun x hx => hfree x (List.mem_append_left _ hx)) fun a p₁ h => ?_
  refine wp_mono (hf a p₁ fun x hx => ?_) fun _ _ h' => h.trans h'
  rw [h.held x (hST x hx)]
  exact hfree x (List.mem_append_right _ hx)

theorem take (x : Held) : Touches [x] (modify (Process.take x)) :=
  fun _ hfree => Process.Uses.take (hfree x (List.mem_singleton_self x))

end Stage

theorem openHeld_touches (x : Held) (opening : Opening) : Touches [x] (openHeld x opening) := by
  intro p hfree
  have hfree : p.held x = false := hfree x (List.mem_singleton_self x)
  cases opening with
  | unavailable => exact .mono .refl (List.nil_subset _)
  | unusable => exact .touch hfree
  | ready => exact .take hfree

theorem openHeld_held (x : Held) (opening : Opening) (p : Process) :
    wp (openHeld x opening) (fun ok p' => ok = true → p'.held x = true) p := by
  cases opening with
  | unavailable | unusable => exact nofun
  | ready =>
    intro _
    show (p.take x).held x = true
    simp

section Stages

variable {host : HostInfo} {cfg : SoftgredConfig} {env : Env} {o : Startup}

theorem beginLog_touches : Touches [.log 0] (beginLog o) := by
  refine Stage.ite (Stage.pure _) ?_
  exact Stage.bind (T := []) (by simp) (openHeld_touches _ _) fun _ =>
    Stage.ite (Stage.pure _) (Stage.pure _)

theorem openSources_touches : Touches [.signals, .capture, .listener] (openSources o) := by
  refine Stage.ite (Stage.pure _) (Stage.ite (Stage.pure _) ?_)
  refine Stage.bind (T := [.capture, .listener]) (by decide) (Stage.take _) fun _ => ?_
  refine Stage.bind (T := [.listener]) (by decide) (openHeld_touches _ _) fun ok => ?_
  exact Stage.ite (Stage.pure _) (openHeld_touches _ _)

theorem becomeChild_touches : Touches [.null] (do
    if !o.setsid then return false
    match o.null with
    | .unavailable => return false
    | .stuck =>
      modify (Process.take .null)
      return false
    | .isStdin =>
      modify (Process.take .null)
      return true
    | .copied =>
      modify (Process.take .null)
      modify (Process.give .null)
      return true) := by
  refine Stage.ite (Stage.pure _) ?_
  intro p hfree
  have hfree : p.held .null = false := hfree _ (List.mem_singleton_self _)
  cases o.null with
  | unavailable => exact .mono .refl (List.nil_subset _)
  | stuck | isStdin => exact .take hfree
  | copied => exact .touch hfree

/-- Between the pipe and the loop: the read end is closed again, and the write end is
    kept in the child. -/
theorem daemonize_touches {p : Process}
    (hfree : ∀ x ∈ [Held.reader, .notify, .null], p.held x = false) :
    wp (daemonize o) (fun ok p' => p.Uses [.reader, .notify, .null] p' ∧ p'.held .reader = false ∧
      (ok = true → p'.held .notify = !o.isForeground)) p := by
  have hreader : p.held .reader = false := hfree _ (by decide)
  have hnotify : p.held .notify = false := hfree _ (by decide)
  have hnull : p.held .null = false := hfree _ (by decide)
  refine wp_ite (fun hfg => ?_) fun hfg => wp_ite (fun _ => ?_) fun _ => ?_
  · exact ⟨.mono .refl (List.nil_subset _), hreader, fun _ => by rw [hfg]; exact hnotify⟩
  · exact ⟨.mono .refl (List.nil_subset _), hreader, nofun⟩
  have hpipe : p.Uses [.reader, .notify] ((p.take .reader).take .notify) :=
    (Process.Uses.take hreader).trans (.take (by simp [hnotify]))
  simp only [wp_bind, wp_modify]
  refine wp_ite (fun _ => ?_) fun _ => ?_
  · simp only [wp_bind, wp_modify, wp_pure]
    refine ⟨?_, by simp, nofun⟩
    refine ((hpipe.trans (.give (x := .reader) (by simp))).trans
      (.give (x := .notify) (by simp))).mono (by decide)
  · have hgive : p.Uses [.reader, .notify, .reader]
        (((p.take .reader).take .notify).give .reader) := hpipe.trans (.give (by simp))
    simp only [becomeChild, wp_bind, wp_modify]
    refine wp_mono (becomeChild_touches _ ?_) fun ok p' h => ?_
    · intro x hx
      rw [List.mem_singleton.mp hx]
      simp [hnull]
    · refine ⟨(hgive.trans h).mono (by decide), ?_, fun _ => ?_⟩
      · rw [h.held .reader (by decide)]
        simp
      · rw [h.held .notify (by decide)]
        simp [hfg]

theorem closeHeld_spec (x : Held) (p : Process) :
    wp (closeHeld x) (fun _ p' => p.Uses [x] p' ∧ p'.held x = false) p := by
  simp only [closeHeld, wp_bind, wp_get]
  refine wp_ite (fun hheld => ⟨.give hheld, ?_⟩) fun hheld => ⟨.mono .refl (List.nil_subset _), ?_⟩
  · show (p.give x).held x = false
    simp
  · exact Bool.of_not_eq_true hheld

theorem closeLog_spec (p : Process) :
    wp closeLog (fun _ p' => p.Uses [.log p.logs] p' ∧ p'.held (.log p.logs) = false) p :=
  closeHeld_spec (.log p.logs) p

end Stages

-- ---------------------------------------------------------------------------
-- The log
-- ---------------------------------------------------------------------------

/-- The variables agree with the log, and the kernel was worked on with the PID file
    in hand. -/
structure Process.Sound (p : Process) : Prop where
  accounts : Accounts p.held (usesOf p.log)
  guarded : Guarded p.log

/-- What `end:` still has to take down is the work of a process that has the file. -/
def Process.Locked (p : Process) : Prop :=
  p.provisionReady = true ∨ p.firewallReady = true → p.held .pid = true

namespace Process.Sound

variable {p p' : Process} {S : List Held}

theorem uses (h : p.Sound) (huses : p.Uses S p') : p'.Sound :=
  ⟨huses.accounts h.accounts, huses.guarded h.guarded⟩

theorem tells (h : p.Sound) (status : Nat) :
    ({ p with log := .tells status :: p.log } : Process).Sound :=
  ⟨h.accounts, h.guarded⟩

theorem works (h : p.Sound) (hpid : p.held .pid = true) (sys : Sys) (work : Work)
    (before after : World) :
    ({ p with sys := sys, log := .works work before after :: p.log } : Process).Sound :=
  ⟨h.accounts, ⟨(h.accounts .pid).trans (congrArg some hpid), h.guarded⟩⟩

theorem initial (host : Kernel) (errno : Errno) (clock : Int) :
    (Process.initial host errno clock).Sound :=
  ⟨Accounts.nil, trivial⟩

end Process.Sound

section Ledger

variable {host : Kernel} {cfg : SoftgredConfig} {env : Env} {o : Startup} {p : Process}

/-- A stage of the start that is not reached touches nothing. -/
theorem wp_unless {b : Bool} {m : MainM Bool} {Q : Bool → Process → Prop}
    (hstop : Q false p) (hgo : b = true → wp m Q p) : wp (if !b then return false else m) Q p := by
  cases b with
  | false => exact hstop
  | true => exact hgo rfl

theorem openAll_spec (hfree : ∀ x, p.held x = false) :
    wp (openAll o) (fun ok p' => p.Uses [.log 0, .reader, .notify, .null, .pid, .signals, .capture,
        .listener] p' ∧ p'.held .reader = false ∧
      (ok = true → p'.held .pid = true ∧ p'.held .notify = !o.isForeground)) p := by
  simp only [openAll, wp_bind]
  refine wp_mono (beginLog_touches p fun x _ => hfree x) fun ok p₁ h₁ => ?_
  have hfree₁ : ∀ x ≠ Held.log 0, p₁.held x = false := fun x hx =>
    (h₁.held x fun h => hx (List.mem_singleton.mp h)).trans (hfree x)
  refine wp_unless ⟨h₁.mono (by decide), hfree₁ _ (by decide), nofun⟩ fun _ => ?_
  rw [wp_bind]
  refine wp_mono (daemonize_touches fun x hx => hfree₁ x ?_) fun ok p₂ h₂ => ?_
  · rintro rfl
    exact absurd hx (by decide)
  obtain ⟨h₂, hreader, hnotify⟩ := h₂
  have h₁₂ := h₁.trans h₂
  refine wp_unless ⟨h₁₂.mono (by decide), hreader, nofun⟩ fun hok => ?_
  have hfree₂ : ∀ x ∉ [Held.log 0, .reader, .notify, .null], p₂.held x = false := fun x hx =>
    (h₁₂.held x hx).trans (hfree x)
  rw [wp_bind]
  refine wp_mono (wp_and (openHeld_touches .pid _ p₂ fun x hx => ?_) (openHeld_held .pid _ p₂))
    fun ok₃ p₃ h => ?_
  · rw [List.mem_singleton.mp hx]
    exact hfree₂ _ (by decide)
  obtain ⟨h₃, hpid⟩ := h
  have h₁₃ := h₁₂.trans h₃
  have hreader₃ : p₃.held .reader = false := (h₃.held _ (by decide)).trans hreader
  refine wp_unless ⟨h₁₃.mono (by decide), hreader₃, nofun⟩ fun hok₃ => ?_
  refine wp_mono (openSources_touches p₃ fun x hx => ?_) fun ok₄ p₄ h₄ => ?_
  · refine (h₁₃.held x ?_).trans (hfree x)
    revert x
    decide
  refine ⟨(h₁₃.trans h₄).mono (by decide), (h₄.held _ (by decide)).trans hreader₃, fun _ => ⟨?_, ?_⟩⟩
  · exact (h₄.held _ (by decide)).trans (hpid hok₃)
  · exact (h₄.held _ (by decide)).trans ((h₃.held _ (by decide)).trans (hnotify hok))

/-- Where the start leads: into the loop, with the PID file in hand and the parent told
    so, or to `end:`. -/
structure Process.Begun (o : Startup) (entered : Bool) (p : Process) : Prop where
  sound : p.Sound
  locked : p.Locked
  reader : p.held .reader = false
  pid : entered = true → p.held .pid = true
  notify : entered = true → p.held .notify = false
  told : toldOf p.log = if entered && !o.isForeground then [0] else []

/-- The clients in `fds` are connected, and the log is open once at most. -/
structure Process.Tidy (fds : Finset Nat) (p : Process) : Prop where
  clients : ∀ fd, p.held (.client fd) = decide (fd ∈ fds)
  logs : ∀ n, n ≠ p.logs → p.held (.log n) = false

theorem Process.Tidy.congr {fds : Finset Nat} {p' : Process} (h : p.Tidy fds)
    (hheld : p'.held = p.held) (hlogs : p'.logs = p.logs) : p'.Tidy fds where
  clients fd := by rw [hheld]; exact h.clients fd
  logs n hn := by rw [hheld]; exact h.logs n (hlogs ▸ hn)

theorem Process.Tidy.uses {fds : Finset Nat} {p' : Process} {S : List Held} (h : p.Tidy fds)
    (huses : p.Uses S p') (hclients : ∀ fd, .client fd ∉ S) (hlogs : ∀ n, .log n ∉ S) :
    p'.Tidy fds where
  clients fd := (huses.held _ (hclients fd)).trans (h.clients fd)
  logs n hn := (huses.held _ (hlogs n)).trans (h.logs n (huses.logs ▸ hn))

theorem wp_works {α : Type} {work : Work} {m : ProvM α} {Q : α → Process → Prop} :
    wp (works work m) Q p = wp m (fun a sys => Q a { p with
      sys := sys
      log := .works work p.sys.world sys.world :: p.log }) p.sys := rfl

/-- The descriptors stay, and nothing is told. -/
structure Process.Keeps (p p' : Process) : Prop where
  held : p'.held = p.held
  logs : p'.logs = p.logs
  told : toldOf p'.log = toldOf p.log

theorem Process.Keeps.refl : p.Keeps p := ⟨rfl, rfl, rfl⟩

theorem Process.Keeps.trans {p' p'' : Process} (h : p.Keeps p') (h' : p'.Keeps p'') : p.Keeps p'' :=
  ⟨h'.held.trans h.held, h'.logs.trans h.logs, h'.told.trans h.told⟩

theorem Process.Tidy.keeps {fds : Finset Nat} {p' : Process} (h : p.Tidy fds) (hkeeps : p.Keeps p') :
    p'.Tidy fds := h.congr hkeeps.held hkeeps.logs

theorem works_sound {α : Type} {work : Work} {m : ProvM α} (hsound : p.Sound)
    (hpid : p.held .pid = true) : wp (works work m) (fun _ p' => p'.Sound ∧ p.Keeps p') p := by
  rw [wp_works]
  exact ⟨hsound.works hpid _ work _ _, ⟨rfl, rfl, rfl⟩⟩

theorem setUp_sound (hsound : p.Sound) (hpid : p.held .pid = true) :
    wp (setUp env) (fun _ p' => p'.Sound ∧ p.Keeps p') p := by
  simp only [setUp, wp_bind]
  refine wp_mono (works_sound hsound hpid) fun ret p' h => ?_
  cases ret with
  | fail => exact h
  | ok => exact ⟨⟨h.1.accounts, h.1.guarded⟩, ⟨h.2.held, h.2.logs, h.2.told⟩⟩

theorem report_sound (hsound : p.Sound) (htidy : p.Tidy ∅) (hpid : p.held .pid = true)
    (hreader : p.held .reader = false) (hnotify : p.held .notify = !o.isForeground)
    (htold : toldOf p.log = []) :
    wp (report o) (fun entered p' => p'.Begun o entered ∧ p'.Tidy ∅) p := by
  simp only [report, wp_bind, wp_get]
  refine wp_ite (fun hheld => ?_) fun hheld => ?_
  · have hfg : o.isForeground = false := by
      rw [hnotify] at hheld
      exact (Bool.not_eq_true' _).mp hheld
    refine wp_unless ⟨⟨hsound, fun _ => hpid, hreader, nofun, nofun, htold⟩, htidy⟩ fun _ => ?_
    have huses : Process.Uses [.notify] { p with log := .tells 0 :: p.log }
        (Process.give .notify { p with log := .tells 0 :: p.log }) := .give hheld
    have hpid' := (huses.held .pid (by decide)).trans hpid
    have htidy' : Process.Tidy ∅ { p with log := .tells 0 :: p.log } := htidy.congr rfl rfl
    refine ⟨⟨(hsound.tells 0).uses huses, fun _ => hpid', ?_, fun _ => hpid', fun _ => ?_, ?_⟩,
      htidy'.uses huses (by simp) (by simp)⟩
    · exact (huses.held .reader (by decide)).trans hreader
    · show (Process.give .notify _).held .notify = false
      rw [Process.held_give, if_pos rfl]
    · rw [hfg]
      exact huses.told.trans (congrArg (0 :: ·) htold)
  · have hfg : o.isForeground = true := by
      rw [hnotify] at hheld
      simpa using hheld
    refine ⟨⟨hsound, fun _ => hpid, hreader, fun _ => hpid, fun _ => ?_, ?_⟩, htidy⟩
    · exact Bool.of_not_eq_true hheld
    · rw [hfg]
      exact htold

theorem startup_begun (kernel : Kernel) (errno : Errno) (clock : Int) :
    wp (startup cfg env o) (fun entered p => p.Begun o entered ∧ p.Tidy ∅)
      (Process.initial kernel errno clock) := by
  simp only [startup, wp_bind]
  refine wp_mono (openAll_spec fun _ => rfl) fun ok p₁ h => ?_
  obtain ⟨huses, hreader, hok⟩ := h
  have hsound₁ := (Process.Sound.initial kernel errno clock).uses huses
  have htold₁ : toldOf p₁.log = [] := huses.told
  have htidy₁ : p₁.Tidy ∅ := by
    refine ⟨fun fd => huses.held (.client fd) (by simp), fun n hn => huses.held (.log n) ?_⟩
    have hn : n ≠ 0 := fun h => hn (h.trans huses.logs.symm)
    simp [hn]
  refine wp_unless ⟨⟨hsound₁, fun h => ?_, hreader, nofun, nofun, htold₁⟩, htidy₁⟩ fun htrue => ?_
  · rw [huses.provisionReady, huses.firewallReady] at h
    rcases h with h | h <;> cases h
  obtain ⟨hpid₁, hnotify₁⟩ := hok htrue
  rw [wp_bind]
  refine wp_mono (works_sound hsound₁ hpid₁) fun ret p₂ h => ?_
  obtain ⟨hsound₂, hkeeps₂⟩ := h
  have hpid₂ : p₂.held .pid = true := hkeeps₂.held ▸ hpid₁
  have hreader₂ : p₂.held .reader = false := hkeeps₂.held ▸ hreader
  cases ret with
  | fail =>
    exact ⟨⟨hsound₂, fun _ => hpid₂, hreader₂, nofun, nofun, hkeeps₂.told.trans htold₁⟩,
      htidy₁.keeps hkeeps₂⟩
  | ok =>
    simp only [wp_bind]
    refine wp_mono (setUp_sound hsound₂ hpid₂) fun ready p₃ h => ?_
    obtain ⟨hsound₃, hkeeps₃⟩ := h
    have hkeeps := hkeeps₂.trans hkeeps₃
    have hpid₃ : p₃.held .pid = true := hkeeps.held ▸ hpid₁
    have hreader₃ : p₃.held .reader = false := hkeeps.held ▸ hreader
    have hnotify₃ : p₃.held .notify = !o.isForeground := hkeeps.held ▸ hnotify₁
    have htidy₃ := htidy₁.keeps hkeeps
    have htold : toldOf p₃.log = [] := hkeeps.told.trans htold₁
    refine wp_unless ⟨⟨hsound₃, fun _ => hpid₃, hreader₃, nofun, nofun, htold⟩, htidy₃⟩ fun _ => ?_
    exact report_sound hsound₃ htidy₃ hpid₃ hreader₃ hnotify₃ htold

section Clients

variable {entered : Bool} {fds fds' : Finset Nat}

/-- What the loop holds for its clients, and as its log, comes and goes. -/
theorem Process.Begun.uses {p' : Process} {S : List Held} (h : p.Begun o entered)
    (huses : p.Uses S p') (hS : ∀ x ∈ S, x ∉ [Held.pid, .reader, .notify]) :
    p'.Begun o entered := by
  have hkept : ∀ x ∈ [Held.pid, .reader, .notify], p'.held x = p.held x :=
    fun x hx => huses.held x fun hmem => hS x hmem hx
  refine ⟨h.sound.uses huses, fun hready => ?_, ?_, fun hentered => ?_, fun hentered => ?_,
    huses.told.trans h.told⟩
  · rw [huses.provisionReady, huses.firewallReady] at hready
    exact (hkept .pid (by decide)).trans (h.locked hready)
  · exact (hkept .reader (by decide)).trans h.reader
  · exact (hkept .pid (by decide)).trans (h.pid hentered)
  · exact (hkept .notify (by decide)).trans (h.notify hentered)

/-- The events of the status server, if none of them opens what is open or closes what
    is not. -/
theorem noteEvents_begun (events : List ServiceEvent) (h : p.Begun o entered) (htidy : p.Tidy fds)
    (hreplay : replay fds events = some fds') :
    wp (events.forM noteEvent) (fun _ p' => p'.Begun o entered ∧ p'.Tidy fds') p := by
  induction events generalizing p fds with
  | nil =>
    cases hreplay
    exact ⟨h, htidy⟩
  | cons e rest ih =>
    show wp (noteEvent e >>= fun _ => rest.forM noteEvent) _ p
    rw [wp_bind]
    cases e with
    | applied | recv | answered => exact ih h htidy hreplay
    | accepted fd =>
      rw [replay] at hreplay
      split at hreplay
      · cases hreplay
      next hfree =>
      have huses : p.Uses [.client fd] (p.take (.client fd)) :=
        .take ((htidy.clients fd).trans (decide_eq_false hfree))
      refine ih (h.uses huses (by simp)) ⟨fun fd' => ?_, fun n hn => ?_⟩ hreplay
      · show (p.take (.client fd)).held (.client fd') = _
        rw [Process.held_take, htidy.clients]
        by_cases heq : fd' = fd
        · simp [heq]
        · simp [heq]
      · exact (huses.held _ (by simp)).trans (htidy.logs n hn)
    | closed fd =>
      rw [replay] at hreplay
      split at hreplay
      swap
      · cases hreplay
      next hopen =>
      have huses : p.Uses [.client fd] (p.give (.client fd)) :=
        .give ((htidy.clients fd).trans (decide_eq_true hopen))
      refine ih (h.uses huses (by simp)) ⟨fun fd' => ?_, fun n hn => ?_⟩ hreplay
      · show (p.give (.client fd)).held (.client fd') = _
        rw [Process.held_give, htidy.clients]
        by_cases heq : fd' = fd
        · simp [heq]
        · simp [heq]
      · exact (huses.held _ (by simp)).trans (htidy.logs n hn)

/-- The log stays open once, as it was or opened again. -/
theorem reopenLog_begun (log : Opening) (h : p.Begun o entered) (htidy : p.Tidy fds) :
    wp (reopenLog log) (fun _ p' => p'.Begun o entered ∧ p'.Tidy fds) p := by
  have hfree : p.held (.log (p.logs + 1)) = false := htidy.logs _ (by omega)
  simp only [reopenLog, wp_bind, wp_get]
  cases log with
  | unavailable => exact ⟨h, htidy⟩
  | unusable =>
    have huses : p.Uses [.log (p.logs + 1)] _ := .touch hfree
    show _ ∧ Process.Tidy fds ((p.take (.log (p.logs + 1))).give (.log (p.logs + 1)))
    refine ⟨h.uses huses (by simp), fun fd => ?_, fun n hn => ?_⟩
    · exact (huses.held _ (by simp)).trans (htidy.clients fd)
    · rw [Process.held_give, Process.held_take]
      simp [htidy.logs n hn]
  | ready =>
    show wp (closeLog >>= fun _ => modify fun p => { p with logs := p.logs + 1 })
      (fun _ p' => p'.Begun o entered ∧ p'.Tidy fds) (p.take (.log (p.logs + 1)))
    rw [wp_bind]
    refine wp_mono (closeLog_spec (p.take (.log (p.logs + 1)))) fun _ q hq => ?_
    have huses : p.Uses [.log (p.logs + 1), .log p.logs] q := (Process.Uses.take hfree).trans hq.1
    have hclosed : q.held (.log p.logs) = false := hq.2
    have hbegun := h.uses huses (by simp)
    show Process.Begun o entered { q with logs := q.logs + 1 } ∧
      Process.Tidy fds { q with logs := q.logs + 1 }
    refine ⟨⟨⟨hbegun.sound.accounts, hbegun.sound.guarded⟩, hbegun.locked, hbegun.reader, hbegun.pid,
      hbegun.notify, hbegun.told⟩, fun fd => (huses.held _ (by simp)).trans (htidy.clients fd),
      fun n hn => ?_⟩
    have hn : n ≠ p.logs + 1 := fun heq => hn (heq.trans (congrArg (· + 1) huses.logs.symm))
    by_cases heq : n = p.logs
    · rw [heq]
      exact hclosed
    · exact (huses.held _ (by simp [hn, heq])).trans (htidy.logs n heq)

/-- What the log of the loop does to the descriptors. -/
theorem noteHappenings_begun (log : List Happening) (h : p.Begun o entered) (htidy : p.Tidy fds)
    (hreplay : replay fds ((deedsOf log).flatMap Deed.events) = some fds') :
    wp (log.forM noteHappening) (fun _ p' => p'.Begun o entered ∧ p'.Tidy fds') p := by
  induction log generalizing p fds with
  | nil =>
    cases hreplay
    exact ⟨h, htidy⟩
  | cons happening rest ih =>
    show wp (noteHappening happening >>= fun _ => rest.forM noteHappening) _ p
    rw [wp_bind]
    cases happening with
    | took input => exact ih h htidy hreplay
    | reopened log =>
      exact wp_mono (reopenLog_begun log h htidy) fun _ _ h' => ih h'.1 h'.2 hreplay
    | did deed =>
      have hevents : (deedsOf (.did deed :: rest)).flatMap Deed.events =
          deed.events ++ (deedsOf rest).flatMap Deed.events := rfl
      rw [hevents, replay_append, Option.bind_eq_some_iff] at hreplay
      obtain ⟨fds₁, hfirst, hrest⟩ := hreplay
      exact wp_mono (noteEvents_begun deed.events h htidy hfirst) fun _ _ h' => ih h'.1 h'.2 hrest

/-- Behind the loop, with the clients that are still connected. -/
theorem Process.Begun.behindLoop {log : List Happening} (h : p.Begun o true) (htidy : p.Tidy ∅)
    (sys : Sys) (hreplay : replay ∅ ((deedsOf log).flatMap Deed.events) = some fds) :
    (p.behindLoop log sys).Begun o true ∧ (p.behindLoop log sys).Tidy fds := by
  refine noteHappenings_begun log ⟨?_, fun _ => h.pid rfl, h.reader, h.pid, h.notify, h.told⟩
    (htidy.congr rfl rfl) hreplay
  exact h.sound.works (h.pid rfl) sys .loop _ _

end Clients

theorem endProvision_sound (hsound : p.Sound) (hlocked : p.Locked) :
    wp (endProvision env) (fun _ p' => p'.Sound ∧ p.Keeps p' ∧ p'.Locked) p := by
  simp only [endProvision, wp_bind, wp_get]
  refine wp_ite (fun hready => ?_) fun _ => ⟨hsound, .refl, hlocked⟩
  have hpid := hlocked (.inl hready)
  refine wp_mono (works_sound hsound hpid) fun _ p' h => ?_
  exact ⟨h.1, h.2, fun _ => h.2.held ▸ hpid⟩

theorem endFirewall_sound (hsound : p.Sound) (hlocked : p.Locked) (result : Ret) :
    wp (endFirewall env result) (fun _ p' => p'.Sound ∧ p.Keeps p') p := by
  simp only [endFirewall, wp_bind, wp_get]
  refine wp_ite (fun hready => ?_) fun _ => ⟨hsound, .refl⟩
  rw [wp_bind]
  refine wp_mono (works_sound hsound (hlocked (.inr hready))) fun ret p' h => ?_
  cases ret with
  | fail => exact h
  | ok => exact h

theorem reportFailure_sound (hsound : p.Sound) :
    wp (reportFailure o) (fun _ p' => p'.Sound ∧ p'.held .notify = false ∧
      (∀ x, x ≠ .notify → p'.held x = p.held x) ∧ p'.logs = p.logs ∧
      toldOf p'.log = if p.held .notify && o.reportsFailure then 1 :: toldOf p.log
        else toldOf p.log) p := by
  have hgive : ∀ q : Process, q.Sound → q.held .notify = true → (Process.give .notify q).Sound ∧
      (Process.give .notify q).held .notify = false ∧
      (∀ x, x ≠ .notify → (Process.give .notify q).held x = q.held x) ∧
      (Process.give .notify q).logs = q.logs ∧
      toldOf (Process.give .notify q).log = toldOf q.log := by
    intro q hq hheld
    have huses : Process.Uses [.notify] q (Process.give .notify q) := .give hheld
    refine ⟨hq.uses huses, ?_, fun x hx => huses.held x fun h => hx (List.mem_singleton.mp h),
      huses.logs, huses.told⟩
    rw [Process.held_give, if_pos rfl]
  simp only [reportFailure, wp_bind, wp_get]
  refine wp_ite (fun hheld => ?_) fun hheld => ?_
  · simp only [hheld, Bool.true_and]
    refine wp_ite (fun hreports => ?_) fun hreports => ?_
    · rw [if_pos hreports]
      exact hgive _ (hsound.tells 1) hheld
    · rw [if_neg hreports]
      exact hgive _ hsound hheld
  · rw [Bool.of_not_eq_true hheld]
    exact ⟨hsound, Bool.of_not_eq_true hheld, fun _ _ => rfl, rfl, rfl⟩

/-- Everything is closed behind `end:` but what the start has left of `/dev/null`. -/
structure Process.Over (p : Process) : Prop where
  sound : p.Sound
  closed : ∀ x, x ≠ .null → p.held x = false

theorem atEnd_over {entered : Bool} {fds : Finset Nat} {closed : List ServiceEvent}
    (hbegun : p.Begun o entered) (htidy : p.Tidy fds) (hclosed : replay fds closed = some ∅)
    (result : Ret) :
    wp (atEnd env o closed result) (fun _ p' => p'.Over ∧ (toldOf p'.log = toldOf p.log ∨
      entered = false ∧ toldOf p'.log = 1 :: toldOf p.log)) p := by
  simp only [atEnd, wp_bind, wp_pure]
  refine wp_mono (noteEvents_begun closed hbegun htidy hclosed) fun _ p₀ h => ?_
  obtain ⟨hbegun₀, htidy₀⟩ := h
  refine wp_mono (closeHeld_spec .listener p₀) fun _ p₁ h => ?_
  obtain ⟨h₁, hlistener⟩ := h
  refine wp_mono (closeHeld_spec .capture p₁) fun _ p₂ h => ?_
  obtain ⟨h₂, hcapture⟩ := h
  have h₁₂ := h₁.trans h₂
  have hbegun₂ := hbegun₀.uses h₁₂ (by decide)
  have htidy₂ := htidy₀.uses h₁₂ (by simp) (by simp)
  refine wp_mono (endProvision_sound hbegun₂.sound hbegun₂.locked) fun _ p₃ h => ?_
  obtain ⟨hsound₃, hkeeps₃, hlocked₃⟩ := h
  refine wp_mono (endFirewall_sound hsound₃ hlocked₃ result) fun result' p₄ h => ?_
  obtain ⟨hsound₄, hkeeps₄⟩ := h
  have hkeeps := hkeeps₃.trans hkeeps₄
  refine wp_mono (closeHeld_spec .signals p₄) fun _ p₅ h => ?_
  obtain ⟨h₅, hsignals⟩ := h
  refine wp_mono (closeHeld_spec .pid p₅) fun _ p₆ h => ?_
  obtain ⟨h₆, hpid⟩ := h
  have h₅₆ := h₅.trans h₆
  have htidy₆ := (htidy₂.keeps hkeeps).uses h₅₆ (by simp) (by simp)
  refine wp_mono (reportFailure_sound (hsound₄.uses h₅₆)) fun _ p₇ h => ?_
  obtain ⟨hsound₇, hnotify, hheld₇, hlogs₇, htold₇⟩ := h
  refine wp_mono (closeLog_spec p₇) fun _ p₈ h => ?_
  obtain ⟨h₈, hlog⟩ := h
  have hlate : ∀ x, x ≠ .notify → x ≠ .log p₇.logs → p₈.held x = p₆.held x := fun x hx hx' =>
    (h₈.held x fun h => hx' (List.mem_singleton.mp h)).trans (hheld₇ x hx)
  have hearly : ∀ x ∉ [Held.signals, .pid], p₆.held x = p₂.held x := fun x hx => by
    rw [h₅₆.held x hx, hkeeps.held]
  refine ⟨⟨hsound₇.uses h₈, fun x hx => ?_⟩, ?_⟩
  · cases x with
    | log n =>
      by_cases hn : n = p₇.logs
      · rw [hn]
        exact hlog
      · exact (hlate _ (by simp) (by simp [hn])).trans (htidy₆.logs n (hlogs₇ ▸ hn))
    | client fd => exact (hlate _ (by simp) (by simp)).trans (htidy₆.clients fd)
    | notify => exact (h₈.held _ (by simp)).trans hnotify
    | null => exact absurd rfl hx
    | pid => exact (hlate _ (by simp) (by simp)).trans hpid
    | signals => exact (hlate _ (by simp) (by simp)).trans ((h₆.held _ (by simp)).trans hsignals)
    | capture => exact (hlate _ (by simp) (by simp)).trans ((hearly _ (by simp)).trans hcapture)
    | listener =>
      refine (hlate _ (by simp) (by simp)).trans ((hearly _ (by simp)).trans ?_)
      exact (h₂.held _ (by simp)).trans hlistener
    | reader =>
      exact (hlate _ (by simp) (by simp)).trans ((hearly _ (by simp)).trans hbegun₂.reader)
  · have htold : toldOf p₆.log = toldOf p.log := by
      rw [h₅₆.told, hkeeps.told, hbegun₂.told, hbegun.told]
    rw [h₈.told, htold₇, htold]
    by_cases hentered : entered = true
    · have hnotify₆ : p₆.held .notify = false :=
        (hearly _ (by simp)).trans (hbegun₂.notify hentered)
      rw [hnotify₆]
      exact .inl rfl
    · split
      · exact .inr ⟨Bool.of_not_eq_true hentered, rfl⟩
      · exact .inl rfl

/-- The parent closes its two ends of the pipe and the log, and has nothing else. -/
theorem parent_spec (hsound : p.Sound) (hnotify : p.held .notify = true)
    (hreader : p.held .reader = true) (got : Option Nat)
    (hfree : ∀ x ∉ [Held.notify, .reader, .log p.logs], p.held x = false) :
    wp (parent got) (fun status p' => status = got.getD 1 ∧ p'.Sound ∧ ∀ x, p'.held x = false) p := by
  simp only [parent, wp_bind, wp_modify, wp_pure]
  have huses : p.Uses [.notify, .reader] ((p.give .notify).give .reader) :=
    (Process.Uses.give hnotify).trans (.give (by simp [hreader]))
  refine wp_mono (closeLog_spec _) fun _ p' h => ?_
  obtain ⟨h, hlog⟩ := h
  refine ⟨trivial, hsound.uses (huses.trans h), fun x => ?_⟩
  by_cases hx : x ∈ [Held.notify, .reader, .log p.logs]
  · simp only [List.mem_cons, List.not_mem_nil, or_false] at hx
    rcases hx with rfl | rfl | rfl
    · rw [h.held _ (by simp)]
      simp
    · rw [h.held _ (by simp)]
      simp
    · exact hlog
  · rw [(huses.trans h).held x hx]
    exact hfree x hx

end Ledger

/-- The process that calls `fork`. -/
def Process.forking (o : Startup) (p : Process) : Process :=
  (((beginLog o).run p).2.take .reader).take .notify

/-- What `main` comes to: a start that fails, a loop that goes on, or one that ends. In
    the loop `fds` are the clients that are connected, all of which are closed behind
    it. -/
inductive Ends (cfg : SoftgredConfig) (env : Env) (o : Startup) (p₀ : Process) :
    Option Ret → Process → Prop
  | failed {p : Process} (hstart : (startup cfg env o).run p₀ = (false, p))
    {closed : List ServiceEvent} (hclosed : replay ∅ closed = some ∅) :
    Ends cfg env o p₀ (some ((atEnd env o closed .fail).run p).1)
      ((atEnd env o closed .fail).run p).2
  | loops {p : Process} (hstart : (startup cfg env o).run p₀ = (true, p)) (log : List Happening)
    {fds : Finset Nat} (hfds : replay ∅ ((deedsOf log).flatMap Deed.events) = some fds) :
    Ends cfg env o p₀ none (p.behindLoop log (feed cfg env (inputsOf log) p.sys))
  | left {p p' : Process} (hstart : (startup cfg env o).run p₀ = (true, p)) (log : List Happening)
    {fds : Finset Nat} (hfds : replay ∅ ((deedsOf log).flatMap Deed.events) = some fds)
    {closed : List ServiceEvent} (hclosed : replay fds closed = some ∅) (exit : Ret)
    (hp' : p' = p.behindLoop log (feed cfg env (inputsOf log) p.sys)) :
    Ends cfg env o p₀ (some ((atEnd env o closed exit).run p').1)
      ((atEnd env o closed exit).run p').2


/-- A server that has not served anybody has nobody to close. -/
theorem serviceEnd_service (p : Process) (listener : Nat) {limit : Nat}
    (hlimit : 1 ≤ limit ∧ limit ≤ serviceMaxClients) :
    ∃ s closed, serviceEnd (p.service listener limit) = .ok (s, closed) ∧
      replay ∅ closed = some ∅ := by
  rw [Process.service]
  split
  · obtain ⟨s, closed, hend, hclosed⟩ := serviceEnd_closes (serviceInit_ok listener hlimit) rfl
    rw [openFds_serviceInit] at hclosed
    exact ⟨s, closed, hend, hclosed⟩
  · exact ⟨_, [], rfl, rfl⟩

/-- `main` never faults. -/
theorem main_ends (host : HostInfo) (cfg : SoftgredConfig) (env : Env) (o : Startup)
    (listener limit : Nat) (hlimit : 1 ≤ limit ∧ limit ≤ serviceMaxClients)
    (rounds : List LoopRound) (p₀ : Process) :
    ∃ result p, main host cfg env o listener limit rounds p₀ = .ok (result, p) ∧
      Ends cfg env o p₀ result p := by
  rw [main]
  generalize hstart : (startup cfg env o).run p₀ = started
  obtain ⟨entered, p⟩ := started
  cases entered with
  | false =>
    obtain ⟨s, closed, hend, hclosed⟩ := serviceEnd_service p listener hlimit
    simp only [Bool.not_false, if_true, hend, ok_bind]
    exact ⟨_, _, rfl, .failed hstart hclosed⟩
  | true =>
    obtain ⟨d, log, exit, hloop, haccounted⟩ := mainLoop_accounted rounds
      (@accounted_start host cfg env p.sys listener _ hlimit)
    rw [List.nil_append] at haccounted
    have hsys : d.sys = feed cfg env (inputsOf log) p.sys := haccounted.sys
    simp only [Bool.not_true, Bool.false_eq_true, if_false, hloop, ok_bind, hsys]
    cases exit with
    | none => exact ⟨_, _, rfl, .loops hstart log haccounted.replay⟩
    | some exit =>
      obtain ⟨listener', hlistener⟩ := haccounted.listener
      obtain ⟨s, closed, hend, hclosed⟩ := serviceEnd_closes haccounted.ok hlistener
      simp only [hend, ok_bind]
      exact ⟨_, _, rfl, .left hstart log haccounted.replay hclosed exit rfl⟩

section Closing

variable {cfg : SoftgredConfig} {env : Env} {o : Startup} {p₀ p : Process} {result : Option Ret}

/-- How things stand with the descriptors and the parent. -/
structure Settled (cfg : SoftgredConfig) (env : Env) (o : Startup) (p₀ : Process)
    (result : Option Ret) (p : Process) : Prop where
  sound : p.Sound
  closed : result.isSome = true → ∀ x, x ≠ .null → p.held x = false
  told : o.isForeground = false →
    ((toldOf p.log).getLast?.getD 1 = 0 ↔ ((startup cfg env o).run p₀).1 = true)

theorem Ends.settled (h : Ends cfg env o p₀ result p)
    (hstarts : wp (startup cfg env o) (fun entered p => p.Begun o entered ∧ p.Tidy ∅) p₀) :
    Settled cfg env o p₀ result p := by
  rw [wp] at hstarts
  cases h with
  | failed hstart hclosed =>
    rw [hstart] at hstarts
    obtain ⟨hbegun, htidy⟩ := hstarts
    obtain ⟨hover, htold⟩ := @atEnd_over env o _ _ _ _ hbegun htidy hclosed .fail
    refine ⟨hover.sound, fun _ => hover.closed, fun _ => ?_⟩
    rw [hbegun.told] at htold
    rw [hstart]
    rcases htold with htold | ⟨-, htold⟩
    · rw [htold]
      simp
    · rw [htold]
      simp
  | @loops q hstart log fds hfds =>
    rw [hstart] at hstarts
    obtain ⟨hloop, -⟩ := hstarts.1.behindLoop hstarts.2 (feed cfg env (inputsOf log) q.sys) hfds
    refine ⟨hloop.sound, fun h => absurd h (by simp), fun hfg => ?_⟩
    rw [hstart, hloop.told, hfg]
    simp
  | @left q q' hstart log fds hfds closed hclosed exit hp' =>
    rw [hstart] at hstarts
    obtain ⟨hloop, htidy⟩ := hstarts.1.behindLoop hstarts.2 (feed cfg env (inputsOf log) q.sys) hfds
    rw [← hp'] at hloop htidy
    obtain ⟨hover, htold⟩ := @atEnd_over env o _ _ _ _ hloop htidy hclosed exit
    refine ⟨hover.sound, fun _ => hover.closed, fun hfg => ?_⟩
    rw [hstart, htold.resolve_right fun h => Bool.noConfusion h.1, hloop.told, hfg]
    simp

theorem parent_ends (kernel : Kernel) (errno : Errno) (clock : Int) (got : Option Nat) :
    wp (parent got) (fun status q => status = got.getD 1 ∧
      ∀ x, heldAfter x (usesOf q.log) = some false)
      (.forking o (.initial kernel errno clock)) := by
  have hbegin : wp (beginLog o) (fun _ p => (Process.initial kernel errno clock).Uses [.log 0] p)
      (.initial kernel errno clock) := beginLog_touches _ fun _ _ => rfl
  have hlog : ((beginLog o).run (.initial kernel errno clock)).2.Sound :=
    (Process.Sound.initial kernel errno clock).uses hbegin
  have hfree : ∀ x ≠ Held.log 0, ((beginLog o).run (.initial kernel errno clock)).2.held x = false :=
    fun x hx => hbegin.held x fun h => hx (List.mem_singleton.mp h)
  have hpipe := (Process.Uses.take (hfree .reader (by decide))).trans
    (.take (x := .notify) (by simp [hfree]))
  refine wp_mono (parent_spec (hlog.uses hpipe) (by simp) (by simp) got fun x hx => ?_) fun _ q h => ?_
  · have hsub : [Held.reader] ++ [.notify] ⊆ [Held.notify, .reader, .log 0] := by decide
    rw [hpipe.logs, hbegin.logs] at hx
    refine (hpipe.held x fun h => hx (hsub h)).trans (hfree x ?_)
    rintro rfl
    exact hx (by simp [Process.initial])
  · exact ⟨h.1, fun x => (h.2.1.accounts x).trans (congrArg some (h.2.2 x))⟩

end Closing

/-- Whatever step of the start fails and however the loop goes: `main` never faults; it
    works on the kernel only while it has the PID file; when it ends it has closed
    everything it has opened, its clients and every log file included, exactly once,
    but for `/dev/null`; and a parent that waits, which closes everything too, ends
    with success exactly if the daemon has entered its loop. -/
theorem main_ledger (host : HostInfo) (cfg : SoftgredConfig) (env : Env) (o : Startup)
    (listener limit : Nat) (hlimit : 1 ≤ limit ∧ limit ≤ serviceMaxClients)
    (rounds : List LoopRound) (kernel : Kernel) (errno : Errno) (clock : Int) :
    ∃ result p, main host cfg env o listener limit rounds (.initial kernel errno clock) =
        .ok (result, p) ∧
      (∀ newer work before after older, p.log = newer ++ .works work before after :: older →
        heldAfter .pid (usesOf older) = some true) ∧
      (result.isSome = true → ∀ x, x ≠ .null → heldAfter x (usesOf p.log) = some false) ∧
      (o.isForeground = false →
        wp (parent (toldOf p.log).getLast?) (fun status q =>
          (status = 0 ↔ ((startup cfg env o).run (.initial kernel errno clock)).1 = true) ∧
          ∀ x, heldAfter x (usesOf q.log) = some false)
          (.forking o (.initial kernel errno clock))) := by
  obtain ⟨result, p, hmain, hends⟩ := main_ends host cfg env o listener limit hlimit rounds
    (.initial kernel errno clock)
  have hsettled := hends.settled (startup_begun kernel errno clock)
  refine ⟨result, p, hmain, fun newer work before after older hlog => ?_, fun hsome x hx => ?_,
    fun hfg => ?_⟩
  · exact (hlog ▸ hsettled.sound.guarded).behind
  · exact (hsettled.sound.accounts x).trans (congrArg some (hsettled.closed hsome x hx))
  · refine wp_mono (parent_ends kernel errno clock _) fun status q h => ⟨?_, h.2⟩
    rw [h.1]
    exact hsettled.told hfg

namespace Sample

/-- Everything works, in the background. -/
def smoothStart : Startup where
  isForeground := false
  bridgeForce := true
  isRoot := true
  log := .ready
  hasAddress := true
  pipe := true
  fork := true
  setsid := true
  null := .copied
  pidFile := .ready
  sigprocmask := true
  signalfd := true
  capture := .ready
  listener := .ready
  bridge _ := ⟨true, true, 0⟩
  reports := true
  reportsFailure := true

/-- The host has no bridge yet. -/
def bare : Kernel where
  links := [⟨['e', 't', 'h', '0'], .foreign [], none⟩]
  chain := kernel.chain

/-- A client is served, the log is opened again, and the daemon is told to stop. -/
def visited : List LoopRound :=
  enquiry ++ [{ calm with signalled := true, signals := [.hup .ready, .stop] }]

end Sample

/-- The client is still connected when the daemon stops. -/
theorem main_ledger_visited : ∃ result p,
    main Sample.nobody Sample.config Sample.obliging Sample.smoothStart 3 1 Sample.visited
        (.initial Sample.bare 0 0) = .ok (result, p) ∧
      (.acquire (.client 4) ∈ usesOf p.log ∧ .acquire (.log 1) ∈ usesOf p.log) ∧
      heldAfter (.client 4) (usesOf p.log) = some false ∧
      heldAfter (.log 0) (usesOf p.log) = some false ∧
      heldAfter (.log 1) (usesOf p.log) = some false := by
  obtain ⟨result, p, hmain, -, hclosed, -⟩ := main_ledger Sample.nobody Sample.config
    Sample.obliging Sample.smoothStart 3 1 (by decide) Sample.visited Sample.bare 0 0
  have heval : (main Sample.nobody Sample.config Sample.obliging Sample.smoothStart 3 1
      Sample.visited (.initial Sample.bare 0 0)).map (fun r => (r.1.isSome,
        decide (.acquire (.client 4) ∈ usesOf r.2.log ∧ .acquire (.log 1) ∈ usesOf r.2.log))) =
      .ok (true, true) := by decide +kernel
  rw [hmain] at heval
  obtain ⟨hsome, hopened⟩ := Prod.mk.inj (Except.ok.inj heval)
  exact ⟨result, p, hmain, of_decide_eq_true hopened, hclosed hsome _ (by decide),
    hclosed hsome _ (by decide), hclosed hsome _ (by decide)⟩

-- ---------------------------------------------------------------------------
-- The kernel
-- ---------------------------------------------------------------------------

/-- Links that were created next to those of the host. -/
def Kernel.withLinks (k : Kernel) (added : List Link) : Kernel := { k with links := added ++ k.links }

/-- A bridge of the configuration that was missing, and was to be created. -/
structure NewBridge (o : Startup) (cfg : SoftgredConfig) (host : Kernel) (l : Link) : Prop where
  foreign : l.kind = .foreign []
  master : l.master = none
  force : o.bridgeForce = true
  named : ∃ b ∈ cfg.bridge, b.ifname = l.name
  missing : host.hasLink l.name = false

/-- Bridges that were missing, each created once. -/
structure NewBridges (o : Startup) (cfg : SoftgredConfig) (host : Kernel) (added : List Link) :
    Prop where
  each : ∀ l ∈ added, NewBridge o cfg host l
  once : (added.map Link.name).Nodup

section Bridges

variable {o : Startup} {cfg : SoftgredConfig} {env : Env} {host : Kernel} {added : List Link}

theorem NewBridges.nil : NewBridges o cfg host [] := ⟨by simp, by simp⟩

theorem hasLink_withLinks {name : CStr} :
    (host.withLinks added).hasLink name = (added.any (·.name == name) || host.hasLink name) :=
  List.any_append

theorem NewBridges.cons (h : NewBridges o cfg host added) (hforce : o.bridgeForce = true)
    {b : TunnelBridge} (hb : b ∈ cfg.bridge) (hfree : (host.withLinks added).hasLink b.ifname = false) :
    NewBridges o cfg host (⟨b.ifname, .foreign [], none⟩ :: added) := by
  rw [hasLink_withLinks, Bool.or_eq_false_iff] at hfree
  refine ⟨List.forall_mem_cons.mpr ⟨⟨rfl, rfl, hforce, ⟨b, hb, rfl⟩, hfree.2⟩, h.each⟩, ?_⟩
  rw [List.map_cons, List.nodup_cons]
  refine ⟨fun hmem => ?_, h.once⟩
  obtain ⟨l, hl, hname⟩ := List.mem_map.mp hmem
  exact List.any_eq_false.mp hfree.1 l hl (beq_iff_eq.mpr hname)

theorem Kernel.Pristine.addLink {k : Kernel} (h : k.Pristine) {name : CStr}
    (hfree : k.hasLink name = false) : (k.addLink ⟨name, .foreign [], none⟩).Pristine where
  foreign := List.forall_mem_cons.mpr ⟨rfl, h.foreign⟩
  stacked := h.stacked.addLink hfree (fun _ hin => absurd hin List.not_mem_nil)
    fun _ _ hin => absurd hin List.not_mem_nil
  targets := h.targets

end Bridges

/-- Outside the loop something was not taken back that could have been. -/
def Process.Withholds (p : Process) : Prop :=
  ∃ work before after, .works work before after ∈ p.log ∧ work ≠ .loop ∧ before.Withheld after

/-- Nothing happens to the kernel and the tables. -/
structure Process.Extends (p p' : Process) : Prop where
  sys : p'.sys = p.sys
  provisionReady : p'.provisionReady = p.provisionReady
  firewallReady : p'.firewallReady = p.firewallReady
  log : p.log <:+ p'.log

section Kernels

variable {cfg : SoftgredConfig} {env : Env} {o : Startup} {host : Kernel} {p p' p'' : Process}

theorem Process.Withholds.extend (h : p.Withholds) (hlog : p.log <:+ p'.log) : p'.Withholds := by
  obtain ⟨work, before, after, hmem, hrest⟩ := h
  exact ⟨work, before, after, hlog.subset hmem, hrest⟩

theorem Process.Uses.extends {S : List Held} (h : p.Uses S p') : p.Extends p' :=
  ⟨h.sys, h.provisionReady, h.firewallReady, by
    obtain ⟨new, hlog⟩ := h.log
    exact ⟨_, hlog.symm⟩⟩

theorem Process.Extends.refl (p : Process) : p.Extends p := ⟨rfl, rfl, rfl, List.suffix_refl _⟩

theorem Process.Extends.trans (h : p.Extends p') (h' : p'.Extends p'') : p.Extends p'' :=
  ⟨h'.sys.trans h.sys, h'.provisionReady.trans h.provisionReady,
    h'.firewallReady.trans h.firewallReady, h.log.trans h'.log⟩

/-- Before the loop: the firewall and the tables are ready on top of new bridges, or
    the kernel holds nothing of the daemon's. -/
inductive Process.Grounded (cfg : SoftgredConfig) (env : Env) (o : Startup) (host : Kernel)
    (p : Process) : Bool → Prop
  | ready (added : List Link) (hadded : NewBridges o cfg host added)
    (hall : ∀ b ∈ cfg.bridge, (host.withLinks added).hasLink b.ifname = true) (entered : Bool)
    (hprovision : p.provisionReady = true) (hfirewall : p.firewallReady = true)
    (hstarted : Started env (host.withLinks added) p.sys) : Grounded cfg env o host p entered
  | not (added : List Link) (hadded : NewBridges o cfg host added)
    (hprovision : p.provisionReady = false) (hfirewall : p.firewallReady = false)
    (hkernel : p.Withholds ∨ p.sys.world.kernel = host.withLinks added) :
    Grounded cfg env o host p false

theorem Process.Grounded.extends {entered : Bool} (h : p.Grounded cfg env o host entered)
    (hextends : p.Extends p') : p'.Grounded cfg env o host entered := by
  cases h with
  | ready added hadded hall _ hprovision hfirewall hstarted =>
    exact .ready added hadded hall _ (hextends.provisionReady.trans hprovision)
      (hextends.firewallReady.trans hfirewall) (hextends.sys ▸ hstarted)
  | not added hadded hprovision hfirewall hkernel =>
    refine .not added hadded (hextends.provisionReady.trans hprovision)
      (hextends.firewallReady.trans hfirewall) (hkernel.imp (fun h => h.extend hextends.log) ?_)
    rw [hextends.sys]
    exact id

theorem reportFailure_extends : wp (reportFailure o) (fun _ p' => p.Extends p') p := by
  simp only [reportFailure, wp_bind, wp_get]
  refine wp_ite (fun _ => wp_ite (fun _ => ?_) fun _ => ?_) fun _ => ⟨rfl, rfl, rfl, List.suffix_refl _⟩
  · exact ⟨rfl, rfl, rfl, (List.suffix_cons _ _).trans (List.suffix_cons _ _)⟩
  · exact ⟨rfl, rfl, rfl, List.suffix_cons _ _⟩

theorem closeHeld_extends (x : Held) : wp (closeHeld x) (fun _ p' => p.Extends p') p :=
  wp_mono (closeHeld_spec x p) fun _ _ h => h.1.extends

theorem closeLog_extends : wp closeLog (fun _ p' => p.Extends p') p :=
  wp_mono (closeLog_spec p) fun _ _ h => h.1.extends

theorem noteEvents_extends (events : List ServiceEvent) :
    wp (events.forM noteEvent) (fun _ p' => p.Extends p') p := by
  induction events generalizing p with
  | nil => exact .refl p
  | cons e rest ih =>
    show wp (noteEvent e >>= fun _ => rest.forM noteEvent) _ p
    rw [wp_bind]
    cases e with
    | applied | recv | answered => exact ih
    | accepted fd =>
      have htake : p.Extends (p.take (.client fd)) := ⟨rfl, rfl, rfl, List.suffix_cons _ _⟩
      show wp (rest.forM noteEvent) (fun _ p' => p.Extends p') (p.take (.client fd))
      exact wp_mono ih fun _ _ h => htake.trans h
    | closed fd =>
      have hgive : p.Extends (p.give (.client fd)) := ⟨rfl, rfl, rfl, List.suffix_cons _ _⟩
      show wp (rest.forM noteEvent) (fun _ p' => p.Extends p') (p.give (.client fd))
      exact wp_mono ih fun _ _ h => hgive.trans h

theorem reopenLog_extends (log : Opening) :
    wp (reopenLog log) (fun _ p' => p.Extends p') p := by
  simp only [reopenLog, wp_bind, wp_get]
  cases log with
  | unavailable => exact .refl p
  | unusable => exact ⟨rfl, rfl, rfl, (List.suffix_cons _ _).trans (List.suffix_cons _ _)⟩
  | ready =>
    show wp (closeLog >>= fun _ => modify fun p => { p with logs := p.logs + 1 })
      (fun _ p' => p.Extends p') (p.take (.log (p.logs + 1)))
    rw [wp_bind]
    refine wp_mono closeLog_extends fun _ q hextends => ?_
    exact ⟨hextends.sys, hextends.provisionReady, hextends.firewallReady,
      (List.suffix_cons _ _).trans hextends.log⟩

/-- Behind the loop the kernel is as the loop has left it. -/
theorem noteHappenings_extends (log : List Happening) :
    wp (log.forM noteHappening) (fun _ p' => p.Extends p') p := by
  induction log generalizing p with
  | nil => exact .refl p
  | cons happening rest ih =>
    show wp (noteHappening happening >>= fun _ => rest.forM noteHappening) _ p
    rw [wp_bind]
    cases happening with
    | took => exact ih
    | did deed =>
      refine wp_mono (noteEvents_extends deed.events) fun _ _ h => ?_
      exact wp_mono ih fun _ _ h' => h.trans h'
    | reopened log =>
      refine wp_mono (reopenLog_extends log) fun _ _ h => ?_
      exact wp_mono ih fun _ _ h' => h.trans h'

/-- Behind `end:` two calls matter to the kernel. -/
theorem atEnd_kernel {Q : Process → Prop} {closed : List ServiceEvent} {result : Ret}
    (hQ : ∀ q q', Process.Extends q q' → Q q → Q q')
    (hwork : ∀ q, p.Extends q → wp (endProvision env) (fun _ q₁ =>
      wp (endFirewall env result) (fun _ q' => Q q') q₁) q) :
    wp (atEnd env o closed result) (fun _ p' => Q p') p := by
  simp only [atEnd, wp_bind, wp_pure]
  refine wp_mono (noteEvents_extends closed) fun _ p₀ h₀ => ?_
  refine wp_mono (closeHeld_extends .listener) fun _ p₁ h₁ => ?_
  refine wp_mono (closeHeld_extends .capture) fun _ p₂ h₂ => ?_
  refine wp_mono (hwork p₂ ((h₀.trans h₁).trans h₂)) fun _ p₃ h₃ => ?_
  refine wp_mono h₃ fun _ p₄ h₄ => ?_
  refine wp_mono (closeHeld_extends .signals) fun _ p₅ h₅ => ?_
  refine wp_mono (closeHeld_extends .pid) fun _ p₆ h₆ => ?_
  refine wp_mono reportFailure_extends fun _ p₇ h₇ => ?_
  refine wp_mono closeLog_extends fun _ p₈ h₈ => ?_
  exact hQ p₄ p₈ (((h₅.trans h₆).trans h₇).trans h₈) h₄

theorem endProvision_idle (h : p.provisionReady = false) :
    wp (endProvision env) (fun _ p' => p' = p) p := by
  simp only [endProvision, wp_bind, wp_get, h, Bool.false_eq_true, if_false]
  rfl

theorem endFirewall_idle (h : p.firewallReady = false) (result : Ret) :
    wp (endFirewall env result) (fun _ p' => p' = p) p := by
  simp only [endFirewall, wp_bind, wp_get, h, Bool.false_eq_true, if_false]
  rfl

/-- The kernel is back, unless something was withheld outside the loop. -/
def Process.Restored (k : Kernel) (p : Process) : Prop := p.Withholds ∨ p.sys.world.kernel = k

theorem Process.Restored.extends {k : Kernel} (h : p.Restored k) (hextends : p.Extends p') :
    p'.Restored k :=
  h.imp (fun h => h.extend hextends.log) fun h => (congrArg (·.world.kernel) hextends.sys).trans h

theorem atEnd_restored {k : Kernel} {closed : List ServiceEvent} {result : Ret} (hk : k.Pristine)
    (hown : ∀ t : EbTable, k.chain t t.own = none) (hsound : p.sys.world.EnodevSound)
    (hprovision : p.provisionReady = true) (hfirewall : p.firewallReady = true)
    (hreturns : p.sys.Returns cfg k) :
    wp (atEnd env o closed result) (fun _ p' => p'.Restored k) p := by
  refine atEnd_kernel (fun q q' hextends hq => hq.extends hextends) fun q hq => ?_
  have hprovision' : q.provisionReady = true := hq.provisionReady.trans hprovision
  have hreturns' : q.sys.Returns cfg k := hq.sys ▸ hreturns
  have hsound' : q.sys.world.EnodevSound := hq.sys ▸ hsound
  have hinit : wp (provisionDelall env) (fun _ s' => s'.world.initialized = true) q.sys :=
    (hreturns'.exec env .delall).initialized
  simp only [endProvision, wp_bind, wp_get, hprovision', if_true, wp_works, provisionEnd,
    tunnelsRemoveAll, wp_modify]
  refine wp_mono (wp_and hinit (provisionDelall_strips hreturns' hsound')) fun _ s₁ h => ?_
  obtain ⟨hinit, -, hout⟩ := h
  simp only [endFirewall, wp_bind, wp_get, hq.firewallReady.trans hfirewall, if_true, wp_works, wp_lift]
  have hend : wp (ifaceEbtablesEnd env) (fun _ w' => s₁.world.kernel.Stripped k →
      s₁.world.Withheld w' ∨ w'.kernel = k) s₁.world := by
    by_cases hstripped : s₁.world.kernel.Stripped k
    · refine wp_mono (ifaceEbtablesEnd_reaches hinit hstripped.own
        (hstripped.unreferred (hk.unreferred hown))) fun _ w h _ => ?_
      exact h.2.imp_right fun h => h.trans (hstripped.disowned hown)
    · exact fun h => absurd h hstripped
  refine wp_mono hend fun ret w' hend => ?_
  have hrestored : ∀ p' : Process, p'.sys.world = w' → p'.log = .works .chains s₁.world w' ::
      .works .tunnels q.sys.world s₁.world :: q.log → p'.Restored k := by
    intro p' hsys hlog
    rcases hout with hwithheld | hstripped
    · refine .inl ⟨.tunnels, _, _, ?_, by simp, hwithheld⟩
      rw [hlog]
      exact List.mem_cons_of_mem _ List.mem_cons_self
    · rcases hend hstripped with hwithheld | hkernel
      · refine .inl ⟨.chains, _, _, ?_, by simp, hwithheld⟩
        rw [hlog]
        exact List.mem_cons_self
      · exact .inr (by rw [hsys]; exact hkernel)
  cases ret with
  | fail => exact hrestored _ rfl rfl
  | ok => exact hrestored _ rfl rfl

/-- Nothing to end: the kernel stays as the start has left it. -/
theorem atEnd_idle {k : Kernel} {closed : List ServiceEvent} {result : Ret}
    (hprovision : p.provisionReady = false)
    (hfirewall : p.firewallReady = false) (hrestored : p.Restored k) :
    wp (atEnd env o closed result) (fun _ p' => p'.Restored k) p := by
  refine atEnd_kernel (fun q q' hextends hq => hq.extends hextends) fun q hq => ?_
  refine wp_mono (endProvision_idle (hq.provisionReady.trans hprovision)) fun _ q₁ h => ?_
  subst h
  refine wp_mono (endFirewall_idle (hq.firewallReady.trans hfirewall) result) fun _ q₂ h => ?_
  subst h
  exact hrestored.extends hq

/-- In the loop no deletion of a link that is there has ended with `ENODEV`. -/
def Process.LoopSound (p : Process) : Prop :=
  ∀ before after, .works .loop before after ∈ p.log → after.EnodevSound

theorem behindLoop_extends (log : List Happening) (sys : Sys) :
    Process.Extends { p with sys := sys, log := .works .loop p.sys.world sys.world :: p.log }
      (p.behindLoop log sys) :=
  noteHappenings_extends log

theorem atEnd_log {closed : List ServiceEvent} {result : Ret} :
    wp (atEnd env o closed result) (fun _ p' => p.log <:+ p'.log) p := by
  have hfirewall : ∀ q : Process, p.log <:+ q.log →
      wp (endFirewall env result) (fun _ q' => p.log <:+ q'.log) q := by
    intro q hq
    simp only [endFirewall, wp_bind, wp_get]
    refine wp_ite (fun _ => ?_) fun _ => hq
    rw [wp_bind, wp_works]
    generalize (lift (ifaceEbtablesEnd env) : ProvM Ret) = m
    rw [wp]
    cases (m.run q.sys).1 with
    | fail | ok => exact hq.trans (List.suffix_cons _ _)
  refine atEnd_kernel (fun _ _ hextends hq => hq.trans hextends.log) fun q hq => ?_
  simp only [endProvision, wp_bind, wp_get]
  refine wp_ite (fun _ => ?_) fun _ => hfirewall _ hq.log
  exact hfirewall _ (hq.log.trans (List.suffix_cons _ _))

/-- The bridges that are there in the end, and the kernel otherwise. -/
structure Process.GivesBack (cfg : SoftgredConfig) (o : Startup) (host : Kernel) (entered : Bool)
    (added : List Link) (p : Process) : Prop where
  bridges : NewBridges o cfg host added
  all : entered = true → ∀ b ∈ cfg.bridge, (host.withLinks added).hasLink b.ifname = true
  restored : p.Restored (host.withLinks added)

theorem Ends.restored {p₀ : Process} {result : Option Ret} (h : Ends cfg env o p₀ result p)
    (hsome : result.isSome = true) (hsound : p.LoopSound)
    (hstart : wp (startup cfg env o) (fun entered p => p.Grounded cfg env o host entered) p₀) :
    ∃ added, p.GivesBack cfg o host ((startup cfg env o).run p₀).1 added := by
  rw [wp] at hstart
  cases h with
  | loops => cases hsome
  | failed hrun =>
    rw [hrun] at hstart ⊢
    cases hstart with
    | ready added hadded hall _ hprovision hfirewall hstarted =>
      exact ⟨added, hadded, fun _ => hall, @atEnd_restored cfg env o _ _ _ _ hstarted.pristine
        hstarted.unowned hstarted.enodevSound hprovision hfirewall hstarted.returns⟩
    | not added hadded hprovision hfirewall hkernel =>
      exact ⟨added, hadded, fun h => Bool.noConfusion h, atEnd_idle hprovision hfirewall hkernel⟩
  | @left q q' hrun log fds hfds closed hclosed exit hp' =>
    rw [hrun] at hstart ⊢
    have hextends := behindLoop_extends (p := q) log (feed cfg env (inputsOf log) q.sys)
    rw [← hp'] at hextends
    have hend : q'.log <:+ ((atEnd env o closed exit).run q').2.log :=
      atEnd_log
    cases hstart with
    | ready added hadded hall _ hprovision hfirewall hstarted =>
      have hmem : .works .loop q.sys.world (feed cfg env (inputsOf log) q.sys).world ∈ q'.log :=
        hextends.log.subset List.mem_cons_self
      have hreturns : q'.sys.Returns cfg (host.withLinks added) := by
        rw [hextends.sys]
        exact run_returns hstarted.returns _
      refine ⟨added, hadded, fun _ => hall, atEnd_restored hstarted.pristine hstarted.unowned ?_
        (hextends.provisionReady.trans hprovision) (hextends.firewallReady.trans hfirewall) hreturns⟩
      rw [hextends.sys]
      exact hsound _ _ (hend.subset hmem)

end Kernels

namespace Sample

end Sample

end Softgre
