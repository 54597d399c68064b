-- SUMMARY: `helper_exec` with its child process: deadline, reaping, and what its result says about the command.
import Softgre.Base.Held
import Softgre.Host.World

/-!
# The helper process

A command is a child process that runs beside the daemon. When it comes to its end on
its own it has either taken effect and exits with `0`, or has changed nothing. The
daemon polls it with `waitpid` every millisecond, and kills it when three seconds have
passed.

The outside world decides when the child ends, what `waitpid` reports, how much time
passes, and what happens between the last poll and the signal.
-/

namespace Softgre

open Base

/-- `EINTR`, as `waitpid` and `nanosleep` leave it. -/
def Helper.EINTR : Errno := 4

-- ---------------------------------------------------------------------------
-- The child
-- ---------------------------------------------------------------------------

/-- How a process has ended, as `waitpid` tells it. -/
inductive Status where
  | exited (code : Nat)
  | signalled (signal : Nat)
deriving DecidableEq, Repr

inductive Child where
  | running
  | zombie (status : Status)
deriving DecidableEq, Repr

/-- `SIGKILL` comes too late for a process that has ended. -/
def Child.killed : Child → Child
  | .running => .zombie (.signalled 9)
  | .zombie status => .zombie status

/-- What happens in one round of the loop. -/
structure Round where
  /-- The child comes to its end before `waitpid` is called. -/
  ends : Bool
  /-- `waitpid` fails. -/
  fault : Option Errno
  /-- The time until the clock is read. -/
  pause : Nat
  /-- A signal cuts the sleep short. -/
  interrupted : Bool

/-- What the outside world does during one call. -/
structure Spawn where
  fork : Option Errno
  /-- The child carries out its command, if it can be carried out. -/
  willing : Bool
  /-- How it ends otherwise. -/
  failure : Status
  failure_ne : failure ≠ .exited 0
  rounds : Nat → Round
  /-- The child comes to its end after the last poll, before the signal. -/
  late : Bool
  /-- The errors of the last `waitpid`, one for each time it fails. -/
  faults : List Errno
  /-- The time a killed child takes to go. -/
  dying : Nat

/-- The state of one call. `signals` has an entry for each `SIGKILL`: whether there was a
    child that had not been reaped. -/
structure Helper where
  kernel : Kernel
  errno : Option Errno
  elapsed : Nat
  child : Option Child
  uses : List (Use Unit)
  signals : List Bool

variable (spawn : Spawn) (c : Cmd)

/-- The child comes to its end on its own. -/
def Helper.finish (h : Helper) : Helper :=
  match h.child with
  | some .running =>
    match (if spawn.willing then h.kernel.apply c else none) with
    | some k => { h with kernel := k, child := some (.zombie (.exited 0)) }
    | none => { h with child := some (.zombie spawn.failure) }
  | _ => h

def Helper.reap (h : Helper) : Helper := { h with child := none, uses := .release () :: h.uses }

def Helper.fails (h : Helper) (e : Errno) : Helper := { h with errno := some e }

-- ---------------------------------------------------------------------------
-- The call
-- ---------------------------------------------------------------------------

/-- `waitpid(child, &status, WNOHANG)`, and what of it ends the loop. -/
def Helper.poll (h : Helper) (fault : Option Errno) : Option Ret × Helper :=
  match fault with
  | some e => (if e = EINTR then none else some .fail, h.fails e)
  | none =>
    match h.child with
    | some (.zombie status) => (some (if status = .exited 0 then .ok else .fail), h.reap)
    | _ => (none, h)

/-- `while (waitpid(child, &status, 0) < 0 && errno == EINTR)`. -/
def Helper.collect (h : Helper) : List Errno → Helper
  | [] => h.reap
  | e :: rest => if e = EINTR then (h.fails e).collect rest else h.fails e

/-- `kill(child, SIGKILL)`, and the wait that follows. -/
def Helper.kill (h : Helper) : Helper :=
  let h := if spawn.late then h.finish spawn c else h
  let h := { h with
    signals := h.child.isSome :: h.signals
    child := h.child.map Child.killed
    elapsed := h.elapsed + spawn.dying }
  h.collect spawn.faults

/-- Three seconds. -/
def helperDeadline : Nat := 3000000

/-- `sleep_usec(1000)`. -/
def Helper.sleep (h : Helper) (interrupted : Bool) : Helper :=
  if interrupted then h.fails EINTR else h

def helperLoop : Nat → Nat → Helper → Option (Ret × Helper)
  | 0, _, _ => none
  | fuel + 1, i, h =>
    let round := spawn.rounds i
    let h := if round.ends then h.finish spawn c else h
    let (out, h) := h.poll round.fault
    match out with
    | some ret => some (ret, h)
    | none =>
      let h := { h with elapsed := h.elapsed + round.pause }
      if helperDeadline ≤ h.elapsed then some (.fail, h.kill spawn c)
      else helperLoop fuel (i + 1) (h.sleep round.interrupted)

def helperExecProc (fuel : Nat) (w : World) : Option (Ret × Helper) :=
  match spawn.fork with
  | some e => some (.fail, ⟨w.kernel, some e, 0, none, [], []⟩)
  | none => helperLoop spawn c fuel 0 ⟨w.kernel, none, 0, some .running, [.acquire ()], []⟩

/-- The world a call leaves behind. -/
def Helper.world (h : Helper) (c : Cmd) (ret : Ret) (w : World) : World :=
  w.record ⟨c, ret = .ok, h.errno, h.elapsed, h.kernel⟩

-- ---------------------------------------------------------------------------
-- What a child can do
-- ---------------------------------------------------------------------------

variable {spawn c} {h : Helper} {k : Kernel}

/-- A child that has not been reaped: it runs, and nothing has changed, or it has ended,
    with `0` if it has taken effect. -/
inductive Helper.Owes (spawn : Spawn) (c : Cmd) (k : Kernel) (h : Helper) : Prop where
  | running : h.child = some .running → h.kernel = k → Owes spawn c k h
  | done : h.child = some (.zombie (.exited 0)) → k.apply c = some h.kernel → Owes spawn c k h
  | failed {status} : h.child = some (.zombie status) → status ≠ .exited 0 → h.kernel = k →
      Owes spawn c k h

@[simp] theorem Helper.finish_uses (h : Helper) : (h.finish spawn c).uses = h.uses := by
  rw [Helper.finish]
  split
  · split <;> rfl
  · rfl

@[simp] theorem Helper.finish_signals (h : Helper) : (h.finish spawn c).signals = h.signals := by
  rw [Helper.finish]
  split
  · split <;> rfl
  · rfl

@[simp] theorem Helper.finish_elapsed (h : Helper) : (h.finish spawn c).elapsed = h.elapsed := by
  rw [Helper.finish]
  split
  · split <;> rfl
  · rfl

/-- Either the command has taken effect, or nothing has changed. -/
def Helper.Effect (c : Cmd) (k : Kernel) (h : Helper) : Prop :=
  k.apply c = some h.kernel ∨ h.kernel = k

namespace Helper.Owes

theorem congr {h' : Helper} (howes : h.Owes spawn c k) (hchild : h'.child = h.child)
    (hkernel : h'.kernel = h.kernel) : h'.Owes spawn c k := by
  cases howes with
  | running hc hk => exact .running (hchild.trans hc) (hkernel.trans hk)
  | done hc hk => exact .done (hchild.trans hc) (hkernel ▸ hk)
  | failed hc hne hk => exact .failed (hchild.trans hc) hne (hkernel.trans hk)

theorem finish (howes : h.Owes spawn c k) : (h.finish spawn c).Owes spawn c k := by
  cases howes with
  | running hc hk =>
    simp only [Helper.finish, hc, hk]
    split
    · next k' happly =>
      refine .done rfl ?_
      split at happly
      · exact happly
      · cases happly
    · exact .failed rfl spawn.failure_ne rfl
  | done hc hk => simp only [Helper.finish, hc]; exact .done hc hk
  | failed hc hne hk => simp only [Helper.finish, hc]; exact .failed hc hne hk

theorem effect (howes : h.Owes spawn c k) : h.Effect c k := by
  cases howes with
  | running _ hk => exact .inr hk
  | done _ hk => exact .inl hk
  | failed _ _ hk => exact .inr hk

theorem isSome (howes : h.Owes spawn c k) : h.child.isSome = true := by
  cases howes with
  | running hc | done hc | failed hc => rw [hc]; rfl

end Helper.Owes

/-- While the loop goes on, the child is held and has not been signalled. -/
structure Helper.Waits (spawn : Spawn) (c : Cmd) (k : Kernel) (h : Helper) : Prop where
  owes : h.Owes spawn c k
  uses : h.uses = [.acquire ()]
  signals : h.signals = []
  early : h.elapsed < helperDeadline

/-- `waitpid` has failed for good, and the child was not reaped. -/
def Spawn.Broken (spawn : Spawn) : Prop :=
  (∃ i e, (spawn.rounds i).fault = some e ∧ e ≠ Helper.EINTR) ∨
    ∃ e ∈ spawn.faults, e ≠ Helper.EINTR

/-- What a call leaves behind. The child is reaped once, unless `waitpid` is broken; it
    gets a signal at most once, and only before it is reaped. What the command did is
    what the result says, except that a failure may hide an effect when the deadline has
    passed or `waitpid` is broken. -/
structure Helper.Ended (spawn : Spawn) (c : Cmd) (k : Kernel) (ret : Ret) (h : Helper) : Prop where
  accounts : Accounts (fun _ => h.child.isSome) h.uses
  reaped : h.child.isSome = true → spawn.Broken
  signals : h.signals = [] ∨ h.signals = [true]
  effect : h.Effect c k
  ok : ret = .ok → k.apply c = some h.kernel
  fail : ret = .fail → h.kernel = k ∨ helperDeadline ≤ h.elapsed ∨ spawn.Broken

theorem accounts_held : Accounts (fun _ => true) [Use.acquire ()] := by
  intro x
  cases x
  rfl

theorem accounts_reaped : Accounts (fun _ => false) [Use.release (), .acquire ()] := by
  intro x
  cases x
  rfl

-- ---------------------------------------------------------------------------
-- The loop
-- ---------------------------------------------------------------------------

/-- After the signal the child is collected, whatever it has done. -/
theorem Helper.Effect.collect {errs : List Errno} (heffect : h.Effect c k)
    (hsome : h.child.isSome = true) (huses : h.uses = [.acquire ()])
    (hsignals : h.signals = [true]) (hlate : helperDeadline ≤ h.elapsed)
    (hfaults : ∀ e ∈ errs, e ≠ Helper.EINTR → spawn.Broken) :
    (h.collect errs).Ended spawn c k .fail := by
  induction errs generalizing h with
  | nil =>
    refine ⟨?_, by simp [Helper.collect, Helper.reap], .inr hsignals, heffect, by simp,
      fun _ => .inr (.inl hlate)⟩
    show Accounts (fun _ => false) (.release () :: h.uses)
    rw [huses]
    exact accounts_reaped
  | cons e rest ih =>
    rw [Helper.collect]
    split
    · exact ih heffect hsome huses hsignals hlate fun e' he' => hfaults e' (List.mem_cons_of_mem _ he')
    · next hne =>
      refine ⟨?_, fun _ => hfaults e List.mem_cons_self hne, .inr hsignals, heffect, by simp,
        fun _ => .inr (.inl hlate)⟩
      show Accounts (fun _ => h.child.isSome) h.uses
      rw [hsome, huses]
      exact accounts_held

theorem Helper.Owes.kill (howes : h.Owes spawn c k) (huses : h.uses = [.acquire ()])
    (hsignals : h.signals = []) (hlate : helperDeadline ≤ h.elapsed) :
    (h.kill spawn c).Ended spawn c k .fail := by
  have hlast : ∀ h' : Helper, h'.Owes spawn c k → h'.uses = h.uses → h'.signals = h.signals →
      h'.elapsed = h.elapsed →
      (Helper.collect { h' with
        signals := h'.child.isSome :: h'.signals
        child := h'.child.map Child.killed
        elapsed := h'.elapsed + spawn.dying } spawn.faults).Ended spawn c k .fail := by
    intro h' howes' huses' hsignals' helapsed'
    refine Helper.Effect.collect howes'.effect ?_ (huses'.trans huses) ?_ ?_ ?_
    · rw [Option.isSome_map, howes'.isSome]
    · show h'.child.isSome :: h'.signals = [true]
      rw [howes'.isSome, hsignals', hsignals]
    · show helperDeadline ≤ h'.elapsed + spawn.dying
      omega
    · exact fun e he hne => .inr ⟨e, he, hne⟩
  rw [Helper.kill]
  split
  · exact hlast _ howes.finish (by simp) (by simp) (by simp)
  · exact hlast h howes rfl rfl rfl

/-- A poll that ends the loop reports how the child has ended, or that `waitpid` is
    broken. -/
theorem Helper.Waits.poll {fault : Option Errno} {ret : Ret} {h' : Helper}
    (hwaits : h.Waits spawn c k) (hfault : ∀ e, fault = some e → e ≠ Helper.EINTR → spawn.Broken)
    (hpoll : h.poll fault = (some ret, h')) : h'.Ended spawn c k ret := by
  cases fault with
  | some e =>
    simp only [Helper.poll] at hpoll
    split at hpoll
    · cases hpoll
    · next hne =>
      cases hpoll
      have hbroken := hfault e rfl hne
      refine ⟨?_, fun _ => hbroken, .inl hwaits.signals, hwaits.owes.effect, by simp,
        fun _ => .inr (.inr hbroken)⟩
      show Accounts (fun _ => h.child.isSome) h.uses
      rw [hwaits.owes.isSome, hwaits.uses]
      exact accounts_held
  | none =>
    have hreap : Accounts (fun _ => h.reap.child.isSome) h.reap.uses := by
      show Accounts (fun _ => false) (.release () :: h.uses)
      rw [hwaits.uses]
      exact accounts_reaped
    have hgone : h.reap.child.isSome = true → spawn.Broken := fun h => by cases h
    cases hwaits.owes with
    | running hc =>
      simp only [Helper.poll, hc] at hpoll
      cases hpoll
    | done hc hk =>
      simp only [Helper.poll, hc, if_true] at hpoll
      cases hpoll
      exact ⟨hreap, hgone, .inl hwaits.signals, .inl hk, fun _ => hk, by simp⟩
    | failed hc hne hk =>
      simp only [Helper.poll, hc, if_neg hne] at hpoll
      cases hpoll
      exact ⟨hreap, hgone, .inl hwaits.signals, .inr hk, by simp, fun _ => .inl hk⟩

/-- A poll after which the loop goes on changes nothing but `errno`. -/
theorem Helper.poll_none {fault : Option Errno} {h' : Helper} (hpoll : h.poll fault = (none, h')) :
    ∃ errno, h' = { h with errno := errno } := by
  cases fault with
  | some e =>
    simp only [Helper.poll] at hpoll
    split at hpoll
    · cases hpoll
      exact ⟨some e, rfl⟩
    · cases hpoll
  | none =>
    simp only [Helper.poll] at hpoll
    split at hpoll
    · cases hpoll
    · cases hpoll
      exact ⟨h.errno, rfl⟩

/-- The time that passes in `n` rounds from round `i` on. -/
def Spawn.passes (spawn : Spawn) (i : Nat) : Nat → Nat
  | 0 => 0
  | n + 1 => (spawn.rounds i).pause + spawn.passes (i + 1) n

theorem Helper.poll_elapsed (h : Helper) (fault : Option Errno) :
    (h.poll fault).2.elapsed = h.elapsed := by
  cases fault with
  | some e => rfl
  | none =>
    simp only [Helper.poll]
    split <;> rfl

theorem Helper.collect_elapsed (h : Helper) (errs : List Errno) :
    (h.collect errs).elapsed = h.elapsed := by
  induction errs generalizing h with
  | nil => rfl
  | cons e rest ih =>
    rw [Helper.collect]
    split
    · exact ih _
    · rfl

theorem Helper.kill_elapsed (h : Helper) : (h.kill spawn c).elapsed = h.elapsed + spawn.dying := by
  rw [Helper.kill]
  split
  · exact (Helper.collect_elapsed _ _).trans (congrArg (· + spawn.dying) (Helper.finish_elapsed h))
  · exact Helper.collect_elapsed _ _

/-- The loop ends once the time has passed, and not much later. -/
theorem helperLoop_ended {fuel i : Nat} (hwaits : h.Waits spawn c k)
    (htime : helperDeadline ≤ h.elapsed + spawn.passes i fuel) :
    ∃ ret h', helperLoop spawn c fuel i h = some (ret, h') ∧ h'.Ended spawn c k ret ∧
      ∃ j, h'.elapsed < helperDeadline + (spawn.rounds j).pause + spawn.dying + 1 := by
  induction fuel generalizing i h with
  | zero => exact absurd htime (Nat.not_le_of_lt hwaits.early)
  | succ fuel ih =>
    -- the child may come to its end before the poll
    obtain ⟨h₁, hh₁⟩ : ∃ h₁, h₁ = if (spawn.rounds i).ends then h.finish spawn c else h := ⟨_, rfl⟩
    have hwaits₁ : h₁.Waits spawn c k ∧ h₁.elapsed = h.elapsed := by
      rw [hh₁]
      split
      · exact ⟨⟨hwaits.owes.finish, by simpa using hwaits.uses, by simpa using hwaits.signals,
          by simpa using hwaits.early⟩, Helper.finish_elapsed h⟩
      · exact ⟨hwaits, rfl⟩
    obtain ⟨hwaits₁, helapsed₁⟩ := hwaits₁
    rw [helperLoop, ← hh₁]
    cases hpoll : h₁.poll (spawn.rounds i).fault with
    | mk out h₂ =>
    have helapsed₂ : h₂.elapsed = h.elapsed := by
      have := h₁.poll_elapsed (spawn.rounds i).fault
      rw [hpoll] at this
      exact this.trans helapsed₁
    cases out with
    | some ret =>
      refine ⟨ret, h₂, rfl, hwaits₁.poll (fun e he hne => .inl ⟨i, e, he, hne⟩) hpoll, i, ?_⟩
      have := hwaits.early
      omega
    | none =>
      obtain ⟨errno, rfl⟩ := Helper.poll_none hpoll
      simp only
      split
      · next hlate =>
        refine ⟨.fail, _, rfl, Helper.Owes.kill (hwaits₁.owes.congr rfl rfl) hwaits₁.uses
          hwaits₁.signals hlate, i, ?_⟩
        rw [Helper.kill_elapsed]
        have := hwaits.early
        show h₁.elapsed + _ + _ < _
        omega
      · next hearly =>
        have hearly : h₁.elapsed + (spawn.rounds i).pause < helperDeadline := Nat.lt_of_not_le hearly
        -- the sleep leaves only `errno` behind
        refine ih ?_ ?_
        · rw [Helper.sleep]
          split
          · exact ⟨hwaits₁.owes.congr rfl rfl, hwaits₁.uses, hwaits₁.signals, hearly⟩
          · exact ⟨hwaits₁.owes.congr rfl rfl, hwaits₁.uses, hwaits₁.signals, hearly⟩
        · rw [Spawn.passes] at htime
          have hsleep : ∀ h' : Helper, ∀ b, (h'.sleep b).elapsed = h'.elapsed := by
            intro h' b
            rw [Helper.sleep]
            split <;> rfl
          rw [hsleep]
          show helperDeadline ≤ h₁.elapsed + _ + _
          omega

-- ---------------------------------------------------------------------------
-- The command
-- ---------------------------------------------------------------------------

theorem run_helperExec_done {errno : Option Errno} {elapsed : Nat} {w : World}
    (happly : w.kernel.apply c = some k) :
    (helperExec (fun _ _ => ⟨true, errno, elapsed⟩) c).run w =
      (.ok, w.record ⟨c, true, errno, elapsed, k⟩) := by
  simp only [helperExec, perform, StateT.run, if_true, happly]

theorem run_helperExec_refused (errno : Option Errno) (elapsed : Nat) (w : World) :
    (helperExec (fun _ _ => ⟨false, errno, elapsed⟩) c).run w =
      (.fail, w.record ⟨c, false, errno, elapsed, w.kernel⟩) := by
  simp only [helperExec, perform, StateT.run, Bool.false_eq_true, if_false, Option.or_none]

/-- `helper_exec` returns once three seconds have passed, or before, whatever the child
    does. It reaps the child exactly once and signals nothing but the child, unless
    `waitpid` is broken. To the daemon the call is a command that is carried out or
    refused, except that a command which took effect can be reported as failed, when the
    deadline has passed or `waitpid` is broken. -/
theorem helper_exec_refines (spawn : Spawn) (c : Cmd) (w : World) (n : Nat)
    (htime : helperDeadline ≤ spawn.passes 0 n) :
    ∃ ret h, helperExecProc spawn c n w = some (ret, h) ∧
      (∃ j, h.elapsed ≤ helperDeadline + (spawn.rounds j).pause + spawn.dying) ∧
      (Accounts (fun _ => h.child.isSome) h.uses ∧ (h.child.isSome = true → spawn.Broken)) ∧
      (h.signals = [] ∨ h.signals = [true]) ∧
      ((∃ reply, (helperExec (fun _ _ => reply) c).run w = (ret, h.world c ret w)) ∨
        (ret = .fail ∧ w.kernel.apply c = some h.kernel ∧
          (helperDeadline ≤ h.elapsed ∨ spawn.Broken))) := by
  have hdone : ∀ ret (h : Helper), h.Ended spawn c w.kernel ret →
      (∃ reply, (helperExec (fun _ _ => reply) c).run w = (ret, h.world c ret w)) ∨
        (ret = .fail ∧ w.kernel.apply c = some h.kernel ∧
          (helperDeadline ≤ h.elapsed ∨ spawn.Broken)) := by
    intro ret h hended
    have hrefused : h.kernel = w.kernel → ret = .fail →
        (helperExec (fun _ _ => ⟨false, h.errno, h.elapsed⟩) c).run w = (ret, h.world c ret w) := by
      intro hsame hfail
      rw [run_helperExec_refused, Helper.world, hsame, hfail]
      rfl
    cases ret with
    | ok =>
      refine .inl ⟨⟨true, h.errno, h.elapsed⟩, ?_⟩
      rw [run_helperExec_done (hended.ok rfl)]
      rfl
    | fail =>
      rcases hended.fail rfl with hsame | hwhy
      · exact .inl ⟨_, hrefused hsame rfl⟩
      · exact hended.effect.elim (fun heffect => .inr ⟨rfl, heffect, hwhy⟩)
          fun hsame => .inl ⟨_, hrefused hsame rfl⟩
  rw [helperExecProc]
  cases hfork : spawn.fork with
  | some e =>
    refine ⟨.fail, _, rfl, ⟨0, Nat.zero_le _⟩, ⟨fun _ => rfl, by simp⟩, .inl rfl, .inl ?_⟩
    exact ⟨⟨false, some e, 0⟩, rfl⟩
  | none =>
    have hwaits : Helper.Waits spawn c w.kernel
        ⟨w.kernel, none, 0, some .running, [.acquire ()], []⟩ :=
      ⟨.running rfl rfl, rfl, rfl, Nat.succ_pos _⟩
    obtain ⟨ret, h, hrun, hended, j, hj⟩ := helperLoop_ended hwaits
      (htime.trans (Nat.le_add_left _ _))
    exact ⟨ret, h, hrun, ⟨j, Nat.le_of_lt_succ hj⟩, ⟨hended.accounts, hended.reaped⟩,
      hended.signals, hdone ret h hended⟩

namespace Sample

/-- A child that comes to its end after the last poll, just before the signal. -/
def overrun : Spawn where
  fork := none
  willing := true
  failure := .exited 1
  failure_ne := by decide
  rounds _ := ⟨false, none, 1000000, false⟩
  late := true
  faults := [Helper.EINTR]
  dying := 5

/-- A kernel without links and chains. -/
def blank : World := ⟨⟨[], fun _ _ => none⟩, [], 0, 0, false⟩

end Sample

/-- The chain is there, and the call says that it failed. -/
theorem helper_exec_refines_overrun :
    ((helperExecProc Sample.overrun (.newChain .nat .softgreIn) 3 Sample.blank).map fun out =>
      (out.1, out.2.elapsed, out.2.signals, out.2.kernel.chain .nat .softgreIn)) =
        some (.fail, 3000005, [true], some []) ∧
    ∃ ret h, helperExecProc Sample.overrun (.newChain .nat .softgreIn) 3 Sample.blank = some (ret, h) ∧
      (h.signals = [] ∨ h.signals = [true]) :=
  ⟨by decide, (helper_exec_refines Sample.overrun (.newChain .nat .softgreIn) Sample.blank 3
    (by decide)).imp fun _ => Exists.imp fun _ h => ⟨h.1, h.2.2.2.1⟩⟩

end Softgre
