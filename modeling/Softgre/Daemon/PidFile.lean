-- SUMMARY: The PID file as a lock between daemons that start and stop in any order.
import Softgre.Compat
import Mathlib.Logic.Function.Basic

/-!
# The PID file

Any number of processes call `softgred_config_create_pid_file` and, when they stop,
`softgred_config_remove_pid_file`, on one path. A step is one system call of one
process, so that the calls of different processes may come in any order; a process
may also die, which closes its descriptor. The lock belongs to the file and not to
the path, and the path may have been unlinked between `open` and `fcntl`.
-/

namespace Softgre

-- ---------------------------------------------------------------------------
-- Files and processes
-- ---------------------------------------------------------------------------

abbrev Ino := Nat
abbrev Pid := Nat

/-- What `fstat` tells about a file, and its contents. -/
structure FileState where
  regular : Bool
  nlink : Nat
  uid : Nat
  /-- `S_IWGRP` or `S_IWOTH`. -/
  shared : Bool
  text : CStr
deriving DecidableEq, Repr

/-- What the path leads to. -/
inductive PathEntry where
  | absent
  | symlink
  | file (ino : Ino)
deriving DecidableEq, Repr

/-- Where a process is: the system call that comes next. -/
inductive PidPhase where
  /-- `open`; `pid_fd` is -1. -/
  | out
  /-- `fstat` and its tests. -/
  | opened (ino : Ino)
  /-- `fcntl`. -/
  | checked (ino : Ino)
  /-- `ftruncate`. -/
  | locked (ino : Ino)
  /-- `write`. -/
  | emptied (ino : Ino)
  /-- The file is created, and the daemon runs. -/
  | running (ino : Ino)
  /-- `unlink`. -/
  | stopping (ino : Ino)
  /-- `close`, after `unlink`. -/
  | unlinked (ino : Ino)
  /-- `close`, because a call failed. -/
  | refused (ino : Ino)
deriving DecidableEq, Repr

/-- The file behind `pid_fd`. -/
def PidPhase.fd : PidPhase → Option Ino
  | .out => none
  | .opened ino | .checked ino | .locked ino | .emptied ino | .running ino => some ino
  | .stopping ino | .unlinked ino | .refused ino => some ino

/-- The file the process has locked and not yet unlinked. -/
def PidPhase.owned : PidPhase → Option Ino
  | .locked ino | .emptied ino | .running ino | .stopping ino => some ino
  | _ => none

structure PidFs where
  euid : Nat
  entry : PathEntry
  file : Ino → FileState
  lock : Ino → Option Pid
  /-- Files from here on are still to be made. -/
  fresh : Ino
  phase : Pid → PidPhase

def pidText (pid : Pid) : CStr := snprintf 32 (dec pid ++ ['\n'])

/-- The tests of `softgred_config_create_pid_file`. -/
def FileState.trusted (file : FileState) (euid : Nat) : Bool :=
  file.regular && file.nlink == 1 && file.uid == euid && !file.shared

/-- What a process may do, or may happen to it. -/
inductive PidAct where
  /-- The next call, as far as the file system lets it succeed. -/
  | next
  /-- The next call fails, for a reason of its own. -/
  | fails
  /-- `write` comes to its end after `n` bytes. -/
  | short (n : Nat)
  /-- The daemon leaves its loop. -/
  | stop
  | crash
deriving DecidableEq, Repr

namespace PidFs

def goto (s : PidFs) (p : Pid) (phase : PidPhase) : PidFs :=
  { s with phase := Function.update s.phase p phase }

def edit (s : PidFs) (ino : Ino) (f : FileState → FileState) : PidFs :=
  { s with file := Function.update s.file ino (f (s.file ino)) }

/-- `open` of a path that does not exist. -/
def create (s : PidFs) : PidFs :=
  { s with
    entry := .file s.fresh
    file := Function.update s.file s.fresh ⟨true, 1, s.euid, false, []⟩
    fresh := s.fresh + 1 }

/-- `write` at the start of the file. -/
def write (s : PidFs) (ino : Ino) (text : CStr) : PidFs :=
  s.edit ino fun f => { f with text := text ++ f.text.drop text.length }

def unlink (s : PidFs) : PidFs :=
  match s.entry with
  | .file ino => { s.edit ino fun f => { f with nlink := f.nlink - 1 } with entry := .absent }
  | .symlink | .absent => { s with entry := .absent }

/-- `fcntl`, when nobody else has the lock. -/
def acquire (s : PidFs) (p : Pid) (ino : Ino) : PidFs :=
  { s.goto p (.locked ino) with lock := Function.update s.lock ino (some p) }

/-- `close`, which also gives back the lock of the process. -/
def close (s : PidFs) (p : Pid) (ino : Ino) : PidFs :=
  { s.goto p .out with
    lock := Function.update s.lock ino (if s.lock ino = some p then none else s.lock ino) }

/-- The end of a process. -/
def die (s : PidFs) (p : Pid) : PidFs :=
  match (s.phase p).fd with
  | some ino => s.close p ino
  | none => s

/-- The last call of `softgred_config_create_pid_file`, when `write` has written `text`. -/
def finish (s : PidFs) (p : Pid) (ino : Ino) (text : CStr) : PidFs :=
  (s.write ino text).goto p (if text = pidText p then .running ino else .refused ino)

/-- The next call of a process. -/
def call (s : PidFs) (p : Pid) : PidFs :=
  match s.phase p with
  | .out =>
    match s.entry with
    | .absent => s.create.goto p (.opened s.fresh)
    | .symlink => s
    | .file ino => s.goto p (.opened ino)
  | .opened ino =>
    if (s.file ino).trusted s.euid then s.goto p (.checked ino) else s.goto p (.refused ino)
  | .checked ino =>
    if s.lock ino = none ∨ s.lock ino = some p then s.acquire p ino
    else s.goto p (.refused ino)
  | .locked ino => (s.edit ino fun f => { f with text := [] }).goto p (.emptied ino)
  | .emptied ino => s.finish p ino (pidText p)
  | .running _ => s
  | .stopping ino => s.unlink.goto p (.unlinked ino)
  | .unlinked ino | .refused ino => s.close p ino

/-- A call that fails. The result of `unlink` is not looked at. -/
def fail (s : PidFs) (p : Pid) : PidFs :=
  match s.phase p with
  | .out | .running _ => s
  | .opened ino | .checked ino | .locked ino | .emptied ino => s.goto p (.refused ino)
  | .stopping ino => s.goto p (.unlinked ino)
  | .unlinked ino | .refused ino => s.close p ino

def step (s : PidFs) (p : Pid) : PidAct → PidFs
  | .next => s.call p
  | .fails => s.fail p
  | .short n =>
    match s.phase p with
    | .emptied ino => s.finish p ino ((pidText p).take n)
    | _ => s
  | .stop =>
    match s.phase p with
    | .running ino => s.goto p (.stopping ino)
    | _ => s
  | .crash => s.die p

end PidFs

def pidRun (acts : List (Pid × PidAct)) (s : PidFs) : PidFs :=
  acts.foldl (fun s a => s.step a.1 a.2) s

/-- Before any process has started. -/
structure PidFs.Initial (s : PidFs) : Prop where
  phase : ∀ p, s.phase p = .out
  lock : ∀ ino, s.lock ino = none
  entry : ∀ ino, s.entry = .file ino → ino < s.fresh

/-- The file the process is about to lock. -/
def PidPhase.wanted : PidPhase → Option Ino
  | .checked ino => some ino
  | _ => none

theorem PidPhase.wanted_iff {phase : PidPhase} {ino : Ino} :
    ino ∈ phase.wanted ↔ phase = .checked ino := by
  cases phase <;> simp [wanted, Option.mem_def]

/-- The process gets the lock of a file that the path no longer leads to. -/
def PidFs.Late (s : PidFs) (p : Pid) (a : PidAct) : Prop :=
  a = .next ∧ ∃ ino ∈ (s.phase p).wanted, (s.lock ino = none ∨ s.lock ino = some p) ∧
    s.entry ≠ .file ino

instance (s : PidFs) (p : Pid) (a : PidAct) : Decidable (s.Late p a) :=
  inferInstanceAs (Decidable (_ ∧ _))

/-- No process is late. -/
def Timely : List (Pid × PidAct) → PidFs → Prop
  | [], _ => True
  | a :: rest, s => ¬ s.Late a.1 a.2 ∧ Timely rest (s.step a.1 a.2)

def Timely.decide : ∀ acts s, Decidable (Timely acts s)
  | [], _ => .isTrue trivial
  | _ :: rest, _ =>
    have := Timely.decide rest
    inferInstanceAs (Decidable (_ ∧ _))

instance (acts : List (Pid × PidAct)) (s : PidFs) : Decidable (Timely acts s) := Timely.decide acts s

-- ---------------------------------------------------------------------------
-- What a step can do
-- ---------------------------------------------------------------------------

/-- The steps of process `p`, with what each of them needs. -/
inductive PidMove (s : PidFs) (p : Pid) (a : PidAct) : PidFs → Prop where
  | stays : PidMove s p a s
  | creates (hp : s.phase p = .out) (hentry : s.entry = .absent) :
      PidMove s p a (s.create.goto p (.opened s.fresh))
  | opens {ino : Ino} (hp : s.phase p = .out) (hentry : s.entry = .file ino) :
      PidMove s p a (s.goto p (.opened ino))
  | accepts {ino : Ino} (hp : s.phase p = .opened ino) : PidMove s p a (s.goto p (.checked ino))
  | refuses {ino : Ino} (hp : (s.phase p).fd = some ino) : PidMove s p a (s.goto p (.refused ino))
  | locks {ino : Ino} (ha : a = .next) (hp : s.phase p = .checked ino)
      (hlock : s.lock ino = none ∨ s.lock ino = some p) :
      PidMove s p a (s.acquire p ino)
  | empties {ino : Ino} (hp : s.phase p = .locked ino) :
      PidMove s p a ((s.edit ino fun f => { f with text := [] }).goto p (.emptied ino))
  | writes {ino : Ino} {text : CStr} (hp : s.phase p = .emptied ino) (htext : text = pidText p) :
      PidMove s p a ((s.write ino text).goto p (.running ino))
  | tears {ino : Ino} {text : CStr} (hp : s.phase p = .emptied ino) :
      PidMove s p a ((s.write ino text).goto p (.refused ino))
  | stops {ino : Ino} (hp : s.phase p = .running ino) : PidMove s p a (s.goto p (.stopping ino))
  | unlinks {ino : Ino} (hp : s.phase p = .stopping ino) :
      PidMove s p a (s.unlink.goto p (.unlinked ino))
  | keeps {ino : Ino} (hp : s.phase p = .stopping ino) : PidMove s p a (s.goto p (.unlinked ino))
  | closes {ino : Ino} (hp : (s.phase p).fd = some ino) : PidMove s p a (s.close p ino)

namespace PidFs

variable {s : PidFs} {p : Pid}

theorem finish_move {a : PidAct} {ino : Ino} (hp : s.phase p = .emptied ino) (text : CStr) :
    PidMove s p a (s.finish p ino text) := by
  rw [finish]
  split
  · next htext => exact .writes hp htext
  · exact .tears hp

theorem call_move (s : PidFs) (p : Pid) : PidMove s p .next (s.call p) := by
  rw [call]
  split
  · next hp =>
    split
    · next hentry => exact .creates hp hentry
    · exact .stays
    · next hentry => exact .opens hp hentry
  · next hp =>
    split
    · exact .accepts hp
    · exact .refuses (by rw [hp]; rfl)
  · next hp =>
    split
    · next hlock => exact .locks rfl hp hlock
    · exact .refuses (by rw [hp]; rfl)
  · next hp => exact .empties hp
  · next hp => exact finish_move hp _
  · exact .stays
  · next hp => exact .unlinks hp
  · next hp => exact .closes (by rw [hp]; rfl)
  · next hp => exact .closes (by rw [hp]; rfl)

theorem fail_move (s : PidFs) (p : Pid) : PidMove s p .fails (s.fail p) := by
  rw [fail]
  split
  · exact .stays
  · exact .stays
  · next hp => exact .refuses (by rw [hp]; rfl)
  · next hp => exact .refuses (by rw [hp]; rfl)
  · next hp => exact .refuses (by rw [hp]; rfl)
  · next hp => exact .refuses (by rw [hp]; rfl)
  · next hp => exact .keeps hp
  · next hp => exact .closes (by rw [hp]; rfl)
  · next hp => exact .closes (by rw [hp]; rfl)

theorem step_move (s : PidFs) (p : Pid) (a : PidAct) : PidMove s p a (s.step p a) := by
  cases a with
  | next => exact call_move s p
  | fails => exact fail_move s p
  | short n =>
    rw [step]
    split
    · next hp => exact finish_move hp _
    · exact .stays
  | stop =>
    rw [step]
    split
    · next hp => exact .stops hp
    · exact .stays
  | crash =>
    rw [step, die]
    split
    · next hp => exact .closes hp
    · exact .stays

end PidFs

-- ---------------------------------------------------------------------------
-- Locks and contents
-- ---------------------------------------------------------------------------

/-- A lock has one owner, who has the file open, and only the owner writes to it. -/
structure PidFs.Inv (s : PidFs) : Prop where
  fd_lt : ∀ {p ino}, (s.phase p).fd = some ino → ino < s.fresh
  entry_lt : ∀ {ino}, s.entry = .file ino → ino < s.fresh
  lock_fd : ∀ {ino p}, s.lock ino = some p → (s.phase p).fd = some ino
  owned : ∀ {p ino}, (s.phase p).owned = some ino → s.lock ino = some p
  emptied : ∀ {p ino}, s.phase p = .emptied ino → (s.file ino).text = []
  running : ∀ {p ino}, s.phase p = .running ino → (s.file ino).text = pidText p

namespace PidFs

variable {s s' : PidFs} {p q : Pid} {ino : Ino}

theorem phase_goto (s : PidFs) (p : Pid) (phase : PidPhase) (q : Pid) :
    (s.goto p phase).phase q = if q = p then phase else s.phase q :=
  Function.update_apply s.phase p phase q

theorem phase_acquire (s : PidFs) (p : Pid) (ino : Ino) (q : Pid) :
    (s.acquire p ino).phase q = if q = p then .locked ino else s.phase q :=
  phase_goto s p (.locked ino) q

theorem lock_acquire (s : PidFs) (p : Pid) (ino j : Ino) :
    (s.acquire p ino).lock j = if j = ino then some p else s.lock j :=
  Function.update_apply s.lock ino (some p) j

theorem phase_close (s : PidFs) (p : Pid) (ino : Ino) (q : Pid) :
    (s.close p ino).phase q = if q = p then .out else s.phase q :=
  phase_goto s p .out q

theorem lock_close (s : PidFs) (p : Pid) (ino j : Ino) :
    (s.close p ino).lock j =
      if j = ino then (if s.lock ino = some p then none else s.lock ino) else s.lock j :=
  Function.update_apply s.lock ino _ j

theorem owned_fd {phase : PidPhase} (h : phase.owned = some ino) : phase.fd = some ino := by
  cases phase <;> first | exact h | cases h

theorem Initial.inv (h : s.Initial) : s.Inv where
  fd_lt := by
    intro p ino hfd
    rw [h.phase] at hfd
    cases hfd
  entry_lt := h.entry _
  lock_fd := by
    intro ino p hlock
    rw [h.lock] at hlock
    cases hlock
  owned := by
    intro p ino howned
    rw [h.phase] at howned
    cases howned
  emptied := by
    intro p ino hp
    rw [h.phase] at hp
    cases hp
  running := by
    intro p ino hp
    rw [h.phase] at hp
    cases hp

/-- A change of phase that leaves the file system as it is. -/
theorem Inv.goto (h : s.Inv) {phase : PidPhase}
    (hfd : ∀ {ino}, phase.fd = some ino → (s.phase p).fd = some ino ∨ s.entry = .file ino)
    (hlock : ∀ {ino}, s.lock ino = some p → phase.fd = some ino)
    (howned : ∀ {ino}, phase.owned = some ino → s.lock ino = some p)
    (hemptied : ∀ {ino}, phase = .emptied ino → (s.file ino).text = [])
    (hrunning : ∀ {ino}, phase = .running ino → (s.file ino).text = pidText p) :
    (s.goto p phase).Inv where
  fd_lt := by
    intro q ino hq
    rw [phase_goto] at hq
    split at hq
    · exact (hfd hq).elim h.fd_lt h.entry_lt
    · exact h.fd_lt hq
  entry_lt := h.entry_lt
  lock_fd := by
    intro ino q hq
    rw [phase_goto]
    split
    · next heq => exact hlock (heq ▸ hq)
    · exact h.lock_fd hq
  owned := by
    intro q ino hq
    rw [phase_goto] at hq
    split at hq
    · next heq => exact heq ▸ howned hq
    · exact h.owned hq
  emptied := by
    intro q ino hq
    rw [phase_goto] at hq
    split at hq
    · exact hemptied hq
    · exact h.emptied hq
  running := by
    intro q ino hq
    rw [phase_goto] at hq
    split at hq
    · next heq => exact heq ▸ hrunning hq
    · exact h.running hq

theorem file_edit (s : PidFs) (ino : Ino) (f : FileState → FileState) (j : Ino) :
    (s.edit ino f).file j = if j = ino then f (s.file ino) else s.file j :=
  Function.update_apply s.file ino _ j

theorem Inv.create (h : s.Inv) : s.create.Inv where
  fd_lt hfd := Nat.lt_succ_of_lt (h.fd_lt hfd)
  entry_lt := by
    intro ino hentry
    cases hentry
    exact Nat.lt_succ_self _
  lock_fd := h.lock_fd
  owned := h.owned
  emptied := by
    intro p ino hp
    have hlt := h.fd_lt (show (s.phase p).fd = some ino by rw [show s.phase p = _ from hp]; rfl)
    exact (congrArg FileState.text (Function.update_of_ne (Nat.ne_of_lt hlt) _ _)).trans (h.emptied hp)
  running := by
    intro p ino hp
    have hlt := h.fd_lt (show (s.phase p).fd = some ino by rw [show s.phase p = _ from hp]; rfl)
    exact (congrArg FileState.text (Function.update_of_ne (Nat.ne_of_lt hlt) _ _)).trans (h.running hp)

theorem unlink_eq (s : PidFs) : ∃ file, s.unlink = { s with entry := .absent, file := file } ∧
    ∀ j, (file j).text = (s.file j).text := by
  rw [unlink]
  split
  · next ino _ =>
    refine ⟨_, rfl, fun j => ?_⟩
    show ((s.edit ino _).file j).text = _
    rw [file_edit]
    split
    · next heq => rw [heq]
    · rfl
  · exact ⟨s.file, rfl, fun _ => rfl⟩
  · exact ⟨s.file, rfl, fun _ => rfl⟩

theorem Inv.unlink (h : s.Inv) : s.unlink.Inv := by
  obtain ⟨file, heq, htext⟩ := s.unlink_eq
  rw [heq]
  exact
    { fd_lt := h.fd_lt
      entry_lt := fun hentry => by cases hentry
      lock_fd := h.lock_fd
      owned := h.owned
      emptied := fun hp => (htext _).trans (h.emptied hp)
      running := fun hp => (htext _).trans (h.running hp) }

theorem Inv.close (h : s.Inv) (hp : (s.phase p).fd = some ino) : (s.close p ino).Inv where
  fd_lt := by
    intro q j hq
    rw [phase_close] at hq
    split at hq
    · cases hq
    · exact h.fd_lt hq
  entry_lt := h.entry_lt
  lock_fd := by
    intro j q hq
    rw [phase_close]
    rw [lock_close] at hq
    have hlock : s.lock j = some q ∧ q ≠ p := by
      split at hq
      · next hj =>
        split at hq
        · cases hq
        · next hne => exact ⟨hj ▸ hq, fun heq => hne (heq ▸ hq)⟩
      · next hj =>
        refine ⟨hq, fun heq => hj ?_⟩
        have hfd := h.lock_fd (heq ▸ hq)
        exact Option.some.inj (hfd.symm.trans hp)
    rw [if_neg hlock.2]
    exact h.lock_fd hlock.1
  owned := by
    intro q j hq
    rw [phase_close] at hq
    rw [lock_close]
    split at hq
    · cases hq
    · next hne =>
      have hlock := h.owned hq
      split
      · next hj =>
        rw [hj] at hlock
        rw [hlock, if_neg (fun heq => hne (Option.some.inj heq))]
      · exact hlock
  emptied := by
    intro q j hq
    rw [phase_close] at hq
    split at hq
    · cases hq
    · exact h.emptied hq
  running := by
    intro q j hq
    rw [phase_close] at hq
    split at hq
    · cases hq
    · exact h.running hq

/-- The owner of the lock changes the file. -/
theorem Inv.edit_goto (h : s.Inv) {f : FileState → FileState} {phase : PidPhase}
    (hp : (s.phase p).owned = some ino) (hfd : phase.fd = some ino)
    (hemptied : phase = .emptied ino → (f (s.file ino)).text = [])
    (hrunning : phase = .running ino → (f (s.file ino)).text = pidText p) :
    ((s.edit ino f).goto p phase).Inv := by
  have hlock := h.owned hp
  have hother : ∀ {q j}, q ≠ p → (s.phase q).owned = some j → (s.edit ino f).file j = s.file j := by
    intro q j hne hq
    rw [file_edit, if_neg]
    rintro rfl
    exact hne (Option.some.inj ((h.owned hq).symm.trans hlock))
  refine
    { fd_lt := fun {q j} hq => ?_
      entry_lt := h.entry_lt
      lock_fd := fun {j q} hq => ?_
      owned := fun {q j} hq => ?_
      emptied := fun {q j} hq => ?_
      running := fun {q j} hq => ?_ }
  · rw [phase_goto] at hq
    split at hq
    · cases hfd.symm.trans hq
      exact h.fd_lt (owned_fd hp)
    · exact h.fd_lt hq
  · rw [phase_goto]
    split
    · next heq =>
      have hsame := h.lock_fd (heq ▸ hq)
      rw [hfd, ← owned_fd hp, hsame]
    · exact h.lock_fd hq
  · rw [phase_goto] at hq
    split at hq
    · next heq =>
      cases hfd.symm.trans (owned_fd hq)
      exact heq ▸ hlock
    · exact h.owned hq
  · rw [phase_goto] at hq
    split at hq
    · subst hq
      cases hfd
      exact (congrArg FileState.text ((file_edit s ino f ino).trans (if_pos rfl))).trans (hemptied rfl)
    · next hne =>
      have hq' : s.phase q = .emptied j := hq
      exact (congrArg FileState.text (hother hne (by rw [hq']; rfl))).trans (h.emptied hq')
  · rw [phase_goto] at hq
    split at hq
    · next heq =>
      subst hq
      cases hfd
      exact (congrArg FileState.text ((file_edit s ino f ino).trans (if_pos rfl))).trans
        ((hrunning rfl).trans (congrArg pidText heq.symm))
    · next hne =>
      have hq' : s.phase q = .running j := hq
      exact (congrArg FileState.text (hother hne (by rw [hq']; rfl))).trans (h.running hq')

theorem Inv.acquire (h : s.Inv) (hp : s.phase p = .checked ino)
    (hlock : s.lock ino = none ∨ s.lock ino = some p) : (s.acquire p ino).Inv where
  fd_lt := by
    intro q j hq
    rw [phase_acquire] at hq
    split at hq
    · cases hq
      exact h.fd_lt (show (s.phase p).fd = some ino by rw [hp]; rfl)
    · exact h.fd_lt hq
  entry_lt := h.entry_lt
  lock_fd := by
    intro j q hq
    rw [lock_acquire] at hq
    rw [phase_acquire]
    split at hq
    · next hj =>
      cases hq
      rw [if_pos rfl, hj]
      rfl
    · split
      · next hj heq =>
        have hfd := h.lock_fd (heq ▸ hq)
        rw [hp] at hfd
        exact absurd (Option.some.inj hfd).symm hj
      · exact h.lock_fd hq
  owned := by
    intro q j hq
    rw [phase_acquire] at hq
    rw [lock_acquire]
    split at hq
    · next heq =>
      cases hq
      rw [if_pos rfl, heq]
    · next hne =>
      have howned := h.owned hq
      rw [if_neg]
      · exact howned
      · rintro rfl
        rw [howned] at hlock
        rcases hlock with hlock | hlock
        · cases hlock
        · exact hne (Option.some.inj hlock)
  emptied := by
    intro q j hq
    rw [phase_acquire] at hq
    split at hq
    · cases hq
    · exact h.emptied hq
  running := by
    intro q j hq
    rw [phase_acquire] at hq
    split at hq
    · cases hq
    · exact h.running hq

/-- Every step keeps the locks and contents in order. -/
theorem Inv.move {a : PidAct} (h : s.Inv) (hmove : PidMove s p a s') : s'.Inv := by
  cases hmove with
  | stays => exact h
  | creates hp =>
    refine h.create.goto (fun hfd => .inr ?_) (fun hlock => ?_) (fun hq => by cases hq)
      (fun hq => by cases hq) (fun hq => by cases hq)
    · cases hfd
      rfl
    · have hfd := h.lock_fd hlock
      rw [hp] at hfd
      cases hfd
  | opens hp hentry =>
    refine h.goto (fun hfd => .inr ?_) (fun hlock => ?_) (fun hq => by cases hq)
      (fun hq => by cases hq) (fun hq => by cases hq)
    · cases hfd
      exact hentry
    · have hfd := h.lock_fd hlock
      rw [hp] at hfd
      cases hfd
  | accepts hp =>
    refine h.goto (fun hfd => .inl ?_) (fun hlock => ?_) (fun hq => by cases hq)
      (fun hq => by cases hq) (fun hq => by cases hq)
    · rw [hp]
      exact hfd
    · have hfd := h.lock_fd hlock
      rw [hp] at hfd
      exact hfd
  | refuses hp =>
    exact h.goto (fun hfd => .inl (hp.trans hfd)) (fun hlock => hp.symm.trans (h.lock_fd hlock))
      (fun hq => by cases hq) (fun hq => by cases hq) (fun hq => by cases hq)
  | locks _ hp hlock => exact h.acquire hp hlock
  | empties hp =>
    exact h.edit_goto (by rw [hp]; rfl) rfl (fun _ => rfl) (fun hq => by cases hq)
  | writes hp htext =>
    refine h.edit_goto (by rw [hp]; rfl) rfl (fun hq => by cases hq) (fun _ => ?_)
    rw [h.emptied hp, List.drop_nil, List.append_nil, htext]
  | tears hp =>
    exact h.edit_goto (by rw [hp]; rfl) rfl (fun hq => by cases hq) (fun hq => by cases hq)
  | stops hp =>
    refine h.goto (fun hfd => .inl ?_) (fun hlock => ?_) (fun hq => ?_)
      (fun hq => by cases hq) (fun hq => by cases hq)
    · rw [hp]
      exact hfd
    · have hfd := h.lock_fd hlock
      rw [hp] at hfd
      exact hfd
    · cases hq
      exact h.owned (by rw [hp]; rfl)
  | @unlinks ino hp =>
    have hfd' : (s.unlink.phase p).fd = some ino := by
      obtain ⟨file, heq, -⟩ := s.unlink_eq
      rw [heq]
      exact congrArg PidPhase.fd hp
    refine h.unlink.goto (fun hfd => .inl (hfd'.trans hfd))
      (fun hlock => hfd'.symm.trans (h.unlink.lock_fd hlock)) (fun hq => by cases hq)
      (fun hq => by cases hq) (fun hq => by cases hq)
  | @keeps ino hp =>
    have hfd' : (s.phase p).fd = some ino := congrArg PidPhase.fd hp
    exact h.goto (fun hfd => .inl (hfd'.trans hfd)) (fun hlock => hfd'.symm.trans (h.lock_fd hlock))
      (fun hq => by cases hq) (fun hq => by cases hq) (fun hq => by cases hq)
  | closes hp => exact h.close hp

theorem Inv.step (h : s.Inv) (a : PidAct) : (s.step p a).Inv := h.move (s.step_move p a)

-- ---------------------------------------------------------------------------
-- One daemon at a time
-- ---------------------------------------------------------------------------

/-- Every file that is locked and not yet unlinked is the one at the path. -/
def Linked (s : PidFs) : Prop := ∀ {p ino}, (s.phase p).owned = some ino → s.entry = .file ino

theorem Initial.linked (h : s.Initial) : s.Linked := by
  intro p ino howned
  rw [h.phase] at howned
  cases howned

theorem Linked.eq (hlinked : s.Linked) (h : s.Inv) {i j : Ino} (hp : (s.phase p).owned = some i)
    (hq : (s.phase q).owned = some j) : p = q := by
  obtain rfl : i = j := PathEntry.file.inj ((hlinked hp).symm.trans (hlinked hq))
  exact Option.some.inj ((h.owned hp).symm.trans (h.owned hq))

theorem Linked.goto (hlinked : s.Linked) {phase : PidPhase}
    (hphase : ∀ {ino}, phase.owned = some ino → s.entry = .file ino) : (s.goto p phase).Linked := by
  intro q j hq
  rw [phase_goto] at hq
  split at hq
  · exact hphase hq
  · exact hlinked hq

theorem Linked.edit_goto (hlinked : s.Linked) {f : FileState → FileState} {phase : PidPhase}
    (hp : (s.phase p).owned = some ino) (hphase : ∀ {j}, phase.owned = some j → j = ino) :
    ((s.edit ino f).goto p phase).Linked := by
  intro q j hq
  rw [phase_goto] at hq
  split at hq
  · rw [hphase hq]
    exact hlinked hp
  · exact hlinked hq

/-- A step that is not late. -/
theorem Linked.move {a : PidAct} (hlinked : s.Linked) (h : s.Inv) (hlate : ¬ s.Late p a)
    (hmove : PidMove s p a s') : s'.Linked := by
  cases hmove with
  | stays => exact hlinked
  | creates hp hentry =>
    intro q j hq
    rw [phase_goto] at hq
    split at hq
    · cases hq
    · cases hentry.symm.trans (hlinked hq)
  | opens | accepts | refuses | keeps => exact hlinked.goto (fun hq => by cases hq)
  | @locks ino ha hp hlock =>
    intro q j hq
    rw [phase_acquire] at hq
    split at hq
    · cases hq
      exact not_not.mp fun hentry => hlate ⟨ha, ino, by rw [hp]; rfl, hlock, hentry⟩
    · exact hlinked hq
  | empties hp | writes hp =>
    refine hlinked.edit_goto (by rw [hp]; rfl) fun hq => ?_
    cases hq
    rfl
  | tears hp => exact hlinked.edit_goto (by rw [hp]; rfl) (fun hq => by cases hq)
  | stops hp =>
    refine hlinked.goto fun hq => ?_
    cases hq
    exact hlinked (by rw [hp]; rfl)
  | @unlinks ino hp =>
    intro q j hq
    rw [phase_goto] at hq
    split at hq
    · cases hq
    · next hne =>
      obtain ⟨file, heq, -⟩ := s.unlink_eq
      rw [heq] at hq
      exact absurd (hlinked.eq h hq (show (s.phase p).owned = some ino by rw [hp]; rfl)) hne
  | closes hp =>
    intro q j hq
    rw [phase_close] at hq
    split at hq
    · cases hq
    · exact hlinked hq

theorem run_linked {acts : List (Pid × PidAct)} (h : s.Inv) (hlinked : s.Linked)
    (htimely : Timely acts s) : (pidRun acts s).Inv ∧ (pidRun acts s).Linked := by
  induction acts generalizing s with
  | nil => exact ⟨h, hlinked⟩
  | cons a rest ih =>
    obtain ⟨hlate, hrest⟩ := htimely
    exact ih (h.step a.2) (hlinked.move h hlate (s.step_move a.1 a.2)) hrest

end PidFs

/-- As long as no process is late, at most one daemon runs at a time, and the path leads
    to the file that names it. -/
theorem pid_file_exclusive (s : PidFs) (hs : s.Initial) (acts : List (Pid × PidAct))
    (htimely : Timely acts s) :
    (∀ p q i j, (pidRun acts s).phase p = .running i → (pidRun acts s).phase q = .running j → p = q) ∧
      ∀ p ino, (pidRun acts s).phase p = .running ino →
        (pidRun acts s).entry = .file ino ∧ ((pidRun acts s).file ino).text = pidText p := by
  obtain ⟨h, hlinked⟩ := PidFs.run_linked hs.inv hs.linked htimely
  refine ⟨fun p q i j hp hq => ?_, fun p ino hp => ⟨?_, h.running hp⟩⟩
  · exact hlinked.eq h (show _ = some i by rw [hp]; rfl) (show _ = some j by rw [hq]; rfl)
  · exact hlinked (by rw [hp]; rfl)

/-- No file yet. -/
def Sample.noPidFile : PidFs where
  euid := 0
  entry := .absent
  file := fun _ => ⟨true, 1, 0, false, []⟩
  lock := fun _ => none
  fresh := 0
  phase := fun _ => .out

theorem Sample.noPidFile_initial : Sample.noPidFile.Initial :=
  ⟨fun _ => rfl, fun _ => rfl, fun _ h => by cases h⟩

/-- The second daemon is refused while the first one runs, and a third one follows it. -/
def Sample.takeover : List (Pid × PidAct) :=
  [(7, .next), (9, .next), (7, .next), (9, .next), (7, .next), (9, .next), (7, .next), (7, .next),
    (9, .next), (7, .stop), (7, .next), (7, .next), (8, .next), (8, .next), (8, .next), (8, .next),
    (8, .next)]

theorem pid_file_exclusive_takeover :
    (pidRun Sample.takeover Sample.noPidFile).phase 8 = .running 1 ∧
      (pidRun Sample.takeover Sample.noPidFile).entry = .file 1 ∧
      ((pidRun Sample.takeover Sample.noPidFile).file 1).text = ['8', '\n'] := by
  have hruns : (pidRun Sample.takeover Sample.noPidFile).phase 8 = .running 1 := by decide +kernel
  have h := (pid_file_exclusive Sample.noPidFile Sample.noPidFile_initial Sample.takeover
    (by decide +kernel)).2 8 1 hruns
  exact ⟨hruns, h.1, h.2.trans (by decide +kernel)⟩

-- ---------------------------------------------------------------------------
-- A late process
-- ---------------------------------------------------------------------------

/-- Where the path may lead: files from `base` on were made by daemons. -/
structure PidFs.Made (base : Ino) (s : PidFs) : Prop where
  base_le : base ≤ s.fresh
  trusted : ∀ {ino}, s.entry = .file ino → base ≤ ino → (s.file ino).trusted s.euid = true
  moved : ∀ {p ino}, (s.phase p).fd = some ino → s.entry = .file ino ∨ s.entry = .absent ∨
    ∃ j, base ≤ j ∧ s.entry = .file j
  idle : ∃ bound, ∀ p, bound ≤ p → s.phase p = .out

namespace PidFs

variable {s s' : PidFs} {p q : Pid} {ino base : Ino}

theorem Initial.made (h : s.Initial) : s.Made s.fresh where
  base_le := Nat.le_refl _
  trusted hentry hle := absurd (h.entry _ hentry) (Nat.not_lt.mpr hle)
  moved := by
    intro p ino hfd
    rw [h.phase] at hfd
    cases hfd
  idle := ⟨0, fun p _ => h.phase p⟩

/-- Beyond some number all processes are still out. -/
theorem idle_goto (h : ∃ bound, ∀ p, bound ≤ p → s.phase p = .out) (p : Pid) (phase : PidPhase) :
    ∃ bound, ∀ q, bound ≤ q → (s.goto p phase).phase q = .out := by
  obtain ⟨bound, hbound⟩ := h
  refine ⟨max bound (p + 1), fun q hq => ?_⟩
  rw [phase_goto, if_neg (Nat.ne_of_gt (Nat.le_trans (Nat.le_max_right bound (p + 1)) hq))]
  exact hbound q (Nat.le_trans (Nat.le_max_left bound (p + 1)) hq)

theorem Made.goto (h : s.Made base) {phase : PidPhase}
    (hfd : ∀ {ino}, phase.fd = some ino → (s.phase p).fd = some ino ∨ s.entry = .file ino) :
    (s.goto p phase).Made base where
  base_le := h.base_le
  trusted := h.trusted
  moved := by
    intro q j hq
    rw [phase_goto] at hq
    split at hq
    · exact (hfd hq).elim h.moved .inl
    · exact h.moved hq
  idle := idle_goto h.idle p phase

theorem Made.edit (h : s.Made base) {f : FileState → FileState}
    (hf : ∀ file, (f file).trusted s.euid = file.trusted s.euid) : (s.edit ino f).Made base where
  base_le := h.base_le
  trusted := by
    intro j hentry hle
    rw [file_edit]
    split
    · next hj => exact (hf _).trans (hj ▸ h.trusted hentry hle)
    · exact h.trusted hentry hle
  moved := h.moved
  idle := h.idle

theorem Made.edit_goto (h : s.Made base) {f : FileState → FileState} {phase : PidPhase}
    (hf : ∀ file, (f file).trusted s.euid = file.trusted s.euid)
    (hfd : (s.phase p).fd = phase.fd) : ((s.edit ino f).goto p phase).Made base :=
  (h.edit hf).goto fun hphase => .inl (hfd.trans hphase)

theorem trusted_new (euid : Nat) : FileState.trusted ⟨true, 1, euid, false, []⟩ euid = true := by
  simp [FileState.trusted]

theorem Made.create (h : s.Made base) (p : Pid) :
    (s.create.goto p (.opened s.fresh)).Made base where
  base_le := Nat.le_succ_of_le h.base_le
  trusted := by
    intro j hj _
    cases hj
    rw [show (s.create.goto p (.opened s.fresh)).file s.fresh = _ from Function.update_self ..]
    exact trusted_new s.euid
  moved := fun _ => .inr (.inr ⟨s.fresh, h.base_le, rfl⟩)
  idle := idle_goto h.idle p _

theorem Made.move {a : PidAct} (h : s.Made base) (hmove : PidMove s p a s') : s'.Made base := by
  cases hmove with
  | stays => exact h
  | creates => exact h.create p
  | opens hp hentry =>
    refine h.goto fun hfd => .inr ?_
    cases hfd
    exact hentry
  | accepts hp | stops hp | keeps hp => exact h.goto fun hfd => .inl (by rw [hp]; exact hfd)
  | refuses hp => exact h.goto fun hfd => .inl (hp.trans hfd)
  | locks _ hp =>
    have hgoto : (s.goto p (.locked _)).Made base := h.goto fun hfd => .inl (by rw [hp]; exact hfd)
    exact ⟨hgoto.base_le, hgoto.trusted, hgoto.moved, hgoto.idle⟩
  | empties hp | writes hp | tears hp =>
    exact h.edit_goto (fun _ => rfl) (by rw [hp]; rfl)
  | unlinks hp =>
    obtain ⟨file, heq, -⟩ := s.unlink_eq
    rw [heq]
    exact
      { base_le := h.base_le
        trusted := fun hentry => by cases hentry
        moved := fun _ => .inr (.inl rfl)
        idle := idle_goto (s := { s with entry := .absent, file := file }) h.idle p _ }
  | closes hp =>
    have hgoto : (s.goto p .out).Made base := h.goto fun hfd => by cases hfd
    exact ⟨hgoto.base_le, hgoto.trusted, hgoto.moved, hgoto.idle⟩

theorem run_made (acts : List (Pid × PidAct)) (h : s.Inv) (hmade : s.Made base) :
    (pidRun acts s).Inv ∧ (pidRun acts s).Made base := by
  induction acts generalizing s with
  | nil => exact ⟨h, hmade⟩
  | cons a rest ih => exact ih (h.step a.2) (hmade.move (s.step_move a.1 a.2))

-- ---------------------------------------------------------------------------
-- Starting while another daemon runs
-- ---------------------------------------------------------------------------

theorem call_locked (hp : s.phase p = .locked ino) : s.step p .next =
    (s.edit ino fun f => { f with text := [] }).goto p (.emptied ino) := by
  rw [step, call, hp]

theorem call_emptied (hp : s.phase p = .emptied ino) :
    s.step p .next = (s.write ino (pidText p)).goto p (.running ino) := by
  have hfinish : s.finish p ino (pidText p) = (s.write ino (pidText p)).goto p (.running ino) :=
    congrArg _ (if_pos rfl)
  rw [← hfinish, step, call, hp]

/-- Only `p` has got on, and it runs. -/
structure Ran (s : PidFs) (p : Pid) (ino : Ino) (s' : PidFs) : Prop where
  runs : s'.phase p = .running ino
  others : ∀ q, q ≠ p → s'.phase q = s.phase q
  entry : s'.entry = s.entry

/-- From the lock on, a process only needs its own calls to succeed. -/
theorem runs_of_checked (hp : s.phase p = .checked ino)
    (hlock : s.lock ino = none ∨ s.lock ino = some p) :
    s.Ran p ino (pidRun [(p, .next), (p, .next), (p, .next)] s) := by
  have h₁ : s.step p .next = s.acquire p ino := by
    rw [step, call, hp]
    exact if_pos hlock
  have hp₁ : (s.acquire p ino).phase p = .locked ino := by rw [phase_acquire, if_pos rfl]
  have h₂ := call_locked hp₁
  generalize hs₂ : ((s.acquire p ino).edit ino fun f => { f with text := [] }).goto p
    (.emptied ino) = s₂ at h₂
  have h₃ : s₂.step p .next = _ := call_emptied (by rw [← hs₂, phase_goto, if_pos rfl])
  rw [pidRun, List.foldl_cons, h₁, List.foldl_cons, h₂, List.foldl_cons, h₃, List.foldl_nil, ← hs₂]
  refine ⟨by rw [phase_goto, if_pos rfl], fun q hne => ?_, rfl⟩
  · rw [phase_goto, if_neg hne]
    exact (phase_goto _ p _ q).trans ((if_neg hne).trans
      ((phase_acquire s p ino q).trans (if_neg hne)))

/-- A process that finds no file, or one that is trusted and not locked, gets to run. -/
theorem starts (hp : s.phase p = .out) (h : s.Inv)
    (hentry : s.entry = .absent ∨ ∃ j, s.entry = .file j ∧ (s.file j).trusted s.euid = true ∧
      s.lock j = none) :
    ∃ acts ino, (pidRun acts s).phase p = .running ino ∧
      ∀ q, q ≠ p → (pidRun acts s).phase q = s.phase q := by
  obtain ⟨s₁, ino, hopen, htrusted, hlock, hp₁, hothers⟩ : ∃ s₁ ino, s.step p .next = s₁ ∧
      (s₁.file ino).trusted s₁.euid = true ∧ s₁.lock ino = none ∧ s₁.phase p = .opened ino ∧
      ∀ q, q ≠ p → s₁.phase q = s.phase q := by
    rw [step, call, hp]
    rcases hentry with hentry | ⟨j, hentry, htrusted, hlock⟩
    · rw [hentry]
      refine ⟨_, s.fresh, rfl, ?_, ?_, ?_, fun q hne => ?_⟩
      · rw [show (s.create.goto p (.opened s.fresh)).file s.fresh = _ from Function.update_self ..]
        exact trusted_new s.euid
      · cases hlock : s.lock s.fresh with
        | none => exact hlock
        | some q => exact absurd (h.fd_lt (h.lock_fd hlock)) (Nat.lt_irrefl _)
      · rw [phase_goto, if_pos rfl]
      · exact (phase_goto s.create p _ q).trans (if_neg hne)
    · rw [hentry]
      refine ⟨_, j, rfl, htrusted, hlock, ?_, fun q hne => ?_⟩
      · rw [phase_goto, if_pos rfl]
      · exact (phase_goto s p _ q).trans (if_neg hne)
  have hcheck : s₁.step p .next = s₁.goto p (.checked ino) := by
    rw [step, call, hp₁]
    exact if_pos htrusted
  have hran : (s₁.goto p (.checked ino)).Ran p ino _ :=
    runs_of_checked (by rw [phase_goto, if_pos rfl]) (.inl hlock)
  refine ⟨(p, .next) :: (p, .next) :: [(p, .next), (p, .next), (p, .next)], ino, ?_, fun q hne => ?_⟩
  · rw [pidRun, List.foldl_cons, hopen, List.foldl_cons, hcheck]
    exact hran.runs
  · rw [pidRun, List.foldl_cons, hopen, List.foldl_cons, hcheck]
    exact (hran.others q hne).trans (((phase_goto s₁ p _ q).trans (if_neg hne)).trans (hothers q hne))

/-- The death of whoever has the lock of a file. -/
theorem unlocks (h : s.Inv) (hp : (s.phase p).fd ≠ some ino) :
    ∃ acts, (pidRun acts s).lock ino = none ∧ (pidRun acts s).phase p = s.phase p ∧
      (pidRun acts s).entry = s.entry ∧ (pidRun acts s).file = s.file ∧
      (pidRun acts s).euid = s.euid := by
  cases hlock : s.lock ino with
  | none => exact ⟨[], hlock, rfl, rfl, rfl, rfl⟩
  | some q =>
    have hq := h.lock_fd hlock
    have hne : p ≠ q := fun heq => hp (heq ▸ hq)
    have hdie : s.step q .crash = s.close q ino := by rw [step, die, hq]
    refine ⟨[(q, .crash)], ?_⟩
    rw [pidRun, List.foldl_cons, hdie, List.foldl_nil]
    refine ⟨?_, (phase_close s q ino p).trans (if_neg hne), rfl, rfl, rfl⟩
    rw [lock_close, if_pos rfl, if_pos hlock]

end PidFs

theorem pidRun_append (acts more : List (Pid × PidAct)) (s : PidFs) :
    pidRun (acts ++ more) s = pidRun more (pidRun acts s) :=
  List.foldl_append

/-- As soon as a process is late, the run may go on in such a way that two daemons run:
    the late one on a file without a name, and one that came after. -/
theorem late_lock_breaks (s : PidFs) (hs : s.Initial) (acts : List (Pid × PidAct)) (p : Pid)
    (hlate : (pidRun acts s).Late p .next) :
    ∃ more q i j, q ≠ p ∧ (pidRun (acts ++ more) s).phase p = .running i ∧
      (pidRun (acts ++ more) s).phase q = .running j := by
  obtain ⟨h, hmade⟩ := PidFs.run_made acts hs.inv hs.made
  generalize hrun : pidRun acts s = s₀ at *
  obtain ⟨-, ino, hwanted, hlock, hentry⟩ := hlate
  have hp := PidPhase.wanted_iff.mp hwanted
  have hran := PidFs.runs_of_checked hp hlock
  obtain ⟨h₁, hmade₁⟩ := PidFs.run_made [(p, .next), (p, .next), (p, .next)] h hmade
  generalize hrun₁ : pidRun [(p, .next), (p, .next), (p, .next)] s₀ = s₁ at *
  have hgoal : ∀ acts₂ q i j, q ≠ p → (pidRun acts₂ s₁).phase p = .running i →
      (pidRun acts₂ s₁).phase q = .running j → ∃ more q i j, q ≠ p ∧
      (pidRun (acts ++ more) s).phase p = .running i ∧
      (pidRun (acts ++ more) s).phase q = .running j := by
    intro acts₂ q i j hne hi hj
    refine ⟨[(p, .next), (p, .next), (p, .next)] ++ acts₂, q, i, j, hne, ?_, ?_⟩
    · rwa [pidRun_append, hrun, pidRun_append, hrun₁]
    · rwa [pidRun_append, hrun, pidRun_append, hrun₁]
  have hpath := hmade.moved (show (s₀.phase p).fd = some ino by rw [hp]; rfl)
  rw [← hran.entry] at hpath hentry
  -- whoever has locked the file at the path dies
  obtain ⟨acts₂, hphase, hstart⟩ : ∃ acts₂, (pidRun acts₂ s₁).phase p = .running ino ∧
      ((pidRun acts₂ s₁).entry = .absent ∨ ∃ j, (pidRun acts₂ s₁).entry = .file j ∧
        ((pidRun acts₂ s₁).file j).trusted (pidRun acts₂ s₁).euid = true ∧
        (pidRun acts₂ s₁).lock j = none) := by
    rcases hpath.resolve_left hentry with habsent | ⟨j, hle, hj⟩
    · exact ⟨[], hran.runs, .inl habsent⟩
    · have hother : (s₁.phase p).fd ≠ some j := by
        rw [hran.runs]
        rintro ⟨⟩
        exact hentry hj
      obtain ⟨acts₂, hfree, hphase, hentry₂, hfile, heuid⟩ := PidFs.unlocks h₁ hother
      refine ⟨acts₂, hphase.trans hran.runs, .inr ⟨j, hentry₂.trans hj, ?_, hfree⟩⟩
      rw [hfile, heuid]
      exact hmade₁.trusted hj hle
  obtain ⟨h₂, hmade₂⟩ := PidFs.run_made acts₂ h₁ hmade₁
  obtain ⟨bound, hidle⟩ := hmade₂.idle
  have hne : max bound (p + 1) ≠ p := Nat.ne_of_gt (Nat.le_max_right bound (p + 1))
  obtain ⟨acts₃, j, hruns, hothers⟩ :=
    PidFs.starts (hidle _ (Nat.le_max_left bound (p + 1))) h₂ hstart
  refine hgoal (acts₂ ++ acts₃) _ ino j hne ?_ ?_
  · rw [pidRun_append, hothers p hne.symm]
    exact hphase
  · rw [pidRun_append]
    exact hruns

/-- The first daemon stops between the other's `fstat` and `fcntl`. -/
def Sample.overtaken : List (Pid × PidAct) :=
  [(7, .next), (7, .next), (7, .next), (7, .next), (7, .next), (9, .next), (9, .next), (7, .stop),
    (7, .next), (7, .next)]

theorem late_lock_breaks_overtaken :
    ∃ more q i j, q ≠ 9 ∧
      (pidRun (Sample.overtaken ++ more) Sample.noPidFile).phase 9 = .running i ∧
      (pidRun (Sample.overtaken ++ more) Sample.noPidFile).phase q = .running j :=
  late_lock_breaks Sample.noPidFile Sample.noPidFile_initial Sample.overtaken 9 (by decide +kernel)

end Softgre
