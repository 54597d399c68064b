-- SUMMARY: The environment's answers to commands, the clock, errno, and the trace of what happened.
import Softgre.Host.Kernel
import Softgre.Base.Wp

/-!
# Running commands

The environment is a parameter: for the `n`-th time a command is issued it
decides whether the command is carried out, what it leaves in `errno` and how
long it takes. A command takes effect exactly when it is carried out and can
take effect, and otherwise leaves the kernel alone.

Every command is recorded together with the kernel it leaves behind, newest
first, so that intermediate states can be spoken about.
-/

namespace Softgre

open Base

abbrev Errno := Nat

def ENODEV : Errno := 19
def EAGAIN : Errno := 11
def EINVAL : Errno := 22
def EMFILE : Errno := 24
def ENOSPC : Errno := 28

/-- How a function with an `int` result returns: `0`, or not `0`. -/
inductive Ret where
  | ok | fail
deriving DecidableEq, Repr

/-- The environment's answer to one command. -/
structure Reply where
  ok : Bool
  errno : Option Errno
  elapsed : Nat
deriving DecidableEq, Repr

abbrev Env := Cmd → Nat → Reply

/-- One command that was issued: how it ended, what it wrote to `errno`, how long it
    took, and the kernel afterwards. -/
structure Event where
  cmd : Cmd
  ok : Bool
  errno : Option Errno
  elapsed : Nat
  kernel : Kernel

/-- What the interface functions read and write outside the daemon's tables. -/
structure World where
  kernel : Kernel
  trace : List Event
  errno : Errno
  clock : Int
  initialized : Bool

abbrev WorldM := StateM World

/-- How often a command has been issued. -/
def issued (trace : List Event) (c : Cmd) : Nat := trace.countP fun ev => ev.cmd = c

def World.record (w : World) (ev : Event) : World :=
  { w with
    kernel := ev.kernel
    trace := ev :: w.trace
    errno := ev.errno.getD w.errno
    clock := w.clock + ev.elapsed }

/-- Issue one command. A failure for which the environment names no error writes
    `fallback` to `errno`. -/
def perform (env : Env) (fallback : Option Errno) (c : Cmd) : WorldM Ret := fun w =>
  let reply := env c (issued w.trace c)
  match (if reply.ok then w.kernel.apply c else none) with
  | some k => (.ok, w.record ⟨c, true, reply.errno, reply.elapsed, k⟩)
  | none => (.fail, w.record ⟨c, false, reply.errno.or fallback, reply.elapsed, w.kernel⟩)

/-- `helper_exec`: run a command with its deadline. Only an error of `fork` or
    `waitpid` sets `errno`. -/
def helperExec (env : Env) (c : Cmd) : WorldM Ret := perform env none c

/-- `link_send`: a failing request always sets `errno`; one that was not
    answered in time leaves `EAGAIN`. -/
def linkSend (env : Env) (c : Cmd) : WorldM Ret := perform env (some EAGAIN) c

/-- Grows with every command and with the clock. -/
def World.moment (w : World) : Nat := w.trace.length + w.clock.toNat

/-- `if_nametoindex` opens a socket to ask, so it can fail for a link that is there. The
    errors it leaves then are all the same to its callers. -/
def ifNametoindex (env : Env) (name : CStr) : WorldM Bool := do
  let w ← get
  if w.kernel.hasLink name && (env (.lookup name) w.moment).ok then return true
  modify fun w => { w with errno := if w.kernel.hasLink name then EMFILE else ENODEV }
  return false

/-- Fail because a name did not resolve. Nothing is sent; `c` is what is recorded. -/
def unresolved (c : Cmd) (errno : Errno) : WorldM Ret := do
  modify fun w => w.record ⟨c, false, some errno, 0, w.kernel⟩
  return .fail

/-! ## What a command can do -/

/-- `ev` records that `c` took effect on `k`. -/
structure Event.Done (ev : Event) (k : Kernel) (c : Cmd) : Prop where
  cmd : ev.cmd = c
  ok : ev.ok = true
  apply : k.apply c = some ev.kernel

/-- `ev` records that a command failed and left `k` alone. -/
structure Event.Refused (ev : Event) (k : Kernel) : Prop where
  ok : ev.ok = false
  kernel : ev.kernel = k

/-- The command failed although it could have taken effect. -/
def Event.Unwilling (ev : Event) : Prop := ev.ok = false ∧ (ev.kernel.apply ev.cmd).isSome = true

instance (ev : Event) : Decidable ev.Unwilling := inferInstanceAs (Decidable (_ ∧ _))

theorem Event.Done.links {ev : Event} {k : Kernel} {c : Cmd} (h : ev.Done k c)
    (hedits : c.edits.isSome = true) : ev.kernel.links = k.links :=
  Kernel.links_of_apply hedits h.apply

theorem Event.Done.chain {ev : Event} {k : Kernel} {c : Cmd} {t : EbTable} {ch : Chain}
    (h : ev.Done k c) (hedits : c.edits ≠ some (t, ch)) : ev.kernel.chain t ch = k.chain t ch :=
  Kernel.chain_of_apply hedits h.apply

/-- The environment carries out the next issue of `c`. -/
def World.Grants (env : Env) (w : World) (c : Cmd) : Prop := (env c (issued w.trace c)).ok = true

/-- `ev` was recorded between `w` and `w'`. -/
def World.New (w w' : World) (ev : Event) : Prop := ∃ evs, w'.trace = evs ++ w.trace ∧ ev ∈ evs

theorem World.New.record (w : World) (ev : Event) : w.New (w.record ev) ev :=
  ⟨[ev], rfl, List.mem_singleton_self ev⟩

theorem World.New.of_suffix {w w₁ w' : World} {ev : Event} (h : w₁.New w' ev)
    (hsuffix : w.trace <:+ w₁.trace) : w.New w' ev := by
  obtain ⟨evs, htrace, hmem⟩ := h
  obtain ⟨evs₁, htrace₁⟩ := hsuffix
  exact ⟨evs ++ evs₁, by rw [htrace, ← htrace₁, List.append_assoc], List.mem_append_left _ hmem⟩

theorem World.New.extend {w w' w₁ : World} {ev : Event} (h : w.New w' ev)
    (hsuffix : w'.trace <:+ w₁.trace) : w.New w₁ ev := by
  obtain ⟨evs, htrace, hmem⟩ := h
  obtain ⟨evs₁, htrace₁⟩ := hsuffix
  exact ⟨evs₁ ++ evs, by rw [← htrace₁, htrace, List.append_assoc], List.mem_append_right _ hmem⟩

/-- The events between two worlds, newest first. -/
def World.since (w w' : World) : List Event := w'.trace.take (w'.trace.length - w.trace.length)

theorem World.since_append {w w' : World} (h : w.trace <:+ w'.trace) :
    w'.trace = w.since w' ++ w.trace := by
  obtain ⟨evs, hevs⟩ := h
  rw [World.since, ← hevs, List.length_append, Nat.add_sub_cancel, List.take_left]

theorem World.New.mem_since {w w' : World} {ev : Event} (h : w.New w' ev) : ev ∈ w.since w' := by
  obtain ⟨evs, htrace, hmem⟩ := h
  have hsuffix : w.trace <:+ w'.trace := ⟨evs, htrace.symm⟩
  rwa [List.append_cancel_right (htrace.symm.trans (World.since_append hsuffix))] at hmem

/-- A test of the new events. -/
theorem World.New.forall_of_since {w w' : World} {P : Event → Prop}
    (h : ∀ ev ∈ w.since w', P ev) : ∀ ev, w.New w' ev → P ev := fun ev hnew => h ev hnew.mem_since

/-- Some command failed between `w` and `w'`. -/
def World.Fails (w w' : World) : Prop := ∃ ev, w.New w' ev ∧ ev.ok = false

theorem World.Fails.of_suffix {w w₁ w' : World} (h : w₁.Fails w')
    (hsuffix : w.trace <:+ w₁.trace) : w.Fails w' :=
  h.imp fun _ hev => ⟨hev.1.of_suffix hsuffix, hev.2⟩

theorem World.Fails.extend {w w' w₁ : World} (h : w.Fails w')
    (hsuffix : w'.trace <:+ w₁.trace) : w.Fails w₁ :=
  h.imp fun _ hev => ⟨hev.1.extend hsuffix, hev.2⟩

theorem Event.Refused.fails {ev : Event} {w : World} (h : ev.Refused w.kernel) :
    w.Fails (w.record ev) :=
  ⟨ev, World.New.record w ev, h.ok⟩

/-- The command failed because what it was to delete is not there. -/
def Event.Vain (ev : Event) : Prop :=
  match ev.cmd with
  | .delLink _ | .delete .. => ev.kernel.apply ev.cmd = none
  | _ => False

/-- Makes a link, puts one into a bridge or inserts a rule, or gives up on that. -/
def Cmd.builds : Cmd → Bool
  | .insert .. | .newGretap .. | .newVlan .. | .setMaster .. | .lookup _ => true
  | _ => false

theorem Event.not_vain_of_builds {ev : Event} {cmd : Cmd} (hcmd : ev.cmd = cmd)
    (h : cmd.builds = true) : ¬ ev.Vain := by
  intro hvain
  rw [Event.Vain, hcmd] at hvain
  cases cmd with
  | insert | newGretap | newVlan | setMaster | lookup => exact hvain
  | _ => cases h

theorem Event.Unwilling.not_vain {ev : Event} (h : ev.Unwilling) : ¬ ev.Vain := by
  intro hvain
  have hsome := h.2
  cases hcmd : ev.cmd with
  | delLink | delete =>
    rw [Event.Vain, hcmd] at hvain
    rw [hcmd, hvain] at hsome
    cases hsome
  | _ =>
    rw [Event.Vain, hcmd] at hvain
    exact hvain

/-- Some command failed between `w` and `w'`, and not in vain. -/
def World.Thwarts (w w' : World) : Prop :=
  ∃ ev, w.New w' ev ∧ ev.ok = false ∧ ¬ ev.Vain

namespace World.Thwarts

variable {w w₁ w' : World}

theorem fails (h : w.Thwarts w') : w.Fails w' := h.imp fun _ hev => ⟨hev.1, hev.2.1⟩

theorem of_suffix (h : w₁.Thwarts w') (hsuffix : w.trace <:+ w₁.trace) : w.Thwarts w' :=
  h.imp fun _ hev => ⟨hev.1.of_suffix hsuffix, hev.2⟩

theorem extend (h : w.Thwarts w') (hsuffix : w'.trace <:+ w₁.trace) : w.Thwarts w₁ :=
  h.imp fun _ hev => ⟨hev.1.extend hsuffix, hev.2⟩

end World.Thwarts

theorem Event.Refused.thwarts {ev : Event} {w : World} (h : ev.Refused w.kernel)
    (hvain : ¬ ev.Vain) : w.Thwarts (w.record ev) :=
  ⟨ev, World.New.record w ev, h.ok, hvain⟩

/-- A command is carried out with its effect, or refused without one. -/
theorem perform_spec (env : Env) (fallback : Option Errno) (c : Cmd) (w : World) :
    wp (perform env fallback c) (fun ret w' => ∃ ev, w' = w.record ev ∧ ev.cmd = c ∧
      ((ret = .ok ∧ w.Grants env c ∧ ev.Done w.kernel c) ∨
      (ret = .fail ∧ (w.Grants env c → w.kernel.apply c = none) ∧ ev.Refused w.kernel ∧
        ev.errno = (env c (issued w.trace c)).errno.or fallback))) w := by
  simp only [wp, perform, StateT.run, World.Grants]
  split
  · next k hk =>
    refine ⟨_, rfl, rfl, .inl ⟨rfl, ?_, rfl, rfl, ?_⟩⟩
    · by_contra hno
      rw [if_neg hno] at hk
      cases hk
    · split at hk
      · exact hk
      · cases hk
  · next hk =>
    refine ⟨_, rfl, rfl, .inr ⟨rfl, fun hok => ?_, ⟨rfl, rfl⟩, rfl⟩⟩
    rwa [if_pos hok] at hk

/-- The environment answers when it is asked for a link now. -/
def World.Resolves (env : Env) (w : World) (name : CStr) : Prop :=
  (env (.lookup name) w.moment).ok = true

/-- A name that resolves is that of a link; one that does not is not, or the
    environment did not answer. -/
theorem ifNametoindex_spec (env : Env) (name : CStr) (w : World) :
    wp (ifNametoindex env name) (fun found w' =>
      (found = true ∧ w.kernel.hasLink name = true ∧ w.Resolves env name ∧ w' = w) ∨
      (found = false ∧ (w.Resolves env name → w.kernel.hasLink name = false) ∧
        ∃ e, e ≠ ENOSPC ∧ w' = { w with errno := e })) w := by
  simp only [ifNametoindex, wp_bind, wp_get]
  refine wp_ite (fun hfound => ?_) (fun hlost => ?_)
  · rw [Bool.and_eq_true] at hfound
    exact .inl ⟨rfl, hfound.1, hfound.2, rfl⟩
  · refine .inr ⟨rfl, fun hanswers => ?_, _, ?_, rfl⟩
    · rw [World.Resolves] at hanswers
      simpa [hanswers] using hlost
    · split <;> decide

/-- Failing writes `errno`, whatever it was before. -/
theorem unresolved_spec (c : Cmd) (errno : Errno) (w₀ : World) {w : World}
    (h : { w with errno := 0 } = { w₀ with errno := 0 }) :
    wp (unresolved c errno) (fun ret w' => ret = .fail ∧ ∃ ev, ev.cmd = c ∧
      ev.errno = some errno ∧ ev.Refused w₀.kernel ∧ w' = w₀.record ev) w := by
  obtain ⟨k, trace, e, clock, init⟩ := w
  obtain ⟨k₀, trace₀, e₀, clock₀, init₀⟩ := w₀
  cases h
  exact ⟨rfl, _, rfl, rfl, ⟨rfl, rfl⟩, rfl⟩

/-! ## Which commands a program issues -/

/-- What was recorded between `w` and `w'` satisfies `P`. -/
def World.Only (P : Event → Prop) (w w' : World) : Prop :=
  ∃ evs, w'.trace = evs ++ w.trace ∧ ∀ ev ∈ evs, P ev

namespace World.Only

variable {P Q : Event → Prop} {w w₁ w' : World}

theorem refl (w : World) : w.Only P w := ⟨[], rfl, fun _ hev => absurd hev List.not_mem_nil⟩

theorem trans (h : w.Only P w₁) (h' : w₁.Only P w') : w.Only P w' := by
  obtain ⟨evs, htrace, hevs⟩ := h
  obtain ⟨evs', htrace', hevs'⟩ := h'
  refine ⟨evs' ++ evs, by rw [htrace', htrace, List.append_assoc], fun ev hev => ?_⟩
  exact (List.mem_append.mp hev).elim (hevs' ev) (hevs ev)

theorem mono (hPQ : ∀ ev, P ev → Q ev) (h : w.Only P w') : w.Only Q w' := by
  obtain ⟨evs, htrace, hevs⟩ := h
  exact ⟨evs, htrace, fun ev hev => hPQ ev (hevs ev hev)⟩

theorem record {ev : Event} (hev : P ev) : w.Only P (w.record ev) :=
  ⟨[ev], rfl, fun _ h => List.mem_singleton.mp h ▸ hev⟩

theorem suffix (h : w.Only P w') : w.trace <:+ w'.trace := by
  obtain ⟨evs, htrace, -⟩ := h
  exact ⟨evs, htrace.symm⟩

theorem of_new {ev : Event} (h : w.Only P w') (hnew : w.New w' ev) : P ev := by
  obtain ⟨evs, htrace, hevs⟩ := h
  obtain ⟨evs', htrace', hmem⟩ := hnew
  exact hevs ev (List.append_cancel_right (htrace.symm.trans htrace') ▸ hmem)

/-- A test of the new events. -/
theorem of_since (hsuffix : w.trace <:+ w'.trace) (h : ∀ ev ∈ w.since w', P ev) : w.Only P w' :=
  ⟨w.since w', World.since_append hsuffix, h⟩

/-- A command of another kind has been issued as often as before, so that the
    environment's next answer to it is the same. -/
theorem grants_iff {env : Env} {c : Cmd} (h : w.Only P w') (hc : ∀ ev, P ev → ev.cmd ≠ c) :
    w'.Grants env c ↔ w.Grants env c := by
  obtain ⟨evs, htrace, hevs⟩ := h
  have hnone : evs.countP (fun ev => ev.cmd = c) = 0 :=
    List.countP_eq_zero.mpr fun ev hev heq => hc ev (hevs ev hev) (of_decide_eq_true heq)
  have hissued : issued w'.trace c = issued w.trace c := by
    rw [issued, issued, htrace, List.countP_append, hnone, Nat.zero_add]
  rw [World.Grants, World.Grants, hissued]

end World.Only

/-- A program that only issues commands that satisfy `P`. -/
def Issues {α : Type} (P : Cmd → Prop) (m : WorldM α) : Prop :=
  ∀ w, wp m (fun _ w' => w.Only (fun ev => P ev.cmd) w') w

namespace Issues

variable {α β : Type} {P : Cmd → Prop}

theorem suffix {m : WorldM α} (h : Issues P m) (w : World) :
    wp m (fun _ w' => w.trace <:+ w'.trace) w :=
  wp_mono (h w) fun _ _ honly => honly.suffix

theorem pure (a : α) : Issues P (Pure.pure a : WorldM α) := fun w => World.Only.refl w

theorem bind {m : WorldM α} {f : α → WorldM β} (hm : Issues P m) (hf : ∀ a, Issues P (f a)) :
    Issues P (m >>= f) := by
  intro w
  rw [wp_bind]
  exact wp_mono (hm w) fun a w₁ h₁ => wp_mono (hf a w₁) fun _ _ h => h₁.trans h

theorem perform {env : Env} {fallback : Option Errno} {c : Cmd} (hc : P c) :
    Issues P (Softgre.perform env fallback c) := by
  intro w
  refine wp_mono (perform_spec env fallback c w) fun _ w' ⟨ev, hw, hcmd, _⟩ => ?_
  subst hw hcmd
  exact World.Only.record hc

theorem ifNametoindex (env : Env) (name : CStr) : Issues P (Softgre.ifNametoindex env name) := by
  intro w
  refine wp_mono (ifNametoindex_spec env name w) fun _ w' h => ?_
  rcases h with ⟨-, -, -, rfl⟩ | ⟨-, -, _, -, rfl⟩
  · exact World.Only.refl w'
  · exact World.Only.refl w

theorem unresolved {c : Cmd} {errno : Errno} (hc : P c) : Issues P (Softgre.unresolved c errno) :=
  fun _ => World.Only.record hc

end Issues

theorem Event.Refused.unwilling {ev : Event} {k k' : Kernel} (h : ev.Refused k)
    (happly : k.apply ev.cmd = some k') : ev.Unwilling :=
  ⟨h.ok, by rw [h.kernel, happly]; rfl⟩

end Softgre
