-- SUMMARY: How many commands packets can make the daemon issue, over whole runs.
import Softgre.Base.Budget
import Softgre.Daemon.Tables
import Softgre.Daemon.Backoff
import Mathlib.Data.Finset.Filter

/-!
# Command storms

Every command costs a process or an exchange with the kernel, and packets come from
outside. A packet makes the daemon issue a bounded number of commands, and it does so
only in three cases: its address enters the tables, the backoff is armed, or one of its
commands reports that there is no space. A packet that finds the tables full costs
nothing.

The meter is the length of the trace of commands.
-/

namespace Softgre

open Base

variable {cfg : SoftgredConfig} {env : Env} {s s' : Sys} {p : Ptr}

/-- A command between `w` and `w'` reports that there is no space. -/
def World.Crowded (w w' : World) : Prop := ∃ ev ∈ w.since w', ev.errno = some ENOSPC

instance (w w' : World) : Decidable (w.Crowded w') :=
  inferInstanceAs (Decidable (∃ ev ∈ w.since w', ev.errno = some ENOSPC))

/-- If `errno` stands for a limit behind the commands of an attempt, one of them has put
    it there. -/
theorem World.After.crowded {w w' : World} {evs : List Event} (h : w.After w' evs)
    (hbefore : w.errno ≠ ENOSPC) (herrno : w'.errno = ENOSPC) : w.Crowded w' := by
  have hsince : w.since w' = evs :=
    List.append_cancel_right ((World.since_append ⟨evs, h.trace.symm⟩).symm.trans h.trace)
  have hlast := h.errno herrno
  cases hevs : lastErrno evs with
  | none =>
    rw [hevs] at hlast
    exact absurd hlast hbefore
  | some e =>
    rw [hevs] at hlast
    obtain ⟨ev, hmem, hev⟩ := List.exists_of_findSome?_eq_some hevs
    exact ⟨ev, hsince ▸ hmem, hev.trans (congrArg some hlast)⟩

/-- Add up a quantity over the calls of a run. -/
def total (cfg : SoftgredConfig) (env : Env) (f : Sys → Call → Nat) : List Call → Sys → Nat
  | [], _ => 0
  | call :: rest, s => f s call + total cfg env f rest (exec cfg env s call)

end Softgre
