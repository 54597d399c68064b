-- SUMMARY: The loads, tests and returns of classic BPF, with their interpreter.
import Softgre.Base.Bytes

/-!
# Classic BPF

A filter is a list of instructions over one accumulator. Jump offsets count from
the next instruction, and loads read the packet in network order.
-/

namespace Base.Bpf

inductive Insn where
  | ldH (k : Nat)
  | ldB (k : Nat)
  | jeq (k : UInt32) (jt jf : Nat)
  | ret (k : UInt32)
deriving DecidableEq, Repr

/-- What a load past the end of the packet does: it ends the filter with 0, as
    the kernel's interpreter has it, or it reads as 0. -/
inductive ShortLoad where
  | reject
  | zero

/-- How a filter ends. -/
inductive Halt where
  | ret (k : UInt32)
  | shortLoad
deriving DecidableEq, Repr

def Halt.value : Halt → UInt32
  | .ret k => k
  | .shortLoad => 0

/-- The halfword at `k`. -/
def half (packet : List UInt8) (k : Nat) : Option UInt32 :=
  match packet[k]?, packet[k + 1]? with
  | some hi, some lo => some (word hi lo).toUInt32
  | _, _ => none

/-- The byte at `k`. -/
def byte (packet : List UInt8) (k : Nat) : Option UInt32 := packet[k]?.map UInt8.toUInt32

/-- What a load leaves in the accumulator, if the filter goes on. -/
def ShortLoad.read : ShortLoad → Option UInt32 → Option UInt32
  | _, some x => some x
  | .reject, none => none
  | .zero, none => some 0

/-- `none` when the fuel runs out or control leaves the program. -/
def run (short : ShortLoad) (program : List Insn) (packet : List UInt8) :
    Nat → Nat → UInt32 → Option Halt
  | 0, _, _ => none
  | fuel + 1, pc, a =>
    match program[pc]? with
    | none => none
    | some (.ldH k) =>
      match short.read (half packet k) with
      | some x => run short program packet fuel (pc + 1) x
      | none => some .shortLoad
    | some (.ldB k) =>
      match short.read (byte packet k) with
      | some x => run short program packet fuel (pc + 1) x
      | none => some .shortLoad
    | some (.jeq k jt jf) =>
      run short program packet fuel (if a = k then pc + 1 + jt else pc + 1 + jf) a
    | some (.ret k) => some (.ret k)

/-- What a filter returns is written in one of its instructions. -/
theorem ret_mem_of_run {short : ShortLoad} {program : List Insn} {packet : List UInt8}
    {fuel pc : Nat} {a k : UInt32} (h : run short program packet fuel pc a = some (.ret k)) :
    Insn.ret k ∈ program := by
  induction fuel generalizing pc a with
  | zero => cases h
  | succ fuel ih =>
    rw [run] at h
    split at h
    · cases h
    · split at h
      · exact ih h
      · cases h
    · split at h
      · exact ih h
      · cases h
    · exact ih h
    · next hpc =>
      cases h
      exact List.mem_of_getElem? hpc

-- ---------------------------------------------------------------------------
-- Rules
-- ---------------------------------------------------------------------------

/-- From `pc` on the filter ends, at a return unless a short load may end it,
    and it passes the packet exactly if `P`. -/
def Ends (short : ShortLoad) (program : List Insn) (packet : List UInt8) (fuel pc : Nat)
    (a : UInt32) (P : Prop) : Prop :=
  ∃ halt, run short program packet fuel pc a = some halt ∧
    (short = .zero → ∃ k, halt = .ret k) ∧ (halt.value ≠ 0 ↔ P)

namespace Ends

variable {short : ShortLoad} {program : List Insn} {packet : List UInt8} {fuel pc k jt jf : Nat}
  {a x : UInt32} {P : Prop}

theorem congr {Q : Prop} (h : Ends short program packet fuel pc a P) (hPQ : P ↔ Q) :
    Ends short program packet fuel pc a Q := by
  rwa [← propext hPQ]

theorem ret (hpc : program[pc]? = some (.ret x)) (h : x ≠ 0 ↔ P) :
    Ends short program packet (fuel + 1) pc a P :=
  ⟨.ret x, by simp only [run, hpc], fun _ => ⟨x, rfl⟩, h⟩

theorem jeq (hpc : program[pc]? = some (.jeq x jt jf))
    (htrue : a = x → Ends short program packet fuel (pc + 1 + jt) a P)
    (hfalse : a ≠ x → Ends short program packet fuel (pc + 1 + jf) a P) :
    Ends short program packet (fuel + 1) pc a P := by
  simp only [Ends, run, hpc]
  split
  · next h => exact htrue h
  · next h => exact hfalse h

/-- A load of either width: the packet is not to pass if it is too short. -/
theorem load {value : Option UInt32}
    (hrun : run short program packet (fuel + 1) pc a =
      match short.read value with
      | some x => run short program packet fuel (pc + 1) x
      | none => some .shortLoad)
    (hmissing : value = none → ¬ P)
    (hnext : Ends short program packet fuel (pc + 1) (value.getD 0) P) :
    Ends short program packet (fuel + 1) pc a P := by
  rw [Ends, hrun]
  cases value with
  | some x => exact hnext
  | none =>
    cases short with
    | zero => exact hnext
    | reject => exact ⟨.shortLoad, rfl, (by intro h; cases h), by simp [Halt.value, hmissing rfl]⟩

theorem ldH (hpc : program[pc]? = some (.ldH k)) (hmissing : half packet k = none → ¬ P)
    (hnext : Ends short program packet fuel (pc + 1) ((half packet k).getD 0) P) :
    Ends short program packet (fuel + 1) pc a P :=
  load (by simp only [run, hpc]) hmissing hnext

theorem ldB (hpc : program[pc]? = some (.ldB k)) (hmissing : byte packet k = none → ¬ P)
    (hnext : Ends short program packet fuel (pc + 1) ((byte packet k).getD 0) P) :
    Ends short program packet (fuel + 1) pc a P :=
  load (by simp only [run, hpc]) hmissing hnext

end Ends

end Base.Bpf
