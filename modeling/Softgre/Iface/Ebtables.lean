-- SUMMARY: The firewall operations of `iface_ebtables.c`.
import Softgre.Host.World
import Mathlib.Tactic.IntervalCases

/-!
# The firewall

`SOFTGRE_IN` in table `nat` holds the permitted source addresses and ends with a
drop; `SOFTGRE_OUT` in table `filter` holds the permitted destinations and ends
with the multicast rule and a drop. Three jumps per tunnel lead there.
-/

namespace Softgre

open Base

/-- The interface pattern that matches the VLAN links of a tunnel. -/
def vlanPattern (name : CStr) : CStr := snprintf (ifNamSiz + 2) (name ++ ['.', '+'])

def multicastRule : Rule := ⟨none, some .dstMulticast, .accept⟩
def dropRule : Rule := ⟨none, none, .drop⟩
def acceptIn (name mac : CStr) : Rule := ⟨some (.input, vlanPattern name), some (.src mac), .accept⟩
def acceptOut (name mac : CStr) : Rule :=
  ⟨some (.output, vlanPattern name), some (.dst mac), .accept⟩

def chainDefaults (env : Env) : WorldM Ret := do
  match ← helperExec env (.append .filter .softgreOut multicastRule) with
  | .fail => return .fail
  | .ok =>
    match ← helperExec env (.append .nat .softgreIn dropRule) with
    | .fail => return .fail
    | .ok => helperExec env (.append .filter .softgreOut dropRule)

/-- The daemon's chain in a table. -/
def EbTable.own : EbTable → Chain
  | .nat => .softgreIn
  | .filter => .softgreOut

/-- One entry of the `hooks` table: where a jump is installed and where it leads. -/
structure Hook where
  table : EbTable
  chain : Chain
  direction : Direction
  target : Chain
deriving DecidableEq, Repr

def hooks : List Hook :=
  [⟨.nat, .prerouting, .input, .softgreIn⟩,
   ⟨.filter, .forward, .output, .softgreOut⟩,
   ⟨.filter, .output, .output, .softgreOut⟩]

/-- The jump a hook installs for the tunnel `name`. -/
def Hook.jump (h : Hook) (name : CStr) : Rule :=
  ⟨some (h.direction, vlanPattern name), none, .chain h.target⟩

/-- Bit `i` of the `firewall_hooks` word. -/
def bit (i : Nat) : BitVec 32 := 1#32 <<< i

/-- The loop of `iface_ebtables_add_tunnel` from hook number `i` on. -/
def addHooks (env : Env) (name : CStr) : List Hook → Nat → BitVec 32 → WorldM (Ret × BitVec 32)
  | [], _, installed => return (.ok, installed)
  | h :: rest, i, installed =>
    if installed &&& bit i ≠ 0 then addHooks env name rest (i + 1) installed
    else do
      match ← helperExec env (.insert h.table h.chain (h.jump name)) with
      | .fail => return (.fail, installed)
      | .ok => addHooks env name rest (i + 1) (installed ||| bit i)

def ifaceEbtablesAddTunnel (env : Env) (name : CStr) (installed : BitVec 32) :
    WorldM (Ret × BitVec 32) :=
  addHooks env name hooks 0 installed

/-- The loop of `iface_ebtables_del_tunnel`: a jump that cannot be deleted keeps
    its bit, and the loop goes on. -/
def delHooks (env : Env) (name : CStr) : List Hook → Nat → BitVec 32 → WorldM (BitVec 32)
  | [], _, installed => return installed
  | h :: rest, i, installed =>
    if installed &&& bit i ≠ 0 then do
      match ← helperExec env (.delete h.table h.chain (h.jump name)) with
      | .fail => delHooks env name rest (i + 1) installed
      | .ok => delHooks env name rest (i + 1) (installed &&& ~~~ bit i)
    else delHooks env name rest (i + 1) installed

def ifaceEbtablesDelTunnel (env : Env) (name : CStr) (installed : BitVec 32) :
    WorldM (Ret × BitVec 32) := do
  let installed ← delHooks env name hooks 0 installed
  return (if installed ≠ 0 then .fail else .ok, installed)

def ifaceEbtablesReset (env : Env) : WorldM Ret := do
  match ← helperExec env (.flush .nat .softgreIn) with
  | .fail => return .fail
  | .ok =>
    match ← helperExec env (.flush .filter .softgreOut) with
    | .fail => return .fail
    | .ok => chainDefaults env

/-- Permit a MAC: ingress first, then egress; a failed egress rule is followed by
    an attempt to take the ingress rule back, whose result is not looked at. -/
def ifaceEbtablesAllow (env : Env) (name mac : CStr) : WorldM Ret := do
  match ← helperExec env (.insert .nat .softgreIn (acceptIn name mac)) with
  | .fail => return .fail
  | .ok =>
    match ← helperExec env (.insert .filter .softgreOut (acceptOut name mac)) with
    | .fail =>
      let _ ← helperExec env (.delete .nat .softgreIn (acceptIn name mac))
      return .fail
    | .ok => return .ok

def ifaceEbtablesRevoke (env : Env) (name mac : CStr) : WorldM Ret := do
  let a ← helperExec env (.delete .nat .softgreIn (acceptIn name mac))
  let b ← helperExec env (.delete .filter .softgreOut (acceptOut name mac))
  return if a = .fail ∨ b = .fail then .fail else .ok

def ifaceEbtablesEnd (env : Env) : WorldM Ret := do
  if !(← get).initialized then return .ok
  let flushIn ← helperExec env (.flush .nat .softgreIn)
  let flushOut ← helperExec env (.flush .filter .softgreOut)
  let deleteIn ← helperExec env (.deleteChain .nat .softgreIn)
  let deleteOut ← helperExec env (.deleteChain .filter .softgreOut)
  if flushIn = .ok ∧ flushOut = .ok ∧ deleteIn = .ok ∧ deleteOut = .ok then
    modify fun w => { w with initialized := false }
    return .ok
  else return .fail

def ifaceEbtablesInit (env : Env) : WorldM Ret := do
  match ← helperExec env (.newChain .nat .softgreIn) with
  | .fail => return .fail
  | .ok =>
    match ← helperExec env (.newChain .filter .softgreOut) with
    | .fail =>
      let _ ← helperExec env (.deleteChain .nat .softgreIn)
      return .fail
    | .ok =>
      modify fun w => { w with initialized := true }
      match ← chainDefaults env with
      | .fail =>
        let _ ← ifaceEbtablesEnd env
        return .fail
      | .ok => return .ok

/-! ## The hook word -/

theorem getLsbD_bit {i : Nat} (hi : i < 32) (j : Nat) : (bit i).getLsbD j = decide (i = j) := by
  rw [show bit i = BitVec.twoPow 32 i from rfl, BitVec.getLsbD_twoPow]
  simp [hi]

theorem and_bit_ne_zero_iff {x : BitVec 32} {i : Nat} (hi : i < 32) :
    x &&& bit i ≠ 0 ↔ x.getLsbD i = true := by
  rw [show bit i = BitVec.twoPow 32 i from rfl, BitVec.and_twoPow]
  split
  · next h =>
    refine iff_of_true (fun hzero => ?_) h
    have := congrArg (·.getLsbD i) hzero
    simp [hi] at this
  · next h => exact iff_of_false (by simp) h

theorem getLsbD_or_bit (x : BitVec 32) {i : Nat} (hi : i < 32) (j : Nat) :
    (x ||| bit i).getLsbD j = (x.getLsbD j || decide (i = j)) := by
  rw [BitVec.getLsbD_or, getLsbD_bit hi]

theorem getLsbD_and_not_bit (x : BitVec 32) {i : Nat} (hi : i < 32) {j : Nat} (hj : j < 32) :
    (x &&& ~~~ bit i).getLsbD j = (x.getLsbD j && !decide (i = j)) := by
  rw [BitVec.getLsbD_and, BitVec.getLsbD_not, getLsbD_bit hi]
  simp only [hj, decide_true, Bool.true_and]

theorem lt_of_hooks {i : Nat} {h : Hook} (hi : hooks[i]? = some h) : i < 3 :=
  (List.getElem?_eq_some_iff.mp hi).1

theorem toNat_or_bit_lt {x : BitVec 32} {i : Nat} {h : Hook} (hx : x.toNat < 8)
    (hi : hooks[i]? = some h) : (x ||| bit i).toNat < 8 := by
  have hlt := lt_of_hooks hi
  have hbit : (bit i).toNat < 2 ^ 3 := by
    interval_cases i <;> decide
  rw [BitVec.toNat_or]
  exact Nat.or_lt_two_pow (n := 3) hx hbit

theorem toNat_and_not_bit_lt {x : BitVec 32} {i : Nat} (hx : x.toNat < 8) :
    (x &&& ~~~ bit i).toNat < 8 := by
  rw [BitVec.toNat_and]
  exact Nat.lt_of_le_of_lt Nat.and_le_left hx

/-- A hook word is determined by its three bits. -/
theorem hookWord_ext {x y : BitVec 32} (hx : x.toNat < 8) (hy : y.toNat < 8)
    (h : ∀ i hook, hooks[i]? = some hook → x.getLsbD i = y.getLsbD i) : x = y := by
  refine BitVec.eq_of_getLsbD_eq fun i hi => ?_
  by_cases h3 : i < 3
  · exact h i _ (List.getElem?_eq_getElem h3)
  · have hhigh : ∀ z : BitVec 32, z.toNat < 8 → z.getLsbD i = false := by
      intro z hz
      refine Nat.testBit_lt_two_pow (Nat.lt_of_lt_of_le hz ?_)
      exact Nat.pow_le_pow_right (n := 2) (by decide) (Nat.le_of_not_lt h3)
    rw [hhigh x hx, hhigh y hy]

end Softgre
