-- SUMMARY: The parser as the machine runs it: every byte it reads and every size it subtracts.
import Softgre.Payload.Exact

/-!
# The parser as the machine runs it

The checked parser stops at its first bad read or difference. The machine does
not: a read behind the frame returns whatever lies there, and a negative size
wraps around. `payloadRun` is `payload_parse` in that semantics, with a log of
what it reads and subtracts. It agrees with the checked parser as long as that
one does not stop, and then everything in the log is in bounds.
-/

namespace Softgre

/-- What the parser does to the frame and to sizes. -/
inductive Access where
  | read (index : Nat)
  | sub (a b : Nat)
deriving DecidableEq, Repr

/-- A read below the length, or a difference that is not negative. -/
def Access.InBounds (len : Nat) : Access → Prop
  | .read index => index < len
  | .sub a b => b ≤ a

/-- A computation with its accesses, the latest first. -/
abbrev Traced (α : Type) : Type := StateM (List Access) α

section Run

-- `beyond` is what lies in memory behind the frame
variable (frame : List UInt8) (beyond : Nat → UInt8)

def load8 (i : Nat) : Traced UInt8 := fun log => (frame.getD i (beyond i), .read i :: log)

def load16 (i : Nat) : Traced UInt16 := do
  let hi ← load8 frame beyond i
  let lo ← load8 frame beyond (i + 1)
  return (hi.toUInt16 <<< 8) ||| lo.toUInt16

/-- A `size_t` difference, which wraps around below zero. -/
def difference (a b : Nat) : Traced Nat :=
  fun log => (if b ≤ a then a - b else a + 2 ^ 64 - b, .sub a b :: log)

def outerTagsRun : Nat → UInt16 → Nat → Traced (Option (UInt16 × Nat))
  | left, type, offset =>
    if isTag type then
      match left with
      | 0 => pure none
      | left + 1 => do
        let remaining ← difference frame.length offset
        if remaining < 4 then return none
        let type ← load16 frame beyond (offset + 2)
        outerTagsRun left type (offset + 4)
    else pure (some (type, offset))

def parseInnerRun (ip ether remaining : Nat) : Traced (Option PayloadPacket) := do
  if remaining < 14 then return none
  let type ← load16 frame beyond (ether + 12)
  if type != 0x8100 || remaining < 18 then return none
  let innerType ← load16 frame beyond (ether + 16)
  if isTag innerType then return none
  let tci ← load16 frame beyond (ether + 14)
  let vlan := tci &&& (0x0fff : UInt16)
  if vlan < 1 || vlan > 4094 then return none
  let m0 ← load8 frame beyond (ether + 6)
  if m0 &&& (1 : UInt8) != 0 then return none
  let m1 ← load8 frame beyond (ether + 7)
  let m2 ← load8 frame beyond (ether + 8)
  let m3 ← load8 frame beyond (ether + 9)
  let m4 ← load8 frame beyond (ether + 10)
  let m5 ← load8 frame beyond (ether + 11)
  let nonzero := m0 ||| m1 ||| m2 ||| m3 ||| m4 ||| m5
  if nonzero == 0 then return none
  return some
    { remote := InAddr.ofBytes (← load8 frame beyond (ip + 12)) (← load8 frame beyond (ip + 13))
        (← load8 frame beyond (ip + 14)) (← load8 frame beyond (ip + 15))
      localAddr := InAddr.ofBytes (← load8 frame beyond (ip + 16)) (← load8 frame beyond (ip + 17))
        (← load8 frame beyond (ip + 18)) (← load8 frame beyond (ip + 19))
      mac := #[m0, m1, m2, m3, m4, m5].toVector
      vlan := vlan }

/-- `payload_parse` on a frame in memory. -/
def payloadRun : Traced (Option PayloadPacket) := do
  if frame.length < 14 then return none
  let type ← load16 frame beyond 12
  let some (type, offset) ← outerTagsRun frame beyond 2 type 14 | return none
  if type != 0x0800 then return none
  let remaining ← difference frame.length offset
  if remaining < 20 then return none
  let ip := offset
  let version ← load8 frame beyond ip
  let ihl := (version &&& (15 : UInt8)).toNat * 4
  let total := (← load16 frame beyond (ip + 2)).toNat
  if version >>> 4 != 4 || ihl < 20 || total < ihl + 4 then return none
  let remaining ← difference frame.length offset
  if total > remaining then return none
  let protocol ← load8 frame beyond (ip + 9)
  if protocol != 47 then return none
  let fragment ← load16 frame beyond (ip + 6)
  if fragment &&& (0xbfff : UInt16) != 0 then return none
  let gre := ip + ihl
  let flags ← load16 frame beyond gre
  if flags != 0 then return none
  let protocol ← load16 frame beyond (gre + 2)
  if protocol != 0x6558 then return none
  let remaining ← difference total ihl
  let remaining ← difference remaining 4
  parseInnerRun frame beyond ip (gre + 4) remaining

end Run

-- ---------------------------------------------------------------------------
-- The log of a checked computation
-- ---------------------------------------------------------------------------

/-- If the checked computation returns, the machine returns the same and its
    accesses are in bounds. -/
def Traces {α : Type} (len : Nat) (checked : Except Fault α) (run : Traced α) : Prop :=
  ∀ a, checked = .ok a → ∀ log, (∀ access ∈ log, access.InBounds len) →
    (run log).1 = a ∧ ∀ access ∈ (run log).2, access.InBounds len

namespace Traces

variable {α β : Type} {len : Nat}

theorem pure (a : α) : Traces len (Pure.pure a) (Pure.pure a) := by
  intro b hb log hlog
  cases hb
  exact ⟨rfl, hlog⟩

theorem bind {x : Except Fault α} {y : Traced α} {f : α → Except Fault β} {g : α → Traced β}
    (h : Traces len x y) (hnext : ∀ a, Traces len (f a) (g a)) :
    Traces len (x >>= f) (y >>= g) := by
  intro b hb log hlog
  obtain ⟨a, hx, hf⟩ := Base.bind_eq_ok_iff.mp hb
  obtain ⟨hvalue, hlog'⟩ := h a hx log hlog
  have hgoal := hnext a b hf (y log).2 hlog'
  rw [← hvalue] at hgoal
  exact hgoal

theorem ite {c : Prop} [Decidable c] {x x' : Except Fault α} {y y' : Traced α}
    (h : Traces len x y) (h' : Traces len x' y') :
    Traces len (if c then x else x') (if c then y else y') := by
  split
  · exact h
  · exact h'

/-- A single access. -/
theorem access {a : α} {x : Except Fault α} {step : Access} (hx : ∀ b, x = .ok b → b = a)
    (hstep : ∀ b, x = .ok b → step.InBounds len) :
    Traces len x fun log => (a, step :: log) := by
  intro b hb log hlog
  refine ⟨(hx b hb).symm, ?_⟩
  rintro access (_ | ⟨_, hmem⟩)
  · exact hstep b hb
  · exact hlog access hmem

theorem sizeSub (a b : Nat) : Traces len (sizeSub a b) (difference a b) := by
  have hle : ∀ n, Softgre.sizeSub a b = .ok n → b ≤ a ∧ n = a - b := by
    intro n hn
    rw [Softgre.sizeSub] at hn
    split at hn
    · next hle =>
      cases hn
      exact ⟨hle, rfl⟩
    · cases hn
  refine access (fun n hn => ?_) fun n hn => (hle n hn).1
  rw [(hle n hn).2, if_pos (hle n hn).1]

variable (frame : List UInt8) (beyond : Nat → UInt8)

theorem read8 (i : Nat) : Traces frame.length (read8 frame i) (load8 frame beyond i) := by
  have hget : ∀ b, Softgre.read8 frame i = .ok b → frame[i]? = some b := by
    intro b hb
    rw [Softgre.read8] at hb
    split at hb
    · next hsome =>
      cases hb
      exact hsome
    · cases hb
  refine access (fun b hb => ?_) fun b hb => (List.getElem?_eq_some_iff.mp (hget b hb)).1
  rw [List.getD_eq_getElem?_getD, hget b hb, Option.getD_some]

theorem read16 (i : Nat) : Traces frame.length (read16 frame i) (load16 frame beyond i) :=
  bind (read8 frame beyond i) fun _ => bind (read8 frame beyond (i + 1)) fun _ => pure _

theorem outerTags (left : Nat) (type : UInt16) (offset : Nat) :
    Traces frame.length (outerTags frame left type offset)
      (outerTagsRun frame beyond left type offset) := by
  induction left generalizing type offset with
  | zero =>
    rw [Softgre.outerTags, outerTagsRun]
    exact ite (pure none) (pure _)
  | succ left ih =>
    rw [Softgre.outerTags, outerTagsRun]
    refine ite (bind (sizeSub _ _) fun remaining => ite (pure none) ?_) (pure _)
    exact bind (read16 frame beyond _) fun type => ih type _

theorem parseInner (ip ether remaining : Nat) :
    Traces frame.length (parseInner frame ip ether remaining)
      (parseInnerRun frame beyond ip ether remaining) := by
  have byte := fun {γ : Type} i {f : UInt8 → Except Fault γ} {g : UInt8 → Traced γ} =>
    bind (f := f) (g := g) (read8 frame beyond i)
  have half := fun {γ : Type} i {f : UInt16 → Except Fault γ} {g : UInt16 → Traced γ} =>
    bind (f := f) (g := g) (read16 frame beyond i)
  refine ite (pure none) (half _ fun type => ite (pure none) (half _ fun innerType => ?_))
  refine ite (pure none) (half _ fun tci => ite (pure none) (byte _ fun m0 => ite (pure none) ?_))
  refine byte _ fun m1 => byte _ fun m2 => byte _ fun m3 => byte _ fun m4 => byte _ fun m5 => ?_
  refine ite (pure none) (byte _ fun r0 => byte _ fun r1 => byte _ fun r2 => byte _ fun r3 => ?_)
  exact byte _ fun l0 => byte _ fun l1 => byte _ fun l2 => byte _ fun l3 => pure _

theorem sizeSub_sizeSub (a b c : Nat) :
    Traces len (Softgre.sizeSub a (b + c)) (difference a b >>= fun n => difference n c) := by
  have hsplit : Softgre.sizeSub a (b + c) =
      Softgre.sizeSub a b >>= fun n => Softgre.sizeSub n c := by
    by_cases hb : b ≤ a
    · rw [sizeSub_eq hb]
      change Softgre.sizeSub a (b + c) = Softgre.sizeSub (a - b) c
      simp only [Softgre.sizeSub]
      split
      · rw [if_pos (by omega), Nat.sub_sub]
      · rw [if_neg (by omega)]
    · rw [Softgre.sizeSub, Softgre.sizeSub, if_neg (by omega), if_neg hb]
      rfl
  rw [hsplit]
  exact bind (sizeSub a b) fun n => sizeSub n c

theorem payloadParse : Traces frame.length (payloadParse frame) (payloadRun frame beyond) := by
  refine ite (pure none) (bind (read16 frame beyond 12) fun type => ?_)
  refine bind (outerTags frame beyond 2 type 14) fun tags => ?_
  cases tags with
  | none => exact pure none
  | some tags =>
    refine ite (pure none) (bind (sizeSub _ _) fun remaining => ite (pure none) ?_)
    refine bind (read8 frame beyond _) fun version => bind (read16 frame beyond _) fun total => ?_
    refine ite (pure none) (bind (sizeSub _ _) fun remaining => ite (pure none) ?_)
    refine bind (read8 frame beyond _) fun protocol => ite (pure none) ?_
    refine bind (read16 frame beyond _) fun fragment => ite (pure none) ?_
    refine bind (read16 frame beyond _) fun flags => ite (pure none) ?_
    refine bind (read16 frame beyond _) fun type => ite (pure none) ?_
    -- the source subtracts the two headers one after the other
    rw [← bind_assoc]
    exact bind (sizeSub_sizeSub _ _ _) fun remaining => parseInner frame beyond _ _ remaining

end Traces

/-- On every frame, whatever lies behind it in memory, the parser reads below the
    length only and never subtracts below zero; its result is that of the checked
    parser. -/
theorem parser_reads_in_bounds (frame : List UInt8) (beyond : Nat → UInt8) :
    (∀ access ∈ ((payloadRun frame beyond).run []).2, access.InBounds frame.length) ∧
      payloadParse frame = .ok ((payloadRun frame beyond).run []).1 := by
  obtain ⟨r, hparse, -⟩ := payloadParse_decides frame
  obtain ⟨hvalue, hlog⟩ := Traces.payloadParse frame beyond r hparse [] (by simp)
  exact ⟨hlog, hparse.trans (congrArg Except.ok hvalue.symm)⟩

end Softgre
