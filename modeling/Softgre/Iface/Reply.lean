-- SUMMARY: The replies `link_send` waits for: the walk over the messages of a datagram, and its end.
import Softgre.Iface.Netlink

/-!
# Netlink replies

A read of the reply checks that its bytes were received. The walk over a datagram
keeps a pointer and a signed number of bytes, as `NLMSG_NEXT` does; what it finds
is stated over `messages`, the complete messages of the datagram.
-/

namespace Softgre

open Base

-- ---------------------------------------------------------------------------
-- The walk of `link_send`
-- ---------------------------------------------------------------------------

def EINTR : Int32 := 4

def nlmsgError : Nat := 2

/-- `NLMSG_LENGTH(sizeof(struct nlmsgerr))`. -/
def nlmsgerrLength : Nat := 16 + 20

/-- How `link_send` ends: it returns 0, or -1 with `errno`. -/
inductive Ack where
  | success
  | failure (errno : Int32)
deriving DecidableEq, Repr

/-- Where a loop of `link_send` gets. -/
inductive Waiting where
  /-- It has not come to its end. -/
  | running
  /-- There is no acknowledgment, and another datagram is awaited. -/
  | undecided
  | decided (ack : Ack)
deriving DecidableEq, Repr

/-- The bytes that `recvfrom` leaves in `reply`. -/
structure Reception where
  data : List UInt8
  length_le : data.length ≤ 8192

section Walk

variable (e : Endian)

/-- `header.nlmsg_seq`. -/
def LinkRequest.nlmsgSeq (req : LinkRequest) : Nat := e.read 4 req.bytes 8

def readWord (k : Nat) (data : List UInt8) (offset : Nat) : Except Fault Nat :=
  if offset + k ≤ data.length then .ok (e.read k data offset)
  else .error (.outOfBounds (offset + k))

/-- `NLMSG_OK(h, got)`, which reads the length only if there is a header. -/
def nlmsgOkAt (data : List UInt8) (h : Nat) (got : Int) : Except Fault Bool :=
  if got ≥ 16 then do
    let len ← readWord e 4 data h
    return decide (len ≥ 16) && decide ((len : Int) ≤ got)
  else return false

/-- The field of a `struct nlmsgerr`, an `int`. -/
def errorField (n : Nat) : Int32 := (UInt32.ofNat n).toInt32

/-- The body of the loop, which is left only with an acknowledgment. -/
def replyBody (seq : Nat) (data : List UInt8) (h : Nat) : Except Fault (Option Ack) := do
  if (← readWord e 4 data (h + 8)) ≠ seq then return none
  if (← readWord e 2 data (h + 4)) = nlmsgError then
    if (← readWord e 4 data h) ≥ nlmsgerrLength then
      let error := errorField (← readWord e 4 data (h + 16))
      return some (if error = 0 then .success else .failure (-error))
  return none

def replyLoop (seq : Nat) (data : List UInt8) : Nat → Nat → Int → Except Fault Waiting
  | 0, _, _ => return .running
  | fuel + 1, h, got => do
    if ← nlmsgOkAt e data h got then
      match ← replyBody e seq data h with
      | some ack => return .decided ack
      | none => do
        -- `NLMSG_NEXT` may leave less than nothing.
        let len ← readWord e 4 data h
        replyLoop seq data fuel (h + nlmsgAlign len) (got - nlmsgAlign len)
    else return .undecided

/-- What a call of `recvfrom` comes to. -/
inductive Received where
  | failed (errno : Int32)
  | datagram (nlPid : UInt32) (reply : Reception)

/-- The loop over what is received. -/
def receiveLoop (seq fuel : Nat) : List Received → Except Fault Waiting
  | [] => return .undecided
  | .failed errno :: rest =>
    if errno = EINTR then receiveLoop seq fuel rest else return .decided (.failure errno)
  | .datagram nlPid reply :: rest =>
    if nlPid ≠ 0 then receiveLoop seq fuel rest
    else do
      match ← replyLoop e seq reply.data fuel 0 reply.data.length with
      | .undecided => receiveLoop seq fuel rest
      | stop => return stop

end Walk

-- ---------------------------------------------------------------------------
-- Acknowledgments
-- ---------------------------------------------------------------------------

section Acknowledgments

variable (e : Endian) (seq : Nat)

/-- A message that settles the request. -/
def isAck (message : List UInt8) : Bool :=
  decide (e.read 4 message 8 = seq) && decide (e.read 2 message 4 = nlmsgError) &&
    decide (nlmsgerrLength ≤ message.length)

def ackOf (message : List UInt8) : Ack :=
  let error := errorField (e.read 4 message 16)
  if error = 0 then .success else .failure (-error)

/-- What a datagram says about the request. -/
def acknowledgment (data : List UInt8) : Option Ack :=
  ((messages e data).find? (isAck e seq)).map (ackOf e)

/-- What ends `link_send`: an error other than an interruption, or an acknowledgment
    by the kernel. -/
def Received.settles : Received → Option Ack
  | .failed errno => if errno = EINTR then none else some (.failure errno)
  | .datagram nlPid reply => if nlPid = 0 then acknowledgment e seq reply.data else none

def Waiting.of : Option Ack → Waiting
  | some ack => .decided ack
  | none => .undecided

end Acknowledgments

section Exact

variable {e : Endian} {seq fuel h : Nat} {data : List UInt8}

theorem readWord_eq {k offset : Nat} (hle : h + offset + k ≤ data.length) :
    readWord e k data (h + offset) = .ok (e.read k (data.drop h) offset) := by
  rw [readWord, if_pos hle, Endian.read_drop]

theorem readLen_eq (hheader : h + 16 ≤ data.length) :
    readWord e 4 data h = .ok (e.read 4 (data.drop h) 0) := by
  rw [readWord, if_pos (by omega), Endian.read_drop, Nat.add_zero]

/-- With the bytes behind `h` as the remaining length, negative or not. -/
theorem nlmsgOkAt_eq :
    nlmsgOkAt e data h ((data.length : Int) - h) = .ok (nlmsgOk e (data.drop h)) := by
  by_cases hheader : h + 16 ≤ data.length
  · have hgot : (data.length : Int) - h ≥ 16 := by omega
    have hread := readLen_eq (e := e) hheader
    rw [nlmsgOkAt, if_pos hgot, hread]
    refine congrArg Except.ok ?_
    rw [nlmsgOk, Bool.eq_iff_iff]
    simp only [Bool.and_eq_true, decide_eq_true_iff, List.length_drop]
    omega
  · have hgot : ¬ (data.length : Int) - h ≥ 16 := by omega
    have hbad : nlmsgOk e (data.drop h) = false := by
      rw [Bool.eq_false_iff, ne_eq, nlmsgOk_iff, List.length_drop]
      omega
    rw [nlmsgOkAt, if_neg hgot, hbad]
    rfl

/-- The message that the walk is at. -/
theorem replyBody_eq {message : List UInt8} (hok : nlmsgOk e (data.drop h) = true)
    (hmessage : (data.drop h).take (e.read 4 (data.drop h) 0) = message) :
    replyBody e seq data h = .ok (if isAck e seq message then some (ackOf e message) else none) := by
  obtain ⟨hheader, hlen, hle⟩ := nlmsgOk_iff.mp hok
  rw [List.length_drop] at hheader hle
  have hlength : message.length = e.read 4 (data.drop h) 0 := by
    rw [← hmessage, List.length_take, List.length_drop]
    omega
  have hread : ∀ k offset, offset + k ≤ message.length →
      readWord e k data (h + offset) = .ok (e.read k message offset) := by
    intro k offset hfield
    rw [readWord_eq (by omega), ← hmessage, Endian.read_take (by omega)]
  rw [replyBody, hread 4 8 (by omega), isAck]
  by_cases hseq : e.read 4 message 8 = seq
  · rw [decide_eq_true hseq, Bool.true_and]
    refine (if_neg (not_not.mpr hseq)).trans ?_
    rw [hread 2 4 (by omega)]
    by_cases htype : e.read 2 message 4 = nlmsgError
    · rw [decide_eq_true htype, Bool.true_and]
      refine (if_pos htype).trans ?_
      rw [readLen_eq (by omega), ← hlength]
      by_cases hcovers : nlmsgerrLength ≤ message.length
      · rw [decide_eq_true hcovers]
        refine (if_pos hcovers).trans ?_
        rw [hread 4 16 (Nat.le_trans (by decide) hcovers)]
        rfl
      · rw [decide_eq_false hcovers]
        exact if_neg hcovers
    · rw [decide_eq_false htype]
      exact if_neg htype
  · rw [decide_eq_false hseq]
    exact if_pos hseq

/-- The walk finds the first acknowledgment, for there is fuel for every message. -/
theorem replyLoop_eq (hlt : data.length + 3 < 2 ^ 32) (hfuel : data.length - h < 16 * fuel) :
    replyLoop e seq data fuel h ((data.length : Int) - h) =
      .ok (.of (acknowledgment e seq (data.drop h))) := by
  induction fuel generalizing h with
  | zero => omega
  | succ fuel ih =>
    rw [replyLoop, nlmsgOkAt_eq, acknowledgment]
    by_cases hok : nlmsgOk e (data.drop h) = true
    · have hlt' : (data.drop h).length + 3 < 2 ^ 32 := by
        rw [List.length_drop]
        omega
      have hrest := length_drop_nlmsgAlign hlt' hok
      have hheader := (nlmsgOk_iff.mp hok).1
      simp only [List.length_drop] at hrest hheader
      rw [messages_of_ok hlt' hok, List.find?_cons, hok]
      show (replyBody e seq data h >>= _) = _
      rw [replyBody_eq hok rfl]
      cases isAck e seq ((data.drop h).take (e.read 4 (data.drop h) 0)) with
      | true => rfl
      | false =>
        show (readWord e 4 data h >>= _) = _
        rw [readLen_eq (by omega), List.drop_drop]
        show replyLoop e seq data fuel (h + nlmsgAlign (e.read 4 (data.drop h) 0))
          ((data.length : Int) - h - nlmsgAlign (e.read 4 (data.drop h) 0)) = _
        generalize nlmsgAlign (e.read 4 (data.drop h) 0) = step at hrest ⊢
        have hgot : (data.length : Int) - h - step = (data.length : Int) - (h + step : Nat) := by
          omega
        rw [hgot]
        exact ih (by omega)
    · rw [messages_of_not_ok hok, Bool.eq_false_iff.mpr hok]
      rfl

/-- A message takes 16 bytes of at most 8192. -/
theorem Reception.replyLoop_eq (reply : Reception) (hfuel : 512 < fuel) :
    replyLoop e seq reply.data fuel 0 reply.data.length =
      .ok (.of (acknowledgment e seq reply.data)) := by
  have hlength := reply.length_le
  have hwalk : replyLoop e seq reply.data fuel 0 ((reply.data.length : Int) - (0 : Nat)) = _ :=
    Softgre.replyLoop_eq (by omega) (by omega)
  rwa [Nat.cast_zero, Int.sub_zero, List.drop_zero] at hwalk

theorem receiveLoop_eq (hfuel : 512 < fuel) (received : List Received) :
    receiveLoop e seq fuel received = .ok (.of (received.findSome? (Received.settles e seq))) := by
  induction received with
  | nil => rfl
  | cons first rest ih =>
    rw [List.findSome?_cons]
    cases first with
    | failed errno =>
      rw [receiveLoop, Received.settles]
      by_cases hintr : errno = EINTR
      · rw [if_pos hintr, if_pos hintr, ih]
      · rw [if_neg hintr, if_neg hintr]
        rfl
    | datagram nlPid reply =>
      rw [receiveLoop, Received.settles]
      by_cases hkernel : nlPid = 0
      · rw [if_neg (not_not.mpr hkernel), if_pos hkernel, reply.replyLoop_eq hfuel]
        cases acknowledgment e seq reply.data with
        | none => exact ih
        | some ack => rfl
      · rw [if_pos hkernel, if_neg hkernel, ih]

end Exact

/-- For every datagram the walk ends, reads what was received only, and comes to the
    first acknowledgment among the messages; `link_send` waits until there is one. -/
theorem reply_walk_exact (e : Endian) (req : LinkRequest) (fuel : Nat) (hfuel : 512 < fuel) :
    (∀ reply : Reception,
      replyLoop e (req.nlmsgSeq e) reply.data fuel 0 reply.data.length =
        .ok (.of (acknowledgment e (req.nlmsgSeq e) reply.data))) ∧
    ∀ received : List Received,
      receiveLoop e (req.nlmsgSeq e) fuel received =
        .ok (.of (received.findSome? (Received.settles e (req.nlmsgSeq e)))) :=
  ⟨fun reply => reply.replyLoop_eq hfuel, receiveLoop_eq hfuel⟩

/-- A message of 17 bytes to another request, one that is no acknowledgment, then
    `-EEXIST`, and a header that promises more than was received. -/
def Sample.reply : Reception where
  data :=
    [17, 0, 0, 0, 2, 0, 0, 0, 9, 0, 0, 0, 0, 0, 0, 0, 5, 0, 0, 0] ++
      [16, 0, 0, 0, 3, 0, 0, 0, 1, 0, 0, 0, 0, 0, 0, 0] ++
      [36, 0, 0, 0, 2, 0, 0, 0, 1, 0, 0, 0, 0, 0, 0, 0, 239, 255, 255, 255] ++
      List.replicate 16 0 ++ [255, 255, 255, 255, 2, 0, 0, 0, 1, 0, 0, 0, 0, 0, 0, 0]
  length_le := by decide

theorem reply_walk_exact_exists :
    receiveLoop .little ((linkRequestInit .little 16 1536 0).nlmsgSeq .little) 513
      [.failed EINTR, .datagram 7 Sample.reply, .datagram 0 Sample.reply] =
        .ok (.decided (.failure 17)) := by
  have hseq : (linkRequestInit .little 16 1536 0).nlmsgSeq .little = 1 := by decide +kernel
  have hrun := (reply_walk_exact .little (linkRequestInit .little 16 1536 0) 513 (by decide)).2
    [.failed EINTR, .datagram 7 Sample.reply, .datagram 0 Sample.reply]
  rw [hrun, hseq]
  decide +kernel

end Softgre
