-- SUMMARY: Building netlink requests as `iface_gre.c` does, and what the kernel reads out of them.
import Softgre.Base.Checked
import Softgre.Base.Netlink
import Softgre.Host.World
import Softgre.Payload

/-!
# Netlink requests

A request is the memory of a `struct link_request`, and writes outside of it are
faults. While attributes are added the request is a `Draft`: a tree with some
nests still open, whose bytes are those of the request.
-/

namespace Softgre

open Base

-- ---------------------------------------------------------------------------
-- The request
-- ---------------------------------------------------------------------------

def EMSGSIZE : Errno := 90

/-- `struct link_request`: both headers, of 16 bytes each, and the attributes. -/
def sizeofLinkRequest : Nat := 16 + 16 + 1024

/-- `NLMSG_LENGTH(sizeof(struct ifinfomsg))`. -/
def attrsStart : Nat := 32

structure LinkRequest where
  bytes : List UInt8
  length_bytes : bytes.length = sizeofLinkRequest

theorem length_replace {bytes new : List UInt8} {offset size : Nat} (hlength : bytes.length = size)
    (h : offset + new.length ≤ size) :
    (bytes.take offset ++ new ++ bytes.drop (offset + new.length)).length = size := by
  simp only [List.length_append, List.length_take, List.length_drop]
  omega

def LinkRequest.write (req : LinkRequest) (offset : Nat) (new : List UInt8) :
    Except Fault LinkRequest :=
  if h : offset + new.length ≤ sizeofLinkRequest then
    .ok ⟨req.bytes.take offset ++ new ++ req.bytes.drop (offset + new.length),
      length_replace req.length_bytes h⟩
  else .error (.outOfBounds (offset + new.length))

/-- `memcpy`, if there is anything to copy. -/
def LinkRequest.copy (req : LinkRequest) (offset : Nat) (data : List UInt8) :
    Except Fault LinkRequest :=
  if data.length ≠ 0 then req.write offset data else .ok req

section Request

variable (e : Endian)

/-- `header.nlmsg_len`. -/
def LinkRequest.nlmsgLen (req : LinkRequest) : Nat := e.read 4 req.bytes 0

/-- The header, with `NLM_F_REQUEST` and `NLM_F_ACK`, and the interface with its
    index; everything else is cleared. -/
def linkRequestInit (type flags index : Nat) : LinkRequest where
  bytes :=
    e.bytes 4 attrsStart ++
      (e.bytes 2 type ++ e.bytes 2 (1 ||| 4 ||| flags) ++ e.bytes 4 1 ++ e.bytes 4 0 ++
        [0, 0] ++ e.bytes 2 0 ++ e.bytes 4 index ++ e.bytes 4 0 ++ e.bytes 4 0) ++
      List.replicate 1024 0
  length_bytes := by
    simp only [List.length_append, Endian.length_bytes, List.length_cons, List.length_nil,
      List.length_replicate]
    rfl

/-- `link_attr`, with the `len` bytes at `data`. It returns `errno` if it fails. -/
def linkAttr (req : LinkRequest) (type : Nat) (data : List UInt8) :
    Except Fault (LinkRequest × Option Errno) := do
  let start := nlmsgAlign (req.nlmsgLen e)
  let size := rtaLength data.length
  if start + rtaAlign size > sizeofLinkRequest then return (req, some EMSGSIZE)
  let req ← req.write (start + 2) (e.bytes 2 type)
  let req ← req.write start (e.bytes 2 size)
  let req ← req.copy (start + 4) data
  let req ← req.write 0 (e.bytes 4 (start + rtaAlign size))
  return (req, none)

/-- `link_nest`. A pointer into the request is its offset. -/
def linkNest (req : LinkRequest) (type : Nat) :
    Except Fault (LinkRequest × Except Errno Nat) := do
  let attr := nlmsgAlign (req.nlmsgLen e)
  match ← linkAttr e req (type ||| nlaFNested) [] with
  | (req, some err) => return (req, .error err)
  | (req, none) => return (req, .ok attr)

def linkNestEnd (req : LinkRequest) (attr : Nat) : Except Fault LinkRequest :=
  req.write attr (e.bytes 2 (((req.nlmsgLen e : Int) - attr) % 2 ^ 16).toNat)

end Request

-- ---------------------------------------------------------------------------
-- Sequences of calls
-- ---------------------------------------------------------------------------

/-- A nest is ended by the matching call: the pointer is that of the innermost nest
    that is open. -/
inductive LinkCall where
  | attr (type : Nat) (data : List UInt8)
  | nest (type : Nat)
  | nestEnd
deriving DecidableEq, Repr

/-- The request, and the pointers of the nests that are open, the innermost first. -/
structure Building where
  req : LinkRequest
  pointers : List Nat

section Calls

variable (e : Endian)

/-- The state after a call, and `errno` if it fails. -/
def Building.call (b : Building) : LinkCall → Except Fault (Building × Option Errno)
  | .attr type data => do
    let (req, err) ← linkAttr e b.req type data
    return ({ b with req }, err)
  | .nest type => do
    match ← linkNest e b.req type with
    | (req, .error err) => return ({ b with req }, some err)
    | (req, .ok attr) => return (⟨req, attr :: b.pointers⟩, none)
  | .nestEnd =>
    match b.pointers with
    | [] => return (b, none)
    | attr :: pointers => do
      let req ← linkNestEnd e b.req attr
      return (⟨req, pointers⟩, none)

/-- Calls one after the other, each with its outcome. -/
def build : List LinkCall → Building → Except Fault (Building × List (LinkCall × Option Errno))
  | [], b => return (b, [])
  | c :: rest, b => do
    let (b, err) ← b.call e c
    let (b, outcomes) ← build rest b
    return (b, (c, err) :: outcomes)

end Calls

-- ---------------------------------------------------------------------------
-- What was added
-- ---------------------------------------------------------------------------

/-- A tree of attributes of which some nests are still open. -/
inductive Draft where
  | top (done : Attrs)
  | inside (outer : Draft) (type : Nat) (done : Attrs)
deriving DecidableEq, Repr

def Draft.add : Draft → Attrs → Draft
  | .top done, attrs => .top (done.append attrs)
  | .inside outer type done, attrs => .inside outer type (done.append attrs)

/-- What a call that succeeds adds. -/
def Draft.made : Draft → LinkCall → Draft
  | d, .attr type data => d.add (.data type data .nil)
  | d, .nest type => .inside d type .nil
  | .inside outer type done, .nestEnd => outer.add (.nested type done .nil)
  | .top done, .nestEnd => .top done

/-- What the calls that succeeded have added. -/
def drafted (outcomes : List (LinkCall × Option Errno)) (d : Draft) : Draft :=
  outcomes.foldl (fun d o => if o.2 = none then d.made o.1 else d) d

-- ---------------------------------------------------------------------------
-- The layout of a request
-- ---------------------------------------------------------------------------

section Layout

variable {e : Endian} {req : LinkRequest} {before old new after body data : List UInt8}
  {offset type : Nat}

/-- A write over as many bytes. -/
theorem LinkRequest.write_split (new : List UInt8) (hbytes : req.bytes = before ++ (old ++ after))
    (hoffset : before.length = offset) (hlength : old.length = new.length) :
    ∃ req', req.write offset new = .ok req' ∧ req'.bytes = before ++ (new ++ after) := by
  have hsize := req.length_bytes
  rw [hbytes, List.length_append, List.length_append] at hsize
  have hfits : offset + new.length ≤ sizeofLinkRequest := by omega
  have hbefore : req.bytes.take offset = before := by
    rw [hbytes]
    exact List.take_left' hoffset
  have hafter : req.bytes.drop (offset + new.length) = after := by
    rw [hbytes, ← List.append_assoc]
    exact List.drop_left' (by rw [List.length_append]; omega)
  rw [LinkRequest.write, dif_pos hfits]
  refine ⟨_, rfl, ?_⟩
  show req.bytes.take offset ++ new ++ req.bytes.drop (offset + new.length) = _
  rw [hbefore, hafter, List.append_assoc]

/-- `memcpy` into memory that is cleared. -/
theorem LinkRequest.copy_split (data : List UInt8)
    (hbytes : req.bytes = before ++ (List.replicate data.length 0 ++ after))
    (hoffset : before.length = offset) :
    ∃ req', req.copy offset data = .ok req' ∧ req'.bytes = before ++ (data ++ after) := by
  rw [LinkRequest.copy]
  split
  · exact req.write_split data hbytes hoffset List.length_replicate
  · next hempty =>
    have hnil : data = [] := List.length_eq_zero_iff.mp (not_not.mp hempty)
    subst hnil
    exact ⟨req, rfl, hbytes⟩

/-- The three writes of an attribute, its type first, into memory that is cleared. -/
theorem LinkRequest.attr_split (e : Endian) (type : Nat) (data : List UInt8)
    (hbytes : req.bytes = before ++ (List.replicate (4 + data.length) 0 ++ after))
    (hoffset : before.length = offset) :
    ∃ req₁ req₂ req₃, req.write (offset + 2) (e.bytes 2 type) = .ok req₁ ∧
      req₁.write offset (e.bytes 2 (4 + data.length)) = .ok req₂ ∧
      req₂.copy (offset + 4) data = .ok req₃ ∧
      req₃.bytes = before ++ (rtattr e (4 + data.length) type ++ data ++ after) := by
  have hcut : List.replicate (4 + data.length) (0 : UInt8) =
      List.replicate 2 0 ++ (List.replicate 2 0 ++ List.replicate data.length 0) := by
    rw [← List.replicate_add, ← List.replicate_add, ← Nat.add_assoc]
  rw [hcut, List.append_assoc, List.append_assoc] at hbytes
  obtain ⟨req₁, hwrite₁, hbytes₁⟩ := req.write_split (e.bytes 2 type)
    (hbytes.trans (List.append_assoc before _ _).symm)
    (by rw [List.length_append, List.length_replicate, hoffset])
    (by rw [List.length_replicate, e.length_bytes])
  obtain ⟨req₂, hwrite₂, hbytes₂⟩ := req₁.write_split (e.bytes 2 (4 + data.length))
    (hbytes₁.trans (List.append_assoc before _ _)) hoffset
    (by rw [List.length_replicate, e.length_bytes])
  have hheader : req₂.bytes = (before ++ rtattr e (4 + data.length) type) ++
      (List.replicate data.length 0 ++ after) := by
    rw [hbytes₂, rtattr]
    simp only [List.append_assoc]
  obtain ⟨req₃, hcopy, hbytes₃⟩ := req₂.copy_split data hheader
    (by rw [List.length_append, length_rtattr, hoffset])
  refine ⟨req₁, req₂, req₃, hwrite₁, hwrite₂, hcopy, ?_⟩
  rw [hbytes₃]
  simp only [List.append_assoc]

/-- The attributes of the request are `body` so far, and the memory behind them is
    cleared. -/
structure Layout (e : Endian) (req : LinkRequest) (body : List UInt8) : Prop where
  bytes : ∃ head, head.length = 28 ∧ req.bytes = e.bytes 4 (attrsStart + body.length) ++ head ++
    body ++ List.replicate (1024 - body.length) 0
  room : body.length ≤ 1024
  aligned : 4 ∣ body.length

theorem Layout.nlmsgLen_eq (h : Layout e req body) :
    req.nlmsgLen e = attrsStart + body.length := by
  obtain ⟨head, -, hbytes⟩ := h.bytes
  have hroom := h.room
  rw [LinkRequest.nlmsgLen, hbytes, List.append_assoc, List.append_assoc,
    ← List.nil_append (e.bytes 4 _)]
  exact Endian.read_append rfl (by rw [attrsStart]; omega)

theorem Layout.start_eq (h : Layout e req body) :
    nlmsgAlign (req.nlmsgLen e) = attrsStart + body.length := by
  have hroom := h.room
  have haligned := h.aligned
  rw [h.nlmsgLen_eq, attrsStart]
  exact nlmsgAlign_of_dvd (by omega) (by omega)

variable (e) in
theorem linkRequestInit_layout (type flags index : Nat) :
    Layout e (linkRequestInit e type flags index) [] where
  bytes := by
    refine ⟨_, ?_, by rw [List.append_nil]; rfl⟩
    simp only [List.length_append, Endian.length_bytes, List.length_cons, List.length_nil]
  room := Nat.zero_le _
  aligned := Nat.dvd_zero 4

/-- An attribute that does not fit. -/
theorem linkAttr_full (h : Layout e req body) (type : Nat)
    (hfull : sizeofLinkRequest < attrsStart + body.length + rtaAlign (rtaLength data.length)) :
    linkAttr e req type data = .ok (req, some EMSGSIZE) := by
  rw [linkAttr, h.start_eq]
  exact if_pos hfull

/-- An attribute that fits is written behind the others. -/
theorem linkAttr_fits (h : Layout e req body) (type : Nat)
    (hfits : attrsStart + body.length + (data.length + 7) / 4 * 4 ≤ sizeofLinkRequest) :
    ∃ req', linkAttr e req type data = .ok (req', none) ∧
      Layout e req' (body ++ (rtattr e (rtaLength data.length) type ++ data ++
        padding (rtaLength data.length))) := by
  have hroom := h.room
  have haligned := h.aligned
  have hstart := h.start_eq
  obtain ⟨head, hhead, hbytes⟩ := h.bytes
  rw [sizeofLinkRequest, attrsStart] at hfits
  have hsize : rtaLength data.length = 4 + data.length := rtaLength_eq (by omega)
  have hspace : rtaAlign (4 + data.length) = (data.length + 7) / 4 * 4 := by
    rw [rtaAlign_eq (by omega)]
    omega
  have hpadding := length_padding data.length (by omega)
  rw [hsize] at hpadding ⊢
  generalize hpad : padding (4 + data.length) = pad at hpadding ⊢
  have hcleared : pad = List.replicate pad.length 0 := by
    rw [← hpad, padding, List.length_replicate]
  -- the cleared memory, cut where the writes go
  obtain ⟨rest, hrest⟩ : ∃ rest, 1024 - body.length = (4 + data.length) + (pad.length + rest) :=
    ⟨1024 - body.length - (data.length + 7) / 4 * 4, by omega⟩
  rw [hrest, List.replicate_add (4 + data.length), List.replicate_add pad.length, ← hcleared]
    at hbytes
  generalize hfront : e.bytes 4 (attrsStart + body.length) ++ head ++ body = front at hbytes
  have hfrontLength : front.length = attrsStart + body.length := by
    rw [← hfront, List.length_append, List.length_append, e.length_bytes, hhead, attrsStart]
  obtain ⟨req₁, req₂, req₃, hwrite₁, hwrite₂, hwrite₃, hbytes₃⟩ :=
    req.attr_split e type data hbytes hfrontLength
  have hwhole : req₃.bytes = [] ++ (e.bytes 4 (attrsStart + body.length) ++ (head ++ body ++
      (rtattr e (4 + data.length) type ++ data ++ pad) ++ List.replicate rest 0)) := by
    rw [hbytes₃, ← hfront]
    simp only [List.append_assoc, List.nil_append]
  obtain ⟨req₄, hwrite₄, hbytes₄⟩ := req₃.write_split
    (e.bytes 4 (attrsStart + body.length + (data.length + 7) / 4 * 4)) hwhole List.length_nil
    (by rw [e.length_bytes, e.length_bytes])
  have hlength : (body ++ (rtattr e (4 + data.length) type ++ data ++ pad)).length =
      body.length + (data.length + 7) / 4 * 4 := by
    simp only [List.length_append, length_rtattr]
    omega
  refine ⟨req₄, ?_, ⟨⟨head, hhead, ?_⟩, ?_, ?_⟩⟩
  · simp only [linkAttr, hstart, hsize, hspace]
    rw [if_neg (by rw [sizeofLinkRequest, attrsStart]; omega)]
    simp only [hwrite₁, hwrite₂, hwrite₃, hwrite₄, bind, Except.bind]
    rfl
  · rw [hbytes₄, hlength, show 1024 - (body.length + (data.length + 7) / 4 * 4) = rest by omega,
      ← Nat.add_assoc]
    simp only [List.append_assoc, List.nil_append]
  · rw [hlength]
    omega
  · rw [hlength]
    omega

/-- The end of a nest: the length in its header is that of all that was added. -/
theorem linkNestEnd_layout {body children : List UInt8}
    (h : Layout e req (body ++ (rtattr e 4 type ++ children))) :
    ∃ req', linkNestEnd e req (attrsStart + body.length) = .ok req' ∧
      Layout e req' (body ++ (rtattr e (4 + children.length) type ++ children)) := by
  have hroom := h.room
  have haligned := h.aligned
  have hlen := h.nlmsgLen_eq
  obtain ⟨head, hhead, hbytes⟩ := h.bytes
  have hlength : ∀ n, (body ++ (rtattr e n type ++ children)).length =
      body.length + (4 + children.length) := fun n => by
    rw [List.length_append, List.length_append, length_rtattr]
  rw [hlength] at hroom haligned hlen hbytes
  have hwhole : req.bytes = (e.bytes 4 (attrsStart + (body.length + (4 + children.length))) ++ head ++
      body) ++ (e.bytes 2 4 ++ (e.bytes 2 type ++ children ++
        List.replicate (1024 - (body.length + (4 + children.length))) 0)) := by
    rw [hbytes, rtattr]
    simp only [List.append_assoc]
  obtain ⟨req', hwrite, hbytes'⟩ := req.write_split (e.bytes 2 (4 + children.length)) hwhole
    (by rw [List.length_append, List.length_append, e.length_bytes, hhead])
    (by rw [e.length_bytes, e.length_bytes])
  refine ⟨req', ?_, ⟨⟨head, hhead, ?_⟩, ?_, ?_⟩⟩
  · have hdiff : (((attrsStart + (body.length + (4 + children.length)) : Nat) : Int) -
        (attrsStart + body.length : Nat)) % 2 ^ 16 = (4 + children.length : Nat) := by
      omega
    rw [linkNestEnd, hlen, hdiff, Int.toNat_natCast]
    exact hwrite
  · rw [hbytes', hlength, rtattr]
    simp only [List.append_assoc]
  · rw [hlength]
    exact hroom
  · rw [hlength]
    exact haligned

end Layout

-- ---------------------------------------------------------------------------
-- A request and its draft
-- ---------------------------------------------------------------------------

section Built

variable {e : Endian}

/-- An open nest has a header for no attributes yet. -/
def Draft.bytes (e : Endian) : Draft → List UInt8
  | .top done => done.encode e
  | .inside outer type done =>
    outer.bytes e ++ (rtattr e 4 (type ||| nlaFNested) ++ done.encode e)

def Draft.pointers (e : Endian) : Draft → List Nat
  | .top _ => []
  | .inside outer _ _ => (attrsStart + (outer.bytes e).length) :: outer.pointers e

def Draft.TypesLt : Draft → Prop
  | .top done => done.TypesLt
  | .inside outer type done => outer.TypesLt ∧ type < 2 ^ 14 ∧ done.TypesLt

theorem Draft.bytes_add (d : Draft) (attrs : Attrs) :
    (d.add attrs).bytes e = d.bytes e ++ attrs.encode e := by
  cases d with
  | top done => exact Attrs.encode_append done attrs
  | inside outer type done =>
    rw [add, bytes, bytes, Attrs.encode_append]
    simp only [List.append_assoc]

theorem Draft.pointers_add (d : Draft) (attrs : Attrs) :
    (d.add attrs).pointers e = d.pointers e := by
  cases d with
  | top | inside => rfl

theorem Draft.TypesLt.add {d : Draft} {attrs : Attrs} (h : d.TypesLt) (hattrs : attrs.TypesLt) :
    (d.add attrs).TypesLt := by
  cases d with
  | top done => exact Attrs.TypesLt.append h hattrs
  | inside outer type done => exact ⟨h.1, h.2.1, h.2.2.append hattrs⟩

/-- The request holds what was drafted. -/
structure Built (e : Endian) (b : Building) (d : Draft) : Prop where
  layout : Layout e b.req (d.bytes e)
  pointers : b.pointers = d.pointers e
  types : d.TypesLt

variable {b b' : Building} {d : Draft} {err : Option Errno}

/-- The types a caller may use, and lengths for which `len + 7` does not wrap. -/
def LinkCall.Admissible : LinkCall → Prop
  | .attr type data => type < 2 ^ 14 ∧ data.length + 7 < 2 ^ 64
  | .nest type => type < 2 ^ 14
  | .nestEnd => True

/-- The length of an attribute fits in 32 bits, or what `RTA_ALIGN` leaves of it is
    more than there is room for. -/
def LinkCall.Fits (e : Endian) (b : Building) : LinkCall → Prop
  | .attr _ data => data.length + 7 < 2 ^ 32 ∨
    sizeofLinkRequest < b.req.nlmsgLen e + (data.length + 7) % 2 ^ 32 / 4 * 4
  | .nest _ | .nestEnd => True

/-- What a call is to do: succeed and be drafted, or fail and change nothing. -/
def Building.Does (e : Endian) (b : Building) (d : Draft) (c : LinkCall) : Prop :=
  ∃ b' err, b.call e c = .ok (b', err) ∧
    ((err = none ∧ Built e b' (d.made c)) ∨ (err = some EMSGSIZE ∧ b' = b))

theorem rtaAlign_rtaLength {len : Nat} (h : len + 7 < 2 ^ 64) :
    rtaAlign (rtaLength len) = (len + 7) % 2 ^ 32 / 4 * 4 := by
  rw [rtaLength_eq h, rtaAlign, and_alignMask]
  omega

theorem Built.linkAttr (h : Built e b d) {type : Nat} {data : List UInt8}
    (hlen : data.length + 7 < 2 ^ 64) (hfits : (LinkCall.attr type data).Fits e b) :
    Softgre.linkAttr e b.req type data = .ok (b.req, some EMSGSIZE) ∨
      ∃ req', Softgre.linkAttr e b.req type data = .ok (req', none) ∧
        Layout e req' (d.bytes e ++ (rtattr e (rtaLength data.length) type ++ data ++
          padding (rtaLength data.length))) := by
  rw [LinkCall.Fits, h.layout.nlmsgLen_eq] at hfits
  by_cases hfull : sizeofLinkRequest <
      attrsStart + (d.bytes e).length + rtaAlign (rtaLength data.length)
  · exact .inl (linkAttr_full h.layout type hfull)
  · rw [rtaAlign_rtaLength hlen] at hfull
    have hsmall := hfits.resolve_right hfull
    exact .inr (linkAttr_fits h.layout type (by omega))

/-- A call for which the lengths fit. -/
theorem Built.does (h : Built e b d) {c : LinkCall} (hc : c.Admissible) (hfits : c.Fits e b) :
    b.Does e d c := by
  cases c with
  | attr type data =>
    obtain ⟨htype, hlen⟩ := hc
    rcases h.linkAttr hlen hfits with hfull | ⟨req', hattr, hlayout⟩
    · refine ⟨b, some EMSGSIZE, ?_, .inr ⟨rfl, rfl⟩⟩
      rw [Building.call, hfull]
      rfl
    · refine ⟨⟨req', b.pointers⟩, none, ?_, .inl ⟨rfl, ⟨?_, ?_, ?_⟩⟩⟩
      · rw [Building.call, hattr]
        rfl
      · rw [Draft.made, Draft.bytes_add, Attrs.encode, Attrs.encode, List.append_nil]
        exact hlayout
      · rw [Draft.made, Draft.pointers_add]
        exact h.pointers
      · exact h.types.add ⟨htype, trivial⟩
  | nest type =>
    have hstart := h.layout.start_eq
    have hsmall : (LinkCall.attr (type ||| nlaFNested) []).Fits e b := .inl (by decide)
    rcases h.linkAttr (by decide) hsmall with hfull | ⟨req', hattr, hlayout⟩
    · refine ⟨b, some EMSGSIZE, ?_, .inr ⟨rfl, rfl⟩⟩
      rw [Building.call, linkNest, hfull]
      rfl
    · refine ⟨⟨req', (attrsStart + (d.bytes e).length) :: b.pointers⟩, none, ?_,
        .inl ⟨rfl, ⟨?_, ?_, ?_⟩⟩⟩
      · rw [Building.call, linkNest, hattr, hstart]
        rfl
      · have hempty : padding (rtaLength ([] : List UInt8).length) = [] := rfl
        rw [hempty, List.append_nil] at hlayout
        exact hlayout
      · rw [h.pointers]
        rfl
      · exact ⟨h.types, hc, trivial⟩
  | nestEnd =>
    cases d with
    | top done =>
      refine ⟨b, none, ?_, .inl ⟨rfl, h⟩⟩
      rw [Building.call, h.pointers]
      rfl
    | inside outer type done =>
      obtain ⟨houter, htype, hdone⟩ := h.types
      have hroom := h.layout.room
      rw [Draft.bytes, List.length_append, List.length_append, length_rtattr] at hroom
      obtain ⟨req', hend, hlayout⟩ := linkNestEnd_layout h.layout
      refine ⟨⟨req', outer.pointers e⟩, none, ?_, .inl ⟨rfl, ⟨?_, ?_, ?_⟩⟩⟩
      · rw [Building.call, h.pointers]
        show (linkNestEnd e b.req _ >>= _) = _
        rw [hend]
        rfl
      · rw [Draft.made, Draft.bytes_add, Attrs.encode, Attrs.encode, List.append_nil,
          rtaLength_eq (by omega)]
        exact hlayout
      · exact (Draft.pointers_add outer _).symm
      · exact houter.add ⟨htype, hdone, trivial⟩

/-- Otherwise the length check is passed and `memcpy` leaves the request. -/
theorem Built.overflows (h : Built e b d) {c : LinkCall} (hc : c.Admissible)
    (hfits : ¬ c.Fits e b) (r : Building × Option Errno) : b.call e c ≠ .ok r := by
  cases c with
  | attr type data =>
    obtain ⟨-, hlen⟩ := hc
    rw [LinkCall.Fits, h.layout.nlmsgLen_eq, not_or] at hfits
    intro hcall
    obtain ⟨r', hattr, -⟩ := bind_eq_ok_iff.mp hcall
    simp only [Softgre.linkAttr, h.layout.start_eq, rtaAlign_rtaLength hlen] at hattr
    rw [if_neg hfits.2] at hattr
    obtain ⟨req₁, -, hattr⟩ := bind_eq_ok_iff.mp hattr
    obtain ⟨req₂, -, hattr⟩ := bind_eq_ok_iff.mp hattr
    obtain ⟨req₃, hcopy, -⟩ := bind_eq_ok_iff.mp hattr
    rw [LinkRequest.copy, if_pos (by omega), LinkRequest.write,
      dif_neg (by rw [sizeofLinkRequest]; omega)] at hcopy
    cases hcopy
  | nest | nestEnd => exact absurd trivial hfits

theorem linkAttr_failed {req req' : LinkRequest} {type : Nat} {data : List UInt8} {n : Errno}
    (h : linkAttr e req type data = .ok (req', some n)) : n = EMSGSIZE ∧ req' = req := by
  rw [linkAttr] at h
  split at h
  · cases h
    exact ⟨rfl, rfl⟩
  · obtain ⟨req₁, -, h⟩ := bind_eq_ok_iff.mp h
    obtain ⟨req₂, -, h⟩ := bind_eq_ok_iff.mp h
    obtain ⟨req₃, -, h⟩ := bind_eq_ok_iff.mp h
    obtain ⟨req₄, -, h⟩ := bind_eq_ok_iff.mp h
    cases h

/-- A call that fails. -/
theorem Building.call_failed {c : LinkCall} {n : Errno} (h : b.call e c = .ok (b', some n)) :
    n = EMSGSIZE ∧ b' = b := by
  cases c with
  | attr type data =>
    obtain ⟨⟨req', err⟩, hattr, heq⟩ := bind_eq_ok_iff.mp h
    cases heq
    obtain ⟨rfl, rfl⟩ := linkAttr_failed hattr
    exact ⟨rfl, rfl⟩
  | nest type =>
    obtain ⟨⟨req', ret⟩, hnest, heq⟩ := bind_eq_ok_iff.mp h
    obtain ⟨⟨req'', err⟩, hattr, hret⟩ := bind_eq_ok_iff.mp hnest
    cases err with
    | none =>
      cases hret
      cases heq
    | some err =>
      cases hret
      cases heq
      obtain ⟨rfl, rfl⟩ := linkAttr_failed hattr
      exact ⟨rfl, rfl⟩
  | nestEnd =>
    rw [Building.call] at h
    split at h
    · cases h
    · obtain ⟨req', -, heq⟩ := bind_eq_ok_iff.mp h
      cases heq

-- ---------------------------------------------------------------------------
-- Runs
-- ---------------------------------------------------------------------------

/-- Along the run, every call fits. -/
def Fitting (e : Endian) : List LinkCall → Building → Prop
  | [], _ => True
  | c :: rest, b => c.Fits e b ∧ ∀ b' err, b.call e c = .ok (b', err) → Fitting e rest b'

theorem build_cons {c : LinkCall} {rest : List LinkCall}
    {r : Building × List (LinkCall × Option Errno)} (h : build e (c :: rest) b = .ok r) :
    ∃ b' err b'' outcomes, b.call e c = .ok (b', err) ∧ build e rest b' = .ok (b'', outcomes) ∧
      r = (b'', (c, err) :: outcomes) := by
  obtain ⟨⟨b', err⟩, hcall, h⟩ := bind_eq_ok_iff.mp h
  obtain ⟨⟨b'', outcomes⟩, hrest, h⟩ := bind_eq_ok_iff.mp h
  cases h
  exact ⟨b', err, b'', outcomes, hcall, hrest, rfl⟩

theorem Built.build (h : Built e b d) {calls : List LinkCall}
    (hcalls : ∀ c ∈ calls, c.Admissible) (hfitting : Fitting e calls b) :
    ∃ b' outcomes, build e calls b = .ok (b', outcomes) ∧ Built e b' (drafted outcomes d) := by
  induction calls generalizing b d with
  | nil => exact ⟨b, [], rfl, h⟩
  | cons c rest ih =>
    obtain ⟨hc, hrest⟩ := List.forall_mem_cons.mp hcalls
    obtain ⟨hfits, hfitting⟩ := hfitting
    obtain ⟨b₁, err, hcall, hdone⟩ := h.does hc hfits
    have hbuilt₁ : Built e b₁ (if err = none then d.made c else d) := by
      rcases hdone with ⟨rfl, hbuilt⟩ | ⟨rfl, rfl⟩
      · exact hbuilt
      · exact h
    obtain ⟨b', outcomes, hbuild, hbuilt'⟩ := ih hbuilt₁ hrest (hfitting b₁ err hcall)
    refine ⟨b', (c, err) :: outcomes, ?_, hbuilt'⟩
    rw [Softgre.build, hcall]
    show (Softgre.build e rest b₁ >>= _) = _
    rw [hbuild]
    rfl

theorem Built.fitting (h : Built e b d) {calls : List LinkCall}
    (hcalls : ∀ c ∈ calls, c.Admissible) {r : Building × List (LinkCall × Option Errno)}
    (hbuild : Softgre.build e calls b = .ok r) : Fitting e calls b := by
  induction calls generalizing b d r with
  | nil => trivial
  | cons c rest ih =>
    obtain ⟨hc, hrest⟩ := List.forall_mem_cons.mp hcalls
    obtain ⟨b₁, err, b₂, outcomes, hcall, hbuild', -⟩ := build_cons hbuild
    have hfits : c.Fits e b := by
      by_contra hnot
      exact h.overflows hc hnot _ hcall
    refine ⟨hfits, fun b' err' hcall' => ?_⟩
    cases hcall.symm.trans hcall'
    obtain ⟨b'', err'', hcall'', hdone⟩ := h.does hc hfits
    cases hcall.symm.trans hcall''
    rcases hdone with ⟨rfl, hbuilt⟩ | ⟨rfl, rfl⟩
    · exact ih hbuilt hrest hbuild'
    · exact ih h hrest hbuild'

theorem Fitting.take {calls : List LinkCall} (h : Fitting e calls b) (n : Nat) :
    Fitting e (calls.take n) b := by
  induction calls generalizing b n with
  | nil => rw [List.take_nil]; trivial
  | cons c rest ih =>
    cases n with
    | zero => trivial
    | succ n => exact ⟨h.1, fun b' err hcall => ih (h.2 b' err hcall) n⟩

end Built

-- ---------------------------------------------------------------------------
-- Round trips
-- ---------------------------------------------------------------------------

/-- The attributes of a request, from the end of `ifinfomsg` to `nlmsg_len`. -/
def LinkRequest.attrBytes (e : Endian) (req : LinkRequest) : List UInt8 :=
  (req.bytes.take (req.nlmsgLen e)).drop attrsStart

/-- What is to hold of a request after some calls. -/
structure Encodes (e : Endian) (b : Building) (outcomes : List (LinkCall × Option Errno)) :
    Prop where
  aligned : 4 ∣ b.req.nlmsgLen e
  bounded : b.req.nlmsgLen e ≤ sizeofLinkRequest
  /-- A call that fails now returns `EMSGSIZE`, and changes nothing. -/
  failing : ∀ c b' err, b.call e c = .ok (b', some err) → err = EMSGSIZE ∧ b'.req = b.req
  /-- Without an open nest, the kernel reads what the calls have added. -/
  walked : b.pointers = [] → ∃ attrs, drafted outcomes (.top .nil) = .top attrs ∧
    attributes e (b.req.attrBytes e) = some attrs

/-- The calls go through, and leave a request that encodes what they added. -/
def RoundTrips (e : Endian) (b : Building) (calls : List LinkCall) : Prop :=
  ∃ b' outcomes, build e calls b = .ok (b', outcomes) ∧ Encodes e b' outcomes

section RoundTrips

variable {e : Endian} {b : Building}

theorem Layout.attrBytes_eq {req : LinkRequest} {body : List UInt8} (h : Layout e req body) :
    req.attrBytes e = body := by
  have hlen := h.nlmsgLen_eq
  obtain ⟨head, hhead, hbytes⟩ := h.bytes
  have hfront : (e.bytes 4 (attrsStart + body.length) ++ head).length = attrsStart := by
    rw [List.length_append, e.length_bytes, hhead, attrsStart]
  rw [LinkRequest.attrBytes, hlen, hbytes,
    List.take_left' (by rw [List.length_append, hfront]), List.drop_left' hfront]

theorem Built.encodes {outcomes : List (LinkCall × Option Errno)}
    (h : Built e b (drafted outcomes (.top .nil))) : Encodes e b outcomes := by
  have hroom := h.layout.room
  have haligned := h.layout.aligned
  refine ⟨?_, ?_, fun c b' err hcall => ?_, fun hclosed => ?_⟩
  · rw [h.layout.nlmsgLen_eq, attrsStart]
    omega
  · rw [h.layout.nlmsgLen_eq, attrsStart, sizeofLinkRequest]
    omega
  · obtain ⟨rfl, rfl⟩ := Building.call_failed hcall
    exact ⟨rfl, rfl⟩
  · have hpointers := h.pointers
    have htypes := h.types
    rw [h.layout.attrBytes_eq]
    generalize drafted outcomes (.top .nil) = d at hpointers htypes hroom ⊢
    cases d with
    | top attrs =>
      rw [Draft.bytes] at hroom
      exact ⟨attrs, rfl, walkAttrs_encode attrs htypes (by omega) (Nat.le_refl _)⟩
    | inside outer type done =>
      rw [hclosed] at hpointers
      cases hpointers

end RoundTrips

/-- The request right after `link_request_init`. -/
def Building.init (e : Endian) (type flags index : Nat) : Building :=
  ⟨linkRequestInit e type flags index, []⟩

theorem Building.init_built (e : Endian) (type flags index : Nat) :
    Built e (init e type flags index) (.top .nil) :=
  ⟨linkRequestInit_layout e type flags index, rfl, trivial⟩

/-- Requests encode what was added to them, in every run of calls, if and only if
    every length fits in 32 bits or is recognised as too long. -/
theorem requests_round_trip_iff (e : Endian) (type flags index : Nat) (calls : List LinkCall)
    (hcalls : ∀ c ∈ calls, c.Admissible) :
    (∀ n, RoundTrips e (.init e type flags index) (calls.take n)) ↔
      Fitting e calls (.init e type flags index) := by
  have hstart := Building.init_built e type flags index
  constructor
  · intro h
    obtain ⟨b, outcomes, hbuild, -⟩ := h calls.length
    rw [List.take_length] at hbuild
    exact hstart.fitting hcalls hbuild
  · intro h n
    obtain ⟨b, outcomes, hbuild, hbuilt⟩ :=
      hstart.build (fun c hc => hcalls c (List.mem_of_mem_take hc)) (h.take n)
    exact ⟨b, outcomes, hbuild, hbuilt.encodes⟩

/-- An interface with its kind and a nested address, as the test of the source builds
    it, and one attribute more than there is room for. -/
def Sample.linkCalls : List LinkCall :=
  [.attr 3 [115, 103, 114, 101, 48, 0], .nest 18, .attr 1 [103, 114, 101, 116, 97, 112, 0],
    .nest 2, .attr 6 [192, 0, 2, 1], .nestEnd, .nestEnd, .attr 3 (List.replicate 1056 1)]

theorem requests_round_trip_iff_tap :
    RoundTrips .little (.init .little 16 1536 0) Sample.linkCalls := by
  refine (requests_round_trip_iff .little 16 1536 0 Sample.linkCalls ?_).mpr ?_ 8
  · simp [Sample.linkCalls, LinkCall.Admissible, -List.reduceReplicate]
  · simp [Sample.linkCalls, Fitting, LinkCall.Fits, -List.reduceReplicate]

/-- 4 GiB of payload: the aligned length is 4, and `memcpy` leaves the request. -/
theorem not_requests_round_trip :
    (LinkCall.attr 3 (List.replicate (2 ^ 32) 0)).Admissible ∧
      ¬ RoundTrips .little (.init .little 16 0 0) [.attr 3 (List.replicate (2 ^ 32) 0)] := by
  have hlength : (List.replicate (2 ^ 32) (0 : UInt8)).length = 2 ^ 32 := List.length_replicate
  generalize List.replicate (2 ^ 32) (0 : UInt8) = data at hlength
  have hadmissible : (LinkCall.attr 3 data).Admissible := by
    rw [LinkCall.Admissible, hlength]
    decide
  refine ⟨hadmissible, ?_⟩
  rintro ⟨b, outcomes, hbuild, -⟩
  have hstart := Building.init_built .little 16 0 0
  have hfits := (hstart.fitting (List.forall_mem_singleton.mpr hadmissible) hbuild).1
  rw [LinkCall.Fits, hstart.layout.nlmsgLen_eq, hlength] at hfits
  exact absurd hfits (by decide)

end Softgre
