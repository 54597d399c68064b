-- SUMMARY: The requests of `iface_gre.c` and `iface_bridge.c` as bytes, and what the kernel reads in them.
import Softgre.Iface.Netlink
import Softgre.Compat.Inet

/-!
# Requests as bytes

Each link operation fills a `struct link_request` attribute by attribute. What the
kernel reads in it is stated over the attribute tree: the headers, the last
attribute of each type, strings up to their terminator, numbers in the byte order
of the machine.
-/

namespace Softgre

open Base

-- ---------------------------------------------------------------------------
-- Numbers of the Linux headers
-- ---------------------------------------------------------------------------

def rtmNewlink : Nat := 16
def rtmDellink : Nat := 17
def nlmFExcl : Nat := 0x200
def nlmFCreate : Nat := 0x400
def iffUp : Nat := 1
def iflaIfname : Nat := 3
def iflaLink : Nat := 5
def iflaMaster : Nat := 10
def iflaLinkinfo : Nat := 18
def iflaInfoKind : Nat := 1
def iflaInfoData : Nat := 2
def iflaGreLink : Nat := 1
def iflaGreLocal : Nat := 6
def iflaGreRemote : Nat := 7
def iflaGrePmtudisc : Nat := 10
def iflaVlanId : Nat := 1

-- ---------------------------------------------------------------------------
-- The request functions
-- ---------------------------------------------------------------------------

/-- A string with its terminator. -/
def cString (text : CStr) : List UInt8 := text.map (fun c => UInt8.ofNat c.toNat) ++ [0]

/-- `s_addr` in memory. -/
def InAddr.bytes (a : InAddr) : List UInt8 := [a.byte 0, a.byte 1, a.byte 2, a.byte 3]

def kindGretap : CStr := ['g', 'r', 'e', 't', 'a', 'p']
def kindBridge : CStr := ['b', 'r', 'i', 'd', 'g', 'e']
def kindVlan : CStr := ['v', 'l', 'a', 'n']

/-- A function that may return -1 with `errno`, or go on. -/
abbrev Requests := ExceptT Errno (Except Fault)

section Functions

variable (e : Endian)

/-- A call of `link_attr` after which the caller returns -1 if it failed. -/
def LinkRequest.attr (req : LinkRequest) (type : Nat) (data : List UInt8) :
    Requests LinkRequest := do
  match ← linkAttr e req type data with
  | (_, some err) => throw err
  | (req, none) => return req

/-- A call of `link_nest`, likewise. -/
def LinkRequest.nest (req : LinkRequest) (type : Nat) : Requests (LinkRequest × Nat) := do
  match ← linkNest e req type with
  | (_, .error err) => throw err
  | (req, .ok attr) => return (req, attr)

/-- `ifi_flags` and `ifi_change`. -/
def LinkRequest.setUp (req : LinkRequest) : Except Fault LinkRequest := do
  let req ← req.write 24 (e.bytes 4 iffUp)
  req.write 28 (e.bytes 4 iffUp)

/-- The request of `iface_gre_add`, for the index of `dev`. -/
def greAddRequest (name kind : CStr) (index : UInt32) (loc rem : InAddr) :
    Requests LinkRequest := do
  let req ← (linkRequestInit e rtmNewlink (nlmFCreate ||| nlmFExcl) 0).setUp e
  let req ← req.attr e iflaIfname (cString name)
  let (req, info) ← req.nest e iflaLinkinfo
  let req ← req.attr e iflaInfoKind (cString kind)
  let (req, data) ← req.nest e iflaInfoData
  let req ← req.attr e iflaGreLink (e.bytes 4 index.toNat)
  let req ← req.attr e iflaGreLocal loc.bytes
  let req ← req.attr e iflaGreRemote rem.bytes
  let req ← req.attr e iflaGrePmtudisc [0]
  let req ← linkNestEnd e req data
  linkNestEnd e req info

/-- The request of `iface_gre_del`. -/
def greDelRequest (index : UInt32) : LinkRequest := linkRequestInit e rtmDellink 0 index.toNat

/-- The request of `set_master`. -/
def setMasterRequest (index master : UInt32) : Requests LinkRequest := do
  let req ← (linkRequestInit e rtmNewlink 0 index.toNat).setUp e
  req.attr e iflaMaster (e.bytes 4 master.toNat)

/-- The request of `iface_bridge_prepare` for a bridge that is to be made. -/
def bridgeCreateRequest (name : CStr) : Requests LinkRequest := do
  let req ← (linkRequestInit e rtmNewlink (nlmFCreate ||| nlmFExcl) 0).setUp e
  let req ← req.attr e iflaIfname (cString name)
  let (req, info) ← req.nest e iflaLinkinfo
  let req ← req.attr e iflaInfoKind (cString kindBridge)
  linkNestEnd e req info

/-- The request of `iface_bridge_prepare` for a bridge that is there. -/
def bridgeUpRequest (index : UInt32) : Requests LinkRequest :=
  (linkRequestInit e rtmNewlink 0 index.toNat).setUp e

/-- The first request of `iface_bridge_attach`. -/
def vlanAddRequest (name : CStr) (parent : UInt32) (vlan : UInt16) : Requests LinkRequest := do
  let req ← (linkRequestInit e rtmNewlink (nlmFCreate ||| nlmFExcl) 0).setUp e
  let req ← req.attr e iflaIfname (cString name)
  let req ← req.attr e iflaLink (e.bytes 4 parent.toNat)
  let (req, info) ← req.nest e iflaLinkinfo
  let req ← req.attr e iflaInfoKind (cString kindVlan)
  let (req, data) ← req.nest e iflaInfoData
  let req ← req.attr e iflaVlanId (e.bytes 2 vlan.toNat)
  let req ← linkNestEnd e req data
  linkNestEnd e req info

end Functions

-- ---------------------------------------------------------------------------
-- What the kernel reads
-- ---------------------------------------------------------------------------

/-- A string attribute, up to its terminator. -/
def textOf (bytes : List UInt8) : CStr :=
  (bytes.takeWhile (· != 0)).map fun b => Char.ofNat b.toNat

/-- An address, in network order. -/
def readAddress : List UInt8 → Option InAddr
  | [a, b, c, d] => some (InAddr.ofBytes a b c d)
  | _ => none

/-- The fields of both headers that matter to the kernel, and the attributes. -/
structure Rtnl where
  type : Nat
  flags : Nat
  index : Nat
  ifiFlags : Nat
  ifiChange : Nat
  attrs : Attrs
deriving DecidableEq, Repr

/-- What a request asks for. Links are named by their index; a link that is made or
    changed is brought up. `nolink` is a change of the link with index 0. -/
inductive Ask where
  | gretap (name : CStr) (link : Nat) (loc rem : InAddr) (pmtudisc : Nat)
  | vlan (name : CStr) (link vid : Nat)
  | bridge (name : CStr)
  | enslave (index master : Nat)
  | raise (index : Nat)
  | remove (index : Nat)
  | nolink
deriving DecidableEq, Repr

section Kernel

variable (e : Endian)

/-- The kernel's copy of a request, up to `nlmsg_len`. -/
def LinkRequest.rtnl (req : LinkRequest) : Option Rtnl := do
  let attrs ← attributes e (req.attrBytes e)
  return ⟨e.read 2 req.bytes 4, e.read 2 req.bytes 6, e.read 4 req.bytes 20,
    e.read 4 req.bytes 24, e.read 4 req.bytes 28, attrs⟩

/-- A new link: its name, and what its kind needs. -/
def newLink (attrs : Attrs) : Option Ask := do
  let name := textOf (← attrs.payload iflaIfname)
  let info ← attrs.inside iflaLinkinfo
  let kind := textOf (← info.payload iflaInfoKind)
  if kind = kindBridge then return .bridge name
  let data ← info.inside iflaInfoData
  if kind = kindGretap then
    return .gretap name (← numberOf e 4 (← data.payload iflaGreLink))
      (← readAddress (← data.payload iflaGreLocal)) (← readAddress (← data.payload iflaGreRemote))
      (← numberOf e 1 (← data.payload iflaGrePmtudisc))
  if kind = kindVlan then
    return .vlan name (← numberOf e 4 (← attrs.payload iflaLink))
      (← numberOf e 2 (← data.payload iflaVlanId))
  none

/-- A change of the link with an index. -/
def Rtnl.change (r : Rtnl) : Option Ask :=
  match r.attrs.payload iflaMaster with
  | none => some (.raise r.index)
  | some bytes => (numberOf e 4 bytes).map (.enslave r.index)

/-- A request with an acknowledgment that deletes, makes or changes a link. -/
def Rtnl.ask (r : Rtnl) : Option Ask :=
  if r.flags &&& 5 ≠ 5 then none
  else if r.type = rtmDellink then if r.index = 0 then none else some (.remove r.index)
  else if r.type ≠ rtmNewlink || r.ifiFlags &&& r.ifiChange &&& iffUp = 0 then none
  else if r.index ≠ 0 then r.change e
  else if r.flags &&& (nlmFCreate ||| nlmFExcl) = nlmFCreate ||| nlmFExcl then
    newLink e r.attrs
  else if r.flags &&& nlmFCreate = 0 then some .nolink
  else none

/-- What the kernel understands. -/
def LinkRequest.ask (req : LinkRequest) : Option Ask := do (← req.rtnl e).ask e

end Kernel

-- ---------------------------------------------------------------------------
-- Building a request
-- ---------------------------------------------------------------------------

/-- The call succeeds, with a result that satisfies `P`. -/
def Makes {α : Type} (m : Requests α) (P : α → Prop) : Prop := ∃ a, m.run = .ok (.ok a) ∧ P a

section Makes

variable {α β : Type} {P Q : α → Prop}

theorem Makes.bind {m : Requests α} {f : α → Requests β} {Q : β → Prop} (hm : Makes m P)
    (hf : ∀ a, P a → Makes (f a) Q) : Makes (m >>= f) Q := by
  obtain ⟨a, hrun, ha⟩ := hm
  obtain ⟨b, hrun', hb⟩ := hf a ha
  refine ⟨b, ?_, hb⟩
  rw [ExceptT.run_bind, hrun]
  exact hrun'

theorem Makes.mono {m : Requests α} (hm : Makes m P) (hPQ : ∀ a, P a → Q a) : Makes m Q := by
  obtain ⟨a, hrun, ha⟩ := hm
  exact ⟨a, hrun, hPQ a ha⟩

theorem Makes.lift {m : Except Fault α} {a : α} (hm : m = .ok a) (ha : P a) :
    Makes (MonadLift.monadLift m) P := ⟨a, by rw [hm]; rfl, ha⟩

end Makes

section Frame

variable {e : Endian} {req req' : LinkRequest} {offset : Nat} {new : List UInt8}

/-- Both headers, from behind `nlmsg_len`. -/
def LinkRequest.head (req : LinkRequest) : List UInt8 := (req.bytes.drop 4).take 28

/-- The headers as the request functions leave them. -/
def header (e : Endian) (type flags index up : Nat) : List UInt8 :=
  e.bytes 2 type ++ (e.bytes 2 (1 ||| 4 ||| flags) ++ (e.bytes 4 1 ++ (e.bytes 4 0 ++ ([0, 0] ++
    (e.bytes 2 0 ++ (e.bytes 4 index ++ (e.bytes 4 up ++ e.bytes 4 up)))))))

theorem length_header (type flags index up : Nat) : (header e type flags index up).length = 28 := by
  simp only [header, List.length_append, e.length_bytes, List.length_cons, List.length_nil]

theorem LinkRequest.head_eq {type flags index up : Nat} (before : List UInt8)
    (hbefore : before.length = 4) (rest : List UInt8)
    (hbytes : req.bytes = before ++ header e type flags index up ++ rest) :
    req.head = header e type flags index up := by
  rw [LinkRequest.head, hbytes, List.append_assoc, List.drop_left' hbefore,
    List.take_left' (length_header _ _ _ _)]

/-- A write beside the headers. -/
theorem LinkRequest.head_write (h : req.write offset new = .ok req')
    (hout : attrsStart ≤ offset ∨ offset + new.length ≤ 4) : req'.head = req.head := by
  rw [LinkRequest.write] at h
  split at h
  · cases h
    rw [attrsStart] at hout
    refine List.ext_getElem? fun i => ?_
    simp only [LinkRequest.head, List.getElem?_take, List.getElem?_drop, List.getElem?_append,
      List.length_append, List.length_take, req.length_bytes, sizeofLinkRequest] at *
    grind
  · cases h

theorem LinkRequest.head_copy (h : req.copy offset new = .ok req') (hout : attrsStart ≤ offset) :
    req'.head = req.head := by
  rw [LinkRequest.copy] at h
  split at h
  · exact LinkRequest.head_write h (.inl hout)
  · cases h
    rfl

theorem linkAttr_head {type : Nat} {data : List UInt8} {err : Option Errno}
    (h : linkAttr e req type data = .ok (req', err)) (hstart : attrsStart ≤ nlmsgAlign (req.nlmsgLen e)) :
    req'.head = req.head := by
  rw [linkAttr] at h
  split at h
  · cases h
    rfl
  · obtain ⟨req₁, h₁, h⟩ := bind_eq_ok_iff.mp h
    obtain ⟨req₂, h₂, h⟩ := bind_eq_ok_iff.mp h
    obtain ⟨req₃, h₃, h⟩ := bind_eq_ok_iff.mp h
    obtain ⟨req₄, h₄, h⟩ := bind_eq_ok_iff.mp h
    cases h
    rw [LinkRequest.head_write h₄ (.inr (by rw [e.length_bytes])),
      LinkRequest.head_copy h₃ (by omega), LinkRequest.head_write h₂ (.inl hstart),
      LinkRequest.head_write h₁ (.inl (by omega))]

end Frame

/-- A request that holds a draft of at most `n` bytes under some headers. -/
structure Drawn (e : Endian) (head : List UInt8) (n : Nat) (req : LinkRequest)
    (pointers : List Nat) (d : Draft) : Prop where
  built : Built e ⟨req, pointers⟩ d
  head : req.head = head
  size : (d.bytes e).length ≤ n

section Drawn

variable {e : Endian} {head data : List UInt8} {n type flags index : Nat} {req : LinkRequest}
  {pointers : List Nat} {d : Draft}

theorem Drawn.start_le (h : Drawn e head n req pointers d) :
    attrsStart ≤ nlmsgAlign (req.nlmsgLen e) := by
  rw [h.built.layout.start_eq]
  exact Nat.le_add_right attrsStart _

theorem Drawn.attr (h : Drawn e head n req pointers d) (m : Nat) (htype : type < 2 ^ 14)
    (hm : n + (data.length + 7) / 4 * 4 ≤ m) (hfits : m ≤ 1024) :
    Makes (req.attr e type data) fun req' =>
      Drawn e head m req' pointers (d.add (.data type data .nil)) := by
  have hsize := h.size
  obtain ⟨req', hattr, hlayout⟩ : ∃ req', linkAttr e req type data = .ok (req', none) ∧ _ :=
    linkAttr_fits h.built.layout type
    (by rw [attrsStart, sizeofLinkRequest]; omega)
  have hbytes : (d.add (.data type data .nil)).bytes e = d.bytes e ++ (rtattr e
      (rtaLength data.length) type ++ data ++ padding (rtaLength data.length)) := by
    rw [Draft.bytes_add, Attrs.encode, Attrs.encode, List.append_nil]
  refine ⟨req', ?_, ⟨⟨?_, ?_, h.built.types.add ⟨htype, trivial⟩⟩, ?_, ?_⟩⟩
  · rw [LinkRequest.attr, hattr]
    rfl
  · rw [hbytes]
    exact hlayout
  · rw [Draft.pointers_add]
    exact h.built.pointers
  · exact (linkAttr_head hattr h.start_le).trans h.head
  · have hpadding := length_padding data.length (by omega)
    rw [hbytes, List.length_append, List.length_append, List.length_append, length_rtattr]
    omega

theorem Drawn.nest (h : Drawn e head n req pointers d) (htype : type < 2 ^ 14)
    (hfits : n + 4 ≤ 1024) :
    Makes (req.nest e type) fun r =>
      Drawn e head (n + 4) r.1 (r.2 :: pointers) (.inside d type .nil) := by
  have hsize := h.size
  obtain ⟨req', hattr, hlayout⟩ :
      ∃ req', linkAttr e req (type ||| nlaFNested) [] = .ok (req', none) ∧ _ :=
    linkAttr_fits h.built.layout (type ||| nlaFNested)
      (by rw [attrsStart, sizeofLinkRequest, List.length_nil]; omega)
  refine ⟨(req', nlmsgAlign (req.nlmsgLen e)), ?_, ⟨⟨?_, ?_, h.built.types, htype, trivial⟩, ?_, ?_⟩⟩
  · rw [LinkRequest.nest, linkNest, hattr]
    rfl
  · have hempty : padding (rtaLength ([] : List UInt8).length) = [] := rfl
    rw [hempty, List.append_nil] at hlayout
    exact hlayout
  · rw [h.built.layout.start_eq, Draft.pointers, ← h.built.pointers]
  · exact (linkAttr_head hattr h.start_le).trans h.head
  · rw [Draft.bytes, List.length_append, List.length_append, length_rtattr, Attrs.encode,
      List.length_nil]
    omega

theorem Drawn.nestEnd {outer : Draft} {done : Attrs} {attr : Nat}
    (h : Drawn e head n req (attr :: pointers) (.inside outer type done)) :
    Makes (MonadLift.monadLift (linkNestEnd e req attr) : Requests LinkRequest) fun req' =>
      Drawn e head n req' pointers (outer.add (.nested type done .nil)) := by
  have hroom := h.built.layout.room
  have hsize := h.size
  obtain ⟨houter, htype, hdone⟩ := h.built.types
  obtain ⟨hattr, hpointers⟩ := List.cons.inj h.built.pointers
  rw [Draft.bytes, List.length_append, List.length_append, length_rtattr] at hroom hsize
  obtain ⟨req', hend, hlayout⟩ := linkNestEnd_layout h.built.layout
  rw [← hattr] at hend
  have hbytes : (outer.add (.nested type done .nil)).bytes e = outer.bytes e ++
      (rtattr e (4 + (done.encode e).length) (type ||| nlaFNested) ++ done.encode e) := by
    rw [Draft.bytes_add, Attrs.encode, Attrs.encode, List.append_nil, rtaLength_eq (by omega)]
  refine Makes.lift hend ⟨⟨?_, ?_, houter.add ⟨htype, hdone, trivial⟩⟩, ?_, ?_⟩
  · rw [hbytes]
    exact hlayout
  · rw [Draft.pointers_add]
    exact hpointers
  · refine (LinkRequest.head_write hend (.inl ?_)).trans h.head
    rw [hattr]
    exact Nat.le_add_right attrsStart _
  · rw [hbytes, List.length_append, List.length_append, length_rtattr]
    exact hsize

variable (e type flags index) in
/-- A request before its first attribute. -/
theorem setUp_drawn :
    Makes (MonadLift.monadLift ((linkRequestInit e type flags index).setUp e) : Requests LinkRequest)
      fun req => Drawn e (header e type flags index iffUp) 0 req [] (.top .nil) := by
  have hlength : ∀ k n, (e.bytes k n).length = k := e.length_bytes
  have hbytes : (linkRequestInit e type flags index).bytes = (e.bytes 4 attrsStart ++
      (e.bytes 2 type ++ (e.bytes 2 (1 ||| 4 ||| flags) ++ (e.bytes 4 1 ++ (e.bytes 4 0 ++ ([0, 0] ++
        (e.bytes 2 0 ++ e.bytes 4 index))))))) ++
      (e.bytes 4 0 ++ (e.bytes 4 0 ++ List.replicate 1024 0)) := by
    simp only [linkRequestInit, List.append_assoc]
  obtain ⟨req₁, hwrite₁, hbytes₁⟩ := LinkRequest.write_split (e.bytes 4 iffUp) hbytes
    (show _ = 24 by simp [hlength]) (by simp [hlength])
  obtain ⟨req₂, hwrite₂, hbytes₂⟩ := LinkRequest.write_split (e.bytes 4 iffUp)
    (hbytes₁.trans (List.append_assoc _ _ _).symm) (show _ = 28 by simp [hlength])
    (by simp [hlength])
  have hheader : req₂.bytes = e.bytes 4 attrsStart ++ header e type flags index iffUp ++
      List.replicate 1024 0 := by
    rw [hbytes₂, header]
    simp only [List.append_assoc]
  refine ⟨req₂, ?_, ⟨⟨⟨⟨header e type flags index iffUp, length_header _ _ _ _, ?_⟩, Nat.zero_le _,
    Nat.dvd_zero 4⟩, rfl, trivial⟩, ?_, Nat.le_refl 0⟩⟩
  · rw [LinkRequest.setUp, hwrite₁]
    show (req₁.write 28 (e.bytes 4 iffUp) >>= _ : Except Fault _) = _
    rw [hwrite₂]
    rfl
  · rw [hheader]
    simp only [Draft.bytes, Attrs.encode, List.length_nil, Nat.add_zero, List.append_nil, Nat.sub_zero]
  · exact LinkRequest.head_eq (e.bytes 4 attrsStart) (hlength 4 _) _ hheader

end Drawn

-- ---------------------------------------------------------------------------
-- Reading a request
-- ---------------------------------------------------------------------------

section Reading

variable {e : Endian} {n type flags index up : Nat} {req : LinkRequest} {d : Draft}

theorem LinkRequest.read_head {k offset : Nat} (hle : offset + k ≤ 28) :
    e.read k req.head offset = e.read k req.bytes (4 + offset) := by
  rw [LinkRequest.head, Endian.read_take hle, Endian.read_drop]

theorem header_fields (htype : type < 2 ^ 16) (hflags : (1 ||| 4 ||| flags) < 2 ^ 16)
    (hindex : index < 2 ^ 32) (hup : up < 2 ^ 32) :
    e.read 2 (header e type flags index up) 0 = type ∧
      e.read 2 (header e type flags index up) 2 = 1 ||| 4 ||| flags ∧
      e.read 4 (header e type flags index up) 16 = index ∧
      e.read 4 (header e type flags index up) 20 = up ∧
      e.read 4 (header e type flags index up) 24 = up := by
  have hlength : ∀ k n, (e.bytes k n).length = k := e.length_bytes
  have hskip : ∀ {k offset} {before after : List UInt8} (m : Nat), before.length = m → m ≤ offset →
      e.read k (before ++ after) offset = e.read k after (offset - m) := by
    intro k offset before after m hm hle
    obtain ⟨rest, rfl⟩ : ∃ rest, offset = m + rest := ⟨offset - m, by omega⟩
    rw [← Endian.read_drop, List.drop_left' hm, Nat.add_sub_cancel_left]
  have hread : ∀ {k m} {after : List UInt8}, m < 256 ^ k → e.read k (e.bytes k m ++ after) 0 = m := by
    intro k m after hm
    rw [← List.nil_append (e.bytes k m)]
    exact Endian.read_append rfl hm
  have hlast : ∀ {k m}, m < 256 ^ k → e.read k (e.bytes k m) 0 = m := by
    intro k m hm
    rw [← List.append_nil (e.bytes k m)]
    exact hread hm
  refine ⟨hread htype, ?_, ?_, ?_, ?_⟩
  · rw [header, hskip 2 (hlength 2 _) (by decide)]
    exact hread hflags
  · rw [header, hskip 2 (hlength 2 _) (by decide), hskip 2 (hlength 2 _) (by decide),
      hskip 4 (hlength 4 _) (by decide), hskip 4 (hlength 4 _) (by decide), hskip 2 rfl (by decide),
      hskip 2 (hlength 2 _) (by decide)]
    exact hread hindex
  · rw [header, hskip 2 (hlength 2 _) (by decide), hskip 2 (hlength 2 _) (by decide),
      hskip 4 (hlength 4 _) (by decide), hskip 4 (hlength 4 _) (by decide), hskip 2 rfl (by decide),
      hskip 2 (hlength 2 _) (by decide), hskip 4 (hlength 4 _) (by decide)]
    exact hread hup
  · rw [header, hskip 2 (hlength 2 _) (by decide), hskip 2 (hlength 2 _) (by decide),
      hskip 4 (hlength 4 _) (by decide), hskip 4 (hlength 4 _) (by decide), hskip 2 rfl (by decide),
      hskip 2 (hlength 2 _) (by decide), hskip 4 (hlength 4 _) (by decide),
      hskip 4 (hlength 4 _) (by decide)]
    exact hlast hup

/-- The kernel reads what was drafted. -/
theorem Drawn.rtnl {attrs : Attrs}
    (h : Drawn e (header e type flags index up) n req [] (.top attrs)) (htype : type < 2 ^ 16)
    (hflags : (1 ||| 4 ||| flags) < 2 ^ 16) (hindex : index < 2 ^ 32) (hup : up < 2 ^ 32) :
    req.rtnl e = some ⟨type, 1 ||| 4 ||| flags, index, up, up, attrs⟩ := by
  obtain ⟨hfield₁, hfield₂, hfield₃, hfield₄, hfield₅⟩ :=
    header_fields (e := e) htype hflags hindex hup
  rw [← h.head, LinkRequest.read_head (by decide)] at hfield₁ hfield₂ hfield₃ hfield₄ hfield₅
  have hroom := h.built.layout.room
  have hattrs : attributes e (req.attrBytes e) = some attrs := by
    rw [h.built.layout.attrBytes_eq]
    rw [Draft.bytes] at hroom
    exact walkAttrs_encode attrs h.built.types (by omega) (Nat.le_refl _)
  rw [LinkRequest.rtnl, hattrs, hfield₁, hfield₂, hfield₃, hfield₄, hfield₅]
  rfl

/-- Text without a terminator inside, one byte a character. -/
def CStr.Plain (text : CStr) : Prop := ∀ c ∈ text, 0 < c.toNat ∧ c.toNat < 256

theorem textOf_cString {text : CStr} (h : CStr.Plain text) : textOf (cString text) = text := by
  induction text with
  | nil => rfl
  | cons c rest ih =>
    obtain ⟨hc, hrest⟩ := List.forall_mem_cons.mp h
    have hbyte : (UInt8.ofNat c.toNat).toNat = c.toNat := UInt8.toNat_ofNat_of_lt' hc.2
    have hne : (UInt8.ofNat c.toNat != 0) = true := by
      rw [bne_iff_ne]
      intro hzero
      rw [hzero] at hbyte
      exact absurd hbyte.symm (by simpa using hc.1.ne')
    have htail := ih hrest
    rw [textOf, cString] at htail ⊢
    rw [List.map_cons, List.cons_append, List.takeWhile_cons, if_pos hne, List.map_cons, htail, hbyte,
      Char.ofNat_toNat]

theorem readAddress_bytes (a : InAddr) : readAddress a.bytes = some a := by
  rw [InAddr.bytes, readAddress, ofBytes_byte]

end Reading

-- ---------------------------------------------------------------------------
-- What each request asks for
-- ---------------------------------------------------------------------------

section Asked

variable {e : Endian} {name : CStr}

theorem length_cString (text : CStr) : (cString text).length = text.length + 1 := by
  rw [cString, List.length_append, List.length_map, List.length_singleton]

theorem toNat_ne_zero {n : UInt32} (h : n ≠ 0) : n.toNat ≠ 0 := fun hzero =>
  h (UInt32.toNat_inj.mp hzero)

theorem length_bytes (a : InAddr) : a.bytes.length = 4 := rfl

/-- A name takes at most 24 bytes. -/
theorem Drawn.ifname {head : List UInt8} {req : LinkRequest} {d : Draft}
    (h : Drawn e head 0 req [] d) (hlen : name.length < ifNamSiz) :
    Makes (req.attr e iflaIfname (cString name)) fun req' =>
      Drawn e head 24 req' [] (d.add (.data iflaIfname (cString name) .nil)) := by
  rw [ifNamSiz] at hlen
  exact h.attr 24 (by decide) (by rw [length_cString]; omega) (by decide)

section Ask

variable {r : Rtnl}

theorem Rtnl.ask_create (htype : r.type = rtmNewlink)
    (hflags : r.flags = 1 ||| 4 ||| (nlmFCreate ||| nlmFExcl)) (hindex : r.index = 0)
    (hup : r.ifiFlags = iffUp) (hchange : r.ifiChange = iffUp) : r.ask e = newLink e r.attrs := by
  rw [Rtnl.ask, hflags, htype, hindex, hup, hchange, if_neg (by decide), if_neg (by decide),
    if_neg (by decide), if_neg (by decide), if_pos (by decide)]

theorem Rtnl.ask_change (htype : r.type = rtmNewlink) (hflags : r.flags = 1 ||| 4 ||| 0)
    (hindex : r.index ≠ 0) (hup : r.ifiFlags = iffUp) (hchange : r.ifiChange = iffUp) :
    r.ask e = r.change e := by
  rw [Rtnl.ask, hflags, htype, hup, hchange, if_neg (by decide), if_neg (by decide),
    if_neg (by decide), if_pos hindex]

theorem Rtnl.ask_nolink (htype : r.type = rtmNewlink) (hflags : r.flags = 1 ||| 4 ||| 0)
    (hindex : r.index = 0) (hup : r.ifiFlags = iffUp) (hchange : r.ifiChange = iffUp) :
    r.ask e = some .nolink := by
  rw [Rtnl.ask, hflags, htype, hindex, hup, hchange, if_neg (by decide), if_neg (by decide),
    if_neg (by decide), if_neg (by decide), if_neg (by decide), if_pos (by decide)]

theorem Rtnl.ask_remove (htype : r.type = rtmDellink) (hflags : r.flags = 1 ||| 4 ||| 0)
    (hindex : r.index ≠ 0) : r.ask e = some (.remove r.index) := by
  rw [Rtnl.ask, hflags, htype, if_neg (by decide), if_pos rfl, if_neg hindex]

end Ask

theorem newLink_gretap {attrs info data : Attrs} {index : Nat} {loc rem : InAddr}
    (hname : CStr.Plain name) (hindex : index < 256 ^ 4)
    (hifname : attrs.payload iflaIfname = some (cString name))
    (hinfo : attrs.inside iflaLinkinfo = some info)
    (hkind : info.payload iflaInfoKind = some (cString kindGretap))
    (hdata : info.inside iflaInfoData = some data)
    (hlink : data.payload iflaGreLink = some (e.bytes 4 index))
    (hloc : data.payload iflaGreLocal = some loc.bytes)
    (hrem : data.payload iflaGreRemote = some rem.bytes)
    (hpmtu : data.payload iflaGrePmtudisc = some [0]) :
    newLink e attrs = some (.gretap name index loc rem 0) := by
  have hgretap : textOf (cString kindGretap) = kindGretap := rfl
  have hzero : numberOf e 1 [0] = some 0 := by cases e <;> rfl
  simp only [newLink, hifname, hinfo, hkind, hdata, hlink, hloc, hrem, hpmtu, hgretap, hzero,
    textOf_cString hname, numberOf_bytes hindex, readAddress_bytes, bind, Option.bind]
  rfl

theorem newLink_bridge {attrs info : Attrs} (hname : CStr.Plain name)
    (hifname : attrs.payload iflaIfname = some (cString name))
    (hinfo : attrs.inside iflaLinkinfo = some info)
    (hkind : info.payload iflaInfoKind = some (cString kindBridge)) :
    newLink e attrs = some (.bridge name) := by
  have hbridge : textOf (cString kindBridge) = kindBridge := rfl
  simp only [newLink, hifname, hinfo, hkind, hbridge, textOf_cString hname, bind, Option.bind]
  rfl

theorem newLink_vlan {attrs info data : Attrs} {parent vid : Nat} (hname : CStr.Plain name)
    (hparent : parent < 256 ^ 4) (hvid : vid < 256 ^ 2)
    (hifname : attrs.payload iflaIfname = some (cString name))
    (hlink : attrs.payload iflaLink = some (e.bytes 4 parent))
    (hinfo : attrs.inside iflaLinkinfo = some info)
    (hkind : info.payload iflaInfoKind = some (cString kindVlan))
    (hdata : info.inside iflaInfoData = some data)
    (hid : data.payload iflaVlanId = some (e.bytes 2 vid)) :
    newLink e attrs = some (.vlan name parent vid) := by
  have hvlan : textOf (cString kindVlan) = kindVlan := rfl
  simp only [newLink, hifname, hlink, hinfo, hkind, hdata, hid, hvlan, textOf_cString hname,
    numberOf_bytes hparent, numberOf_bytes hvid, bind, Option.bind]
  rfl

theorem greAddRequest_makes (hname : CStr.Plain name) (hlen : name.length < ifNamSiz)
    (index : UInt32) (loc rem : InAddr) :
    Makes (greAddRequest e name kindGretap index loc rem) fun req =>
      req.ask e = some (.gretap name index.toNat loc rem 0) := by
  have hword : ∀ n, (e.bytes 4 n).length = 4 := e.length_bytes 4
  have hindex : index.toNat < 256 ^ 4 := index.toNat_lt
  refine (setUp_drawn e _ _ _).bind fun req h => ?_
  refine (h.ifname hlen).bind fun req h => ?_
  refine (h.nest (by decide) (by decide)).bind fun r h => ?_
  refine (h.attr 40 (by decide) (by decide) (by decide)).bind fun req h => ?_
  refine (h.nest (by decide) (by decide)).bind fun r h => ?_
  refine (h.attr 52 (by decide) (by rw [hword]) (by decide)).bind fun req h => ?_
  refine (h.attr 60 (by decide) (by rw [length_bytes]) (by decide)).bind fun req h => ?_
  refine (h.attr 68 (by decide) (by rw [length_bytes]) (by decide)).bind fun req h => ?_
  refine (h.attr 76 (by decide) (by decide) (by decide)).bind fun req h => ?_
  refine h.nestEnd.bind fun req h => ?_
  refine h.nestEnd.mono fun req h => ?_
  rw [LinkRequest.ask, h.rtnl (by decide) (by decide) (by decide) (by decide)]
  exact (Rtnl.ask_create rfl rfl rfl rfl rfl).trans
    (newLink_gretap hname hindex rfl rfl rfl rfl rfl rfl rfl rfl)

theorem greDelRequest_ask (index : UInt32) (hindex : index ≠ 0) :
    (greDelRequest e index).ask e = some (.remove index.toNat) := by
  have hhead : (greDelRequest e index).head = header e rtmDellink 0 index.toNat 0 := by
    refine LinkRequest.head_eq (e.bytes 4 attrsStart) (e.length_bytes 4 _) (List.replicate 1024 0) ?_
    simp only [greDelRequest, linkRequestInit, header, List.append_assoc]
  have h : Drawn e (header e rtmDellink 0 index.toNat 0) 0 (greDelRequest e index) [] (.top .nil) :=
    ⟨⟨linkRequestInit_layout e _ _ _, rfl, trivial⟩, hhead, Nat.le_refl 0⟩
  rw [LinkRequest.ask, h.rtnl (by decide) (by decide) index.toNat_lt (by decide)]
  exact Rtnl.ask_remove rfl rfl (toNat_ne_zero hindex)

theorem setMasterRequest_makes (index master : UInt32) :
    Makes (setMasterRequest e index master) fun req =>
      req.ask e = some (if index = 0 then .nolink else .enslave index.toNat master.toNat) := by
  have hword : ∀ n, (e.bytes 4 n).length = 4 := e.length_bytes 4
  have hmaster : master.toNat < 256 ^ 4 := master.toNat_lt
  refine (setUp_drawn e _ _ _).bind fun req h => ?_
  refine (h.attr 8 (by decide) (by rw [hword]) (by decide)).mono fun req h => ?_
  rw [LinkRequest.ask, h.rtnl (by decide) (by decide) index.toNat_lt (by decide)]
  by_cases hindex : index = 0
  · rw [if_pos hindex]
    exact Rtnl.ask_nolink rfl rfl (congrArg UInt32.toNat hindex) rfl rfl
  · rw [if_neg hindex]
    refine (Rtnl.ask_change rfl rfl (toNat_ne_zero hindex) rfl rfl).trans ?_
    exact congrArg (Option.map (Ask.enslave index.toNat)) (numberOf_bytes hmaster)

theorem bridgeUpRequest_makes (index : UInt32) (hindex : index ≠ 0) :
    Makes (bridgeUpRequest e index) fun req => req.ask e = some (.raise index.toNat) := by
  refine (setUp_drawn e _ _ _).mono fun req h => ?_
  rw [LinkRequest.ask, h.rtnl (by decide) (by decide) index.toNat_lt (by decide)]
  exact Rtnl.ask_change rfl rfl (toNat_ne_zero hindex) rfl rfl

theorem bridgeCreateRequest_makes (hname : CStr.Plain name) (hlen : name.length < ifNamSiz) :
    Makes (bridgeCreateRequest e name) fun req => req.ask e = some (.bridge name) := by
  refine (setUp_drawn e _ _ _).bind fun req h => ?_
  refine (h.ifname hlen).bind fun req h => ?_
  refine (h.nest (by decide) (by decide)).bind fun r h => ?_
  refine (h.attr 40 (by decide) (by decide) (by decide)).bind fun req h => ?_
  refine h.nestEnd.mono fun req h => ?_
  rw [LinkRequest.ask, h.rtnl (by decide) (by decide) (by decide) (by decide)]
  exact (Rtnl.ask_create rfl rfl rfl rfl rfl).trans (newLink_bridge hname rfl rfl rfl)

theorem vlanAddRequest_makes (hname : CStr.Plain name) (hlen : name.length < ifNamSiz)
    (parent : UInt32) (vlan : UInt16) :
    Makes (vlanAddRequest e name parent vlan) fun req =>
      req.ask e = some (.vlan name parent.toNat vlan.toNat) := by
  have hword : ∀ k n, (e.bytes k n).length = k := e.length_bytes
  have hparent : parent.toNat < 256 ^ 4 := parent.toNat_lt
  have hvlan : vlan.toNat < 256 ^ 2 := vlan.toNat_lt
  refine (setUp_drawn e _ _ _).bind fun req h => ?_
  refine (h.ifname hlen).bind fun req h => ?_
  refine (h.attr 32 (by decide) (by rw [hword]) (by decide)).bind fun req h => ?_
  refine (h.nest (by decide) (by decide)).bind fun r h => ?_
  refine (h.attr 48 (by decide) (by decide) (by decide)).bind fun req h => ?_
  refine (h.nest (by decide) (by decide)).bind fun r h => ?_
  refine (h.attr 60 (by decide) (by rw [hword]) (by decide)).bind fun req h => ?_
  refine h.nestEnd.bind fun req h => ?_
  refine h.nestEnd.mono fun req h => ?_
  rw [LinkRequest.ask, h.rtnl (by decide) (by decide) (by decide) (by decide)]
  exact (Rtnl.ask_create rfl rfl rfl rfl rfl).trans
    (newLink_vlan hname hparent hvlan rfl rfl rfl rfl rfl rfl)

end Asked

end Softgre
