-- SUMMARY: The provisioning tables: tunnel records on a heap, the two hash maps, slots and counters.
import Softgre.Hashmap.Bundle
import Softgre.Host.World

/-!
# Provisioning state

A tunnel record lives on a heap and is referred to by pointer from two maps, so
that a pointer to a freed record is a value the model can hold. Addresses are
never handed out twice.

`Sys` is the state between `provision_init` and `provision_end`, where both maps
exist.
-/

namespace Softgre

open Base

/-! ## Hash functions -/

def mix32 (h : UInt32) : UInt32 :=
  let h := h ^^^ (h >>> 16)
  let h := h * (0x85ebca6b : UInt32)
  let h := h ^^^ (h >>> 13)
  let h := h * (0xc2b2ae35 : UInt32)
  h ^^^ (h >>> 16)

def hashmapHashU32 (key : UInt32) : UInt32 := mix32 key

/-- FNV-1a. -/
def hashmapHashStr (key : CStr) : UInt32 :=
  key.foldl (fun h c => (h ^^^ c.toNat.toUInt32) * (16777619 : UInt32)) (2166136261 : UInt32)

abbrev u32Ops : KeyOps UInt32 := KeyOps.ofHash hashmapHashU32
abbrev strOps : KeyOps CStr := KeyOps.ofHash hashmapHashStr

/-! ## State -/

abbrev Ptr := Nat

/-- `struct tunnel_context`. -/
structure TunnelContext where
  ipRemote : InAddr
  ifgre : CStr
  id : Nat
  ready : Bool
  firewallHooks : BitVec 32
  macs : Hashmap strOps Unit

/-- A zeroed record, which is what reading through a stale pointer gives. -/
instance : Inhabited TunnelContext := ⟨⟨⟨0⟩, [], 0, false, 0, Hashmap.new⟩⟩

structure Sys where
  tunnels : Hashmap u32Ops Ptr
  macIndex : Hashmap strOps Ptr
  slots : Nat → Bool
  packets : UInt64
  ignored : UInt64
  failures : UInt64
  retryAfter : Int
  cleanupPending : Bool
  heap : Ptr → Option TunnelContext
  brk : Ptr
  world : World

abbrev ProvM := StateM Sys

/-- Run an interface function. -/
def lift {α : Type} (m : WorldM α) : ProvM α := zoom Sys.world (fun w s => { s with world := w }) m

/-- The record behind a pointer. -/
def Sys.deref (s : Sys) (p : Ptr) : TunnelContext := (s.heap p).getD default

def Sys.write (s : Sys) (p : Ptr) (tun : TunnelContext) : Sys :=
  { s with heap := fun q => if q = p then some tun else s.heap q }

/-- Assign to fields of the record behind a pointer. -/
def modifyTunnel (p : Ptr) (f : TunnelContext → TunnelContext) : ProvM Unit :=
  modify fun s => s.write p (f (s.deref p))

/-- `tunnel_free`: release the records, each together with its `macs`. -/
def Sys.free (s : Sys) (ps : List Ptr) : Sys :=
  { s with heap := fun q => if q ∈ ps then none else s.heap q }

def Sys.setErrno (s : Sys) (e : Errno) : Sys := { s with world := { s.world with errno := e } }

/-- `xcalloc` of a record that is then filled in. -/
def xcalloc (tun : TunnelContext) : ProvM Ptr := do
  let p := (← get).brk
  modify fun s => { s.write p tun with brk := p + 1 }
  return p

/-- `provision_init`. The counters and `retry_after` keep their values, zero at
    start. -/
def provisionInit (w : World) : Sys where
  tunnels := Hashmap.new
  macIndex := Hashmap.new
  slots _ := false
  packets := 0
  ignored := 0
  failures := 0
  retryAfter := 0
  cleanupPending := false
  heap _ := none
  brk := 0
  world := w

/-- `hashmap_insert(tunnels, ...)`, which frees a record it replaces. -/
def tunnelsInsert (key : UInt32) (p : Ptr) : ProvM Unit :=
  modify fun s =>
    let (tunnels, old) := s.tunnels.insert key p
    { s with tunnels }.free old.toList

/-- `hashmap_remove(tunnels, ...)`, which frees the record. -/
def tunnelsRemove (key : UInt32) : ProvM Unit :=
  modify fun s =>
    let (tunnels, old) := s.tunnels.remove key
    { s with tunnels }.free (old.map Prod.snd).toList

/-- `hashmap_remove_all(tunnels)`, which frees every record. -/
def tunnelsRemoveAll : ProvM Unit :=
  modify fun s =>
    let (tunnels, old) := s.tunnels.removeAll
    { s with tunnels }.free (old.map Prod.snd)

def setSlot (id : Nat) (used : Bool) : ProvM Unit :=
  modify fun s => { s with slots := fun i => if i = id then used else s.slots i }

end Softgre
