-- SUMMARY: The kernel state the daemon acts on: links, ebtables chains, and the effect of a command.
import Softgre.Compat

/-!
# Links and chains

The kernel is the set of network links and the ebtables rule lists. A command
either takes effect or cannot: `Kernel.apply` returns `none` when a name is
taken, an object is missing, or a chain is still referred to.

Links the daemon did not create have kind `foreign`. A link can sit on others: when
one of these is deleted, it goes too.
-/

namespace Softgre

inductive EbTable where
  | nat | filter
deriving DecidableEq, Repr

/-- The built-in chains and the two chains the daemon owns. -/
inductive Chain where
  | prerouting | input | forward | output | postrouting
  | softgreIn | softgreOut
deriving DecidableEq, Repr

inductive Direction where
  | input | output
deriving DecidableEq, Repr

/-- `-s mac`, `-d mac`, or `-d` with the group bit as mask. -/
inductive MacMatch where
  | src (mac : CStr)
  | dst (mac : CStr)
  | dstMulticast
deriving DecidableEq, Repr

inductive Target where
  | accept
  | drop
  | chain (c : Chain)
  | foreign (id : Nat)
deriving DecidableEq, Repr

structure Rule where
  iface : Option (Direction × CStr)
  mac : Option MacMatch
  target : Target
deriving DecidableEq, Repr

inductive LinkKind where
  | gretap (dev : CStr) (loc rem : InAddr)
  | vlan (parent : CStr) (vid : UInt16)
  | foreign (below : List CStr)
deriving DecidableEq, Repr

structure Link where
  name : CStr
  kind : LinkKind
  master : Option CStr
deriving DecidableEq, Repr

/-- Requests to the kernel and ebtables invocations. `lookup` is `if_nametoindex`, and
    stands for an operation that fails because a name it needs did not resolve. -/
inductive Cmd where
  | newChain (t : EbTable) (c : Chain)
  | deleteChain (t : EbTable) (c : Chain)
  | flush (t : EbTable) (c : Chain)
  | append (t : EbTable) (c : Chain) (r : Rule)
  | insert (t : EbTable) (c : Chain) (r : Rule)
  | delete (t : EbTable) (c : Chain) (r : Rule)
  | newGretap (name dev : CStr) (loc rem : InAddr)
  | newVlan (name parent : CStr) (vid : UInt16)
  | setMaster (name bridge : CStr)
  | delLink (name : CStr)
  | lookup (name : CStr)
deriving DecidableEq, Repr

/-- The chain a command changes, if it is one for ebtables. -/
def Cmd.edits : Cmd → Option (EbTable × Chain)
  | .newChain t c | .deleteChain t c | .flush t c => some (t, c)
  | .append t c _ | .insert t c _ | .delete t c _ => some (t, c)
  | _ => none

structure Kernel where
  links : List Link
  chain : EbTable → Chain → Option (List Rule)

def Chain.all : List Chain :=
  [.prerouting, .input, .forward, .output, .postrouting, .softgreIn, .softgreOut]

/-- The links a link sits on, all the way down. A tunnel goes through its interface,
    but does not sit on it. -/
def LinkKind.below : LinkKind → List CStr
  | .gretap .. => []
  | .vlan p _ => [p]
  | .foreign below => below

/-- The link was created by the daemon. -/
def LinkKind.owned : LinkKind → Bool
  | .foreign _ => false
  | _ => true

namespace Kernel

def hasLink (k : Kernel) (name : CStr) : Bool := k.links.any fun l => l.name == name

def setChain (k : Kernel) (t : EbTable) (c : Chain) (rules : Option (List Rule)) : Kernel :=
  { k with chain := fun t' c' => if t' = t ∧ c' = c then rules else k.chain t' c' }

def addLink (k : Kernel) (l : Link) : Kernel := { k with links := l :: k.links }

/-- Deleting a link also deletes every link that sits on it. -/
def dropLink (k : Kernel) (name : CStr) : Kernel :=
  { k with links := k.links.filter fun l => l.name != name && !l.kind.below.contains name }

def enslave (k : Kernel) (name bridge : CStr) : Kernel :=
  { k with links :=
      k.links.map fun l => if l.name = name then { l with master := some bridge } else l }

/-- Some rule of the table jumps to the chain. -/
def referenced (k : Kernel) (t : EbTable) (c : Chain) : Bool :=
  Chain.all.any fun c' => ((k.chain t c').getD []).any fun r => r.target == .chain c

/-- The chain a rule jumps to, if any, exists. -/
def targetExists (k : Kernel) (t : EbTable) (r : Rule) : Bool :=
  match r.target with
  | .chain c => (k.chain t c).isSome
  | _ => true

/-- Rewrite the rules of an existing chain. -/
def editChain (k : Kernel) (t : EbTable) (c : Chain) (f : List Rule → Option (List Rule)) :
    Option Kernel :=
  match k.chain t c with
  | none => none
  | some rules => (f rules).map fun rules' => k.setChain t c (some rules')

/-- The effect of a command, if it can take effect. -/
def apply (k : Kernel) : Cmd → Option Kernel
  | .newChain t c =>
    match k.chain t c with
    | some _ => none
    | none => some (k.setChain t c (some []))
  | .deleteChain t c =>
    match k.chain t c with
    | none => none
    | some _ => if k.referenced t c then none else some (k.setChain t c none)
  | .flush t c => k.editChain t c fun _ => some []
  | .append t c r =>
    if k.targetExists t r then k.editChain t c fun rules => some (rules ++ [r]) else none
  | .insert t c r =>
    if k.targetExists t r then k.editChain t c fun rules => some (r :: rules) else none
  | .delete t c r =>
    k.editChain t c fun rules => if r ∈ rules then some (rules.erase r) else none
  | .newGretap name dev loc rem =>
    if k.hasLink name then none else some (k.addLink ⟨name, .gretap dev loc rem, none⟩)
  | .newVlan name parent vid =>
    if k.hasLink name || !k.hasLink parent then none
    else some (k.addLink ⟨name, .vlan parent vid, none⟩)
  | .setMaster name bridge =>
    if k.hasLink name && k.hasLink bridge then some (k.enslave name bridge) else none
  | .delLink name => if k.hasLink name then some (k.dropLink name) else none
  | .lookup _ => none

/-! ## What a command that takes effect does -/

variable {k k' : Kernel}

theorem chain_setChain (k : Kernel) (t : EbTable) (c : Chain) (rules : Option (List Rule))
    (t' : EbTable) (c' : Chain) :
    (k.setChain t c rules).chain t' c' = if t' = t ∧ c' = c then rules else k.chain t' c' := rfl

@[simp] theorem chain_setChain_self (k : Kernel) (t : EbTable) (c : Chain)
    (rules : Option (List Rule)) : (k.setChain t c rules).chain t c = rules := by
  simp [chain_setChain]

theorem hasLink_iff {name : CStr} : k.hasLink name = true ↔ ∃ l ∈ k.links, l.name = name := by
  simp [hasLink]

theorem hasLink_eq_false_iff {name : CStr} :
    k.hasLink name = false ↔ ∀ l ∈ k.links, l.name ≠ name := by
  simp [hasLink]

/-- What a link sits on exists, and sits on nothing that the link does not sit on. -/
structure Stacked (k : Kernel) : Prop where
  exist : ∀ l ∈ k.links, ∀ name ∈ l.kind.below, k.hasLink name = true
  closed : ∀ l ∈ k.links, ∀ o ∈ k.links, o.name ∈ l.kind.below → o.kind.below ⊆ l.kind.below

theorem hasLink_congr (h : k.links = k'.links) (name : CStr) : k.hasLink name = k'.hasLink name := by
  simp only [hasLink, h]

theorem mem_dropLink {name : CStr} {l : Link} :
    l ∈ (k.dropLink name).links ↔ l ∈ k.links ∧ l.name ≠ name ∧ name ∉ l.kind.below := by
  simp [dropLink]

theorem editChain_eq_some_iff {t : EbTable} {c : Chain} {f : List Rule → Option (List Rule)} :
    k.editChain t c f = some k' ↔ ∃ rules rules', k.chain t c = some rules ∧ f rules = some rules' ∧
      k' = k.setChain t c (some rules') := by
  simp only [editChain]
  cases k.chain t c with
  | none => simp
  | some rules =>
    simp only [Option.map_eq_some_iff, Option.some.injEq, exists_and_left, exists_eq_left']
    exact exists_congr fun rules' => and_congr_right fun _ => eq_comm

theorem apply_newChain_iff {t : EbTable} {c : Chain} : k.apply (.newChain t c) = some k' ↔
    k.chain t c = none ∧ k' = k.setChain t c (some []) := by
  simp only [apply]
  cases k.chain t c with
  | none => simp [eq_comm]
  | some rules => simp

theorem apply_deleteChain_iff {t : EbTable} {c : Chain} : k.apply (.deleteChain t c) = some k' ↔
    (k.chain t c).isSome = true ∧ k.referenced t c = false ∧ k' = k.setChain t c none := by
  simp only [apply]
  cases k.chain t c with
  | none => simp
  | some rules =>
    cases k.referenced t c with
    | false => simp [eq_comm]
    | true => simp

theorem apply_flush_iff {t : EbTable} {c : Chain} : k.apply (.flush t c) = some k' ↔
    (k.chain t c).isSome = true ∧ k' = k.setChain t c (some []) := by
  simp only [apply, editChain_eq_some_iff, Option.isSome_iff_exists]
  constructor
  · rintro ⟨rules, rules', hrules, heq, rfl⟩
    cases heq
    exact ⟨⟨rules, hrules⟩, rfl⟩
  · rintro ⟨⟨rules, hrules⟩, rfl⟩
    exact ⟨rules, [], hrules, rfl, rfl⟩

theorem apply_append_iff {t : EbTable} {c : Chain} {r : Rule} :
    k.apply (.append t c r) = some k' ↔ k.targetExists t r = true ∧ ∃ rules,
      k.chain t c = some rules ∧ k' = k.setChain t c (some (rules ++ [r])) := by
  simp only [apply]
  cases k.targetExists t r with
  | false => simp
  | true => simp [editChain_eq_some_iff]

theorem apply_insert_iff {t : EbTable} {c : Chain} {r : Rule} :
    k.apply (.insert t c r) = some k' ↔ k.targetExists t r = true ∧ ∃ rules,
      k.chain t c = some rules ∧ k' = k.setChain t c (some (r :: rules)) := by
  simp only [apply]
  cases k.targetExists t r with
  | false => simp
  | true => simp [editChain_eq_some_iff]

theorem apply_delete_iff {t : EbTable} {c : Chain} {r : Rule} :
    k.apply (.delete t c r) = some k' ↔ ∃ rules, k.chain t c = some rules ∧ r ∈ rules ∧
      k' = k.setChain t c (some (rules.erase r)) := by
  simp only [apply, editChain_eq_some_iff]
  constructor
  · rintro ⟨rules, rules', hrules, heq, rfl⟩
    split at heq
    · next hmem =>
      cases heq
      exact ⟨rules, hrules, hmem, rfl⟩
    · cases heq
  · rintro ⟨rules, hrules, hmem, rfl⟩
    exact ⟨rules, _, hrules, if_pos hmem, rfl⟩

theorem apply_newGretap_iff {name dev : CStr} {loc rem : InAddr} :
    k.apply (.newGretap name dev loc rem) = some k' ↔
      k.hasLink name = false ∧ k' = k.addLink ⟨name, .gretap dev loc rem, none⟩ := by
  simp only [apply]
  cases k.hasLink name with
  | false => simp [eq_comm]
  | true => simp

theorem apply_newVlan_iff {name parent : CStr} {vid : UInt16} :
    k.apply (.newVlan name parent vid) = some k' ↔
      k.hasLink name = false ∧ k.hasLink parent = true ∧
        k' = k.addLink ⟨name, .vlan parent vid, none⟩ := by
  simp only [apply]
  cases k.hasLink name with
  | true => simp
  | false =>
    cases k.hasLink parent with
    | true => simp [eq_comm]
    | false => simp

theorem apply_setMaster_iff {name bridge : CStr} :
    k.apply (.setMaster name bridge) = some k' ↔
      k.hasLink name = true ∧ k.hasLink bridge = true ∧ k' = k.enslave name bridge := by
  simp only [apply]
  cases k.hasLink name with
  | false => simp
  | true =>
    cases k.hasLink bridge with
    | true => simp [eq_comm]
    | false => simp

theorem apply_delLink_iff {name : CStr} :
    k.apply (.delLink name) = some k' ↔ k.hasLink name = true ∧ k' = k.dropLink name := by
  simp only [apply]
  cases k.hasLink name with
  | false => simp
  | true => simp [eq_comm]

theorem links_of_apply {cmd : Cmd} (hedits : cmd.edits.isSome = true)
    (h : k.apply cmd = some k') : k'.links = k.links := by
  cases cmd with
  | newChain => obtain ⟨-, rfl⟩ := apply_newChain_iff.mp h; rfl
  | deleteChain => obtain ⟨-, -, rfl⟩ := apply_deleteChain_iff.mp h; rfl
  | flush => obtain ⟨-, rfl⟩ := apply_flush_iff.mp h; rfl
  | append => obtain ⟨-, _, -, rfl⟩ := apply_append_iff.mp h; rfl
  | insert => obtain ⟨-, _, -, rfl⟩ := apply_insert_iff.mp h; rfl
  | delete => obtain ⟨_, -, -, rfl⟩ := apply_delete_iff.mp h; rfl
  | newGretap | newVlan | setMaster | delLink | lookup => cases hedits

theorem chain_of_apply {cmd : Cmd} {t : EbTable} {c : Chain} (hedits : cmd.edits ≠ some (t, c))
    (h : k.apply cmd = some k') : k'.chain t c = k.chain t c := by
  have hset : ∀ {t' c'} rules, some (t', c') ≠ some (t, c) →
      (k.setChain t' c' rules).chain t c = k.chain t c := by
    intro t' c' rules hne
    rw [chain_setChain, if_neg]
    rintro ⟨rfl, rfl⟩
    exact hne rfl
  cases cmd with
  | newChain => obtain ⟨-, rfl⟩ := apply_newChain_iff.mp h; exact hset _ hedits
  | deleteChain => obtain ⟨-, -, rfl⟩ := apply_deleteChain_iff.mp h; exact hset _ hedits
  | flush => obtain ⟨-, rfl⟩ := apply_flush_iff.mp h; exact hset _ hedits
  | append => obtain ⟨-, _, -, rfl⟩ := apply_append_iff.mp h; exact hset _ hedits
  | insert => obtain ⟨-, _, -, rfl⟩ := apply_insert_iff.mp h; exact hset _ hedits
  | delete => obtain ⟨_, -, -, rfl⟩ := apply_delete_iff.mp h; exact hset _ hedits
  | newGretap => obtain ⟨-, rfl⟩ := apply_newGretap_iff.mp h; rfl
  | newVlan => obtain ⟨-, -, rfl⟩ := apply_newVlan_iff.mp h; rfl
  | setMaster => obtain ⟨-, -, rfl⟩ := apply_setMaster_iff.mp h; rfl
  | delLink => obtain ⟨-, rfl⟩ := apply_delLink_iff.mp h; rfl
  | lookup => cases h

end Kernel

end Softgre
