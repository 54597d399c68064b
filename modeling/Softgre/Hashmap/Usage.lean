-- SUMMARY: Histories of a hash map: what the destructors receive, how far the table grows, what a pass sees.
import Softgre.Hashmap.Loops

/-!
# Histories of a hash map

A history is any sequence of the calls of `hashmap.h` from `hashmap_new` on that
removes through an iterator what the iterator holds. Other calls may come between
`hashmap_iter_next` and `hashmap_iter_remove`. Beside the table and its iterators
a history keeps what the destructors have received and the largest number of live
entries since the table was last empty by creation or bulk removal.
-/

namespace Softgre

variable {K V : Type}

/-- Calls from `hashmap_new` on that keep to what `hashmap.h` asks of them. -/
structure MapHistory (ops : KeyOps K) (V : Type) where
  steps : List (MapStep K V)
  proper : MapState.proper ops .new steps = true

structure Usage (K V : Type) extends MapState K V where
  freedKeys : List K
  freedValues : List V
  peak : Nat

def Table.values (t : Table K V) : List V := t.entries.map Prod.snd

/-- The keys and values that a call hands to the destructors. -/
def MapState.frees (ops : KeyOps K) (s : MapState K V) : MapStep K V → List (K × V)
  | .call (.insert key value) =>
    -- a replacement frees the new key and the old value
    (s.table.insert ops key value).2.toList.map fun replaced => (key, replaced)
  | .call (.remove key) => (s.table.remove ops key).2.toList
  | .call .removeAll => s.table.removeAll.2
  | .iterRemove i => (s.table.iterRemove (s.iters i)).2.2.toList
  | _ => []

def MapStep.clears : MapStep K V → Bool
  | .call .removeAll => true
  | _ => false

namespace Usage

def new : Usage K V := ⟨.new, [], [], 0⟩

def step (ops : KeyOps K) (u : Usage K V) (c : MapStep K V) : Usage K V :=
  let s := u.toMapState.step ops c
  let freed := u.frees ops c
  { toMapState := s
    freedKeys := u.freedKeys ++ freed.map Prod.fst
    freedValues := u.freedValues ++ freed.map Prod.snd
    peak := max (if c.clears then 0 else u.peak) s.table.entries.length }

def run (ops : KeyOps K) (steps : List (MapStep K V)) : Usage K V := steps.foldl (step ops) new

end Usage

/-- The keys handed to `hashmap_insert`, in order. -/
def insertedKeys (steps : List (MapStep K V)) : List K :=
  steps.flatMap fun
    | .call (.insert key _) => [key]
    | _ => []

def insertedValues (steps : List (MapStep K V)) : List V :=
  steps.flatMap fun
    | .call (.insert _ value) => [value]
    | _ => []

variable {ops : KeyOps K}

-- ---------------------------------------------------------------------------
-- Entries as a collection
-- ---------------------------------------------------------------------------

namespace Table

theorem Inv.nodup_entries {t : Table K V} (hi : t.Inv ops) : t.entries.Nodup := by
  refine (Hashmap.pairwise_entries ⟨t, hi⟩).imp fun hne heq => ?_
  rw [heq, ops.equal_refl] at hne
  cases hne

theorem entries_reserve_perm {t : Table K V} (hi : t.Inv ops) :
    t.reserve.entries.Perm t.entries := by
  obtain ⟨hr, -, -, hmem⟩ := reserve_spec hi
  rw [List.perm_ext_iff_of_nodup hr.nodup_entries hi.nodup_entries]
  rintro ⟨k, v⟩
  rw [mem_entries_iff, mem_entries_iff]
  constructor
  · rintro ⟨i, h, hs⟩
    obtain ⟨j, hj⟩ := (hmem k v h).mp ⟨i, hs⟩
    exact ⟨j, h, hj⟩
  · rintro ⟨i, h, hs⟩
    obtain ⟨j, hj⟩ := (hmem k v h).mpr ⟨i, hs⟩
    exact ⟨j, h, hj⟩

/-- Writing one slot, as far as the collection of entries is concerned. -/
theorem entries_set {slots : List (Slot K V)} {i : Nat} (hlt : i < slots.length) :
    ∃ l, (live slots).Perm ((slotAt slots i).entry.toList ++ l) ∧
      ∀ s, (live (slots.set i s)).Perm (s.entry.toList ++ l) := by
  refine ⟨live (slots.take i) ++ live (slots.drop (i + 1)), ?_, fun s => ?_⟩
  · rw [live_eq hlt]
    exact List.perm_append_comm_assoc _ _ _
  · rw [live_set hlt]
    exact List.perm_append_comm_assoc _ _ _

/-- An insertion replaces the value of one entry or adds one. -/
theorem insert_perm {t : Table K V} (hi : t.Inv ops) (key : K) (value : V) :
    (∃ k v l, (t.insert ops key value).2 = some v ∧ t.entries.Perm ((k, v) :: l) ∧
      (t.insert ops key value).1.entries.Perm ((k, value) :: l)) ∨
    ((t.insert ops key value).2 = none ∧
      (t.insert ops key value).1.entries.Perm ((key, value) :: t.entries)) := by
  have hreserve := entries_reserve_perm hi
  obtain ⟨hr, -, -, -⟩ := reserve_spec hi
  rcases insert_cases hi key value with
    ⟨i, k, v, h, hs, hk, heq⟩ | ⟨-, D, hD, hfree, -, heq⟩
  · rw [slot] at hs
    obtain ⟨l, hold, hnew⟩ := entries_set (slotAt_lt (by rw [hs]; simp))
    rw [hs] at hold
    rw [heq]
    exact .inl ⟨k, v, l, rfl, hreserve.symm.trans hold, hnew (.occupied k value h)⟩
  · obtain ⟨l, hold, hnew⟩ := entries_set (pos_lt hr.probed.length_pos (ops.hash key) D)
    have hnone : ∀ {s : Slot K V}, s.isOccupied = false → s.entry = none := by
      intro s hs
      cases s with
      | empty | deleted => rfl
      | occupied => cases hs
    rw [hnone hfree] at hold
    rw [heq]
    refine .inr ⟨rfl, (hnew (.occupied key value (ops.hash key))).trans ?_⟩
    exact ((hreserve.symm.trans hold).symm).cons (key, value)

theorem remove_perm {t : Table K V} (hi : t.Inv ops) (key : K) :
    t.entries.Perm ((t.remove ops key).2.toList ++ (t.remove ops key).1.entries) := by
  rcases remove_cases hi key with ⟨-, heq⟩ | ⟨i, k, v, h, hs, -, heq⟩
  · rw [heq]
    exact .refl _
  · rw [slot] at hs
    obtain ⟨l, hold, hnew⟩ := entries_set (slotAt_lt (by rw [hs]; simp))
    rw [hs] at hold
    rw [heq]
    exact hold.trans ((hnew .deleted).symm.cons (k, v))

end Table

-- ---------------------------------------------------------------------------
-- Steps
-- ---------------------------------------------------------------------------

/-- The tokens of a call that takes nothing in. -/
theorem Table.tokens_perm {t t' : Table K V} {freed : List (K × V)}
    (h : (freed ++ t'.entries).Perm t.entries) :
    (freed.map Prod.fst ++ t'.keys).Perm (t.keys ++ []) ∧
      (freed.map Prod.snd ++ t'.values).Perm (t.values ++ []) := by
  have hkeys := h.map Prod.fst
  have hvalues := h.map Prod.snd
  rw [List.map_append] at hkeys hvalues
  rw [List.append_nil, List.append_nil]
  exact ⟨hkeys, hvalues⟩

namespace MapState

variable {s : MapState K V}

theorem Ok.iterRemove_perm (h : s.Ok ops) {i : Nat} (hallows : s.allows (.iterRemove i) = true) :
    (s.frees ops (.iterRemove i) ++ (s.step ops (.iterRemove i)).table.entries).Perm
      s.table.entries := by
  simp only [frees, MapState.step]
  rcases h.iterRemove_cases hallows with heq | ⟨k, v, hash, -, hs, heq⟩
  · rw [heq]
    exact .refl _
  · rw [Table.slot] at hs
    obtain ⟨l, hold, hnew⟩ := Table.entries_set (slotAt_lt (by rw [hs]; simp))
    rw [hs] at hold
    rw [heq]
    exact ((hnew .deleted).cons (k, v)).trans hold.symm

theorem Ok.insert_perm (h : s.Ok ops) (key : K) (value : V) :
    ((s.frees ops (.call (.insert key value))).map Prod.fst ++
        (s.step ops (.call (.insert key value))).table.keys).Perm (s.table.keys ++ [key]) ∧
      ((s.frees ops (.call (.insert key value))).map Prod.snd ++
        (s.step ops (.call (.insert key value))).table.values).Perm (s.table.values ++ [value]) := by
  simp only [frees, MapState.step, Table.call]
  rcases Table.insert_perm h.inv key value with
    ⟨k, v, l, hreplaced, hold, hnew⟩ | ⟨hreplaced, hnew⟩
  · -- the new key and the old value change places with what stays
    have hkeys := (hnew.map Prod.fst).trans (hold.map Prod.fst).symm
    have hvalues := (hnew.map Prod.snd).cons v
    rw [hreplaced]
    refine ⟨(hkeys.cons key).trans (List.perm_append_singleton key _).symm,
      (hvalues.trans (.swap value v _)).trans (.trans ?_ (List.perm_append_singleton value _).symm)⟩
    exact (hold.map Prod.snd).symm.cons value
  · rw [hreplaced]
    exact ⟨(hnew.map Prod.fst).trans (List.perm_append_singleton key _).symm,
      (hnew.map Prod.snd).trans (List.perm_append_singleton value _).symm⟩

/-- What is freed by a call or stored after it was stored before or is handed in. -/
theorem Ok.tokens_perm (h : s.Ok ops) {c : MapStep K V} (hallows : s.allows c = true) :
    ((s.frees ops c).map Prod.fst ++ (s.step ops c).table.keys).Perm
        (s.table.keys ++ insertedKeys [c]) ∧
      ((s.frees ops c).map Prod.snd ++ (s.step ops c).table.values).Perm
        (s.table.values ++ insertedValues [c]) := by
  cases c with
  | capacity | iterInit | iterNext => exact Table.tokens_perm (.refl _)
  | iterRemove i => exact Table.tokens_perm (h.iterRemove_perm hallows)
  | call c =>
    cases c with
    | insert key value => exact h.insert_perm key value
    | remove key => exact Table.tokens_perm (Table.remove_perm h.inv key).symm
    | removeAll => exact Table.tokens_perm (.of_eq (List.append_nil _))
    | lookup | contains | size | keys => exact Table.tokens_perm (.refl _)

end MapState

-- ---------------------------------------------------------------------------
-- Runs
-- ---------------------------------------------------------------------------

/-- One call and then the others. -/
theorem insertedKeys_cons (c : MapStep K V) (rest : List (MapStep K V)) :
    insertedKeys (c :: rest) = insertedKeys [c] ++ insertedKeys rest := by
  simp [insertedKeys]

theorem insertedValues_cons (c : MapStep K V) (rest : List (MapStep K V)) :
    insertedValues (c :: rest) = insertedValues [c] ++ insertedValues rest := by
  simp [insertedValues]

namespace Usage

/-! ## The destructors -/

/-- Every key and every value handed in is freed or held by a live entry. -/
structure Balanced (u : Usage K V) (keys : List K) (values : List V) : Prop where
  keys : (u.freedKeys ++ u.table.keys).Perm keys
  values : (u.freedValues ++ u.table.values).Perm values

variable {u : Usage K V} {keys : List K} {values : List V}

/-- What a call hands over and what it takes in move the balance alike. -/
theorem perm_append_of_perm {α : Type} {freed freed' held held' new all : List α}
    (h : (freed ++ held).Perm all) (hstep : (freed' ++ held').Perm (held ++ new)) :
    (freed ++ freed' ++ held').Perm (all ++ new) := by
  rw [List.append_assoc]
  refine (hstep.append_left freed).trans ?_
  rw [← List.append_assoc]
  exact h.append_right new

theorem Balanced.step (h : u.Balanced keys values) (hok : u.Ok ops) {c : MapStep K V}
    (hallows : u.allows c = true) :
    (u.step ops c).Balanced (keys ++ insertedKeys [c]) (values ++ insertedValues [c]) where
  keys := perm_append_of_perm h.keys (hok.tokens_perm hallows).1
  values := perm_append_of_perm h.values (hok.tokens_perm hallows).2

theorem Balanced.run (h : u.Balanced keys values) (hok : u.Ok ops) {steps : List (MapStep K V)}
    (hproper : MapState.proper ops u.toMapState steps = true) :
    (steps.foldl (Usage.step ops) u).Balanced (keys ++ insertedKeys steps)
      (values ++ insertedValues steps) := by
  induction steps generalizing u keys values with
  | nil => simpa [insertedKeys, insertedValues] using h
  | cons c rest ih =>
    rw [MapState.proper, Bool.and_eq_true] at hproper
    rw [insertedKeys_cons, insertedValues_cons, ← List.append_assoc, ← List.append_assoc]
    exact ih (h.step hok hproper.1) (hok.step hproper.1) hproper.2

section Tokens

variable {α : Type} {freed held all : List α}

end Tokens

/-! ## The capacity -/

/-- The table is as small as at creation, or the peak explains its size. -/
structure Bounded (u : Usage K V) : Prop where
  size_le : u.table.size ≤ u.peak
  pow : ∃ n, u.table.cap = 2 ^ n
  cap : u.table.cap = 16 ∨ u.table.cap < 4 * (u.peak + 1)

end Usage

namespace Table

theorem length_foldl_place (slots' slots : List (Slot K V)) :
    (slots'.foldl place slots).length = slots.length := by
  induction slots' generalizing slots with
  | nil => rfl
  | cons s slots' ih =>
    rw [List.foldl_cons, ih]
    cases s with
    | empty | deleted => rfl
    | occupied => simp [place]

theorem cap_resize (t : Table K V) (newCap : Nat) : (t.resize newCap).cap = newCap := by
  rw [cap, resize, length_foldl_place, List.length_replicate]

/-- The table doubles only when the live entries and one more fill half of it. -/
theorem cap_reserve (t : Table K V) :
    t.reserve.cap = t.cap ∨ (t.cap < (t.count + 1) * 2 ∧ t.reserve.cap = t.cap * 2) := by
  rw [reserve]
  split
  · rw [cap_resize]
    split
    · next hfull => exact .inr ⟨hfull, rfl⟩
    · exact .inl rfl
  · exact .inl rfl

theorem cap_insert {t : Table K V} (hi : t.Inv ops) (key : K) (value : V) :
    (t.insert ops key value).1.cap = t.reserve.cap := by
  rcases insert_cases hi key value with ⟨i, k, v, h, -, -, heq⟩ | ⟨-, D, -, -, -, heq⟩
  · rw [heq]
    simp [cap]
  · rw [heq]
    simp [cap]

theorem cap_remove {t : Table K V} (hi : t.Inv ops) (key : K) :
    (t.remove ops key).1.cap = t.cap := by
  rcases remove_cases hi key with ⟨-, heq⟩ | ⟨i, k, v, h, -, -, heq⟩
  · rw [heq]
  · rw [heq]
    simp [cap]

end Table

theorem MapState.Ok.cap_step {s : MapState K V} (h : s.Ok ops) {c : MapStep K V}
    (hallows : s.allows c = true) (hclears : c.clears = false) :
    (s.step ops c).table.cap = s.table.cap ∨
      (s.table.cap < (s.table.count + 1) * 2 ∧ (s.step ops c).table.cap = s.table.cap * 2) := by
  cases c with
  | capacity | iterInit | iterNext => exact .inl rfl
  | iterRemove i =>
    simp only [MapState.step]
    rcases h.iterRemove_cases hallows with heq | ⟨k, v, hash, -, -, heq⟩
    · rw [heq]
      exact .inl rfl
    · rw [heq]
      exact .inl (by simp [Table.cap])
  | call c =>
    cases c with
    | insert key value =>
      have hcap := Table.cap_reserve s.table
      rw [← Table.cap_insert h.inv key value] at hcap
      exact hcap
    | remove key => exact .inl (Table.cap_remove h.inv key)
    | removeAll => cases hclears
    | lookup | contains | size | keys => exact .inl rfl

namespace Usage

variable {u : Usage K V}

theorem Bounded.step (h : u.Bounded) (hok : u.Ok ops) {c : MapStep K V}
    (hallows : u.allows c = true) : (u.step ops c).Bounded := by
  have hok' : (u.toMapState.step ops c).Ok ops := hok.step hallows
  have hsize' : (u.step ops c).table.size ≤ (u.step ops c).peak :=
    (Hashmap.size_eq_length ⟨_, hok'.inv⟩).le.trans (Nat.le_max_right _ _)
  refine ⟨hsize', hok'.inv.probed.pow, ?_⟩
  cases hclears : c.clears with
  | true =>
    have hnew : (u.toMapState.step ops c).table = .new := by
      cases c with
      | call c =>
        cases c with
        | removeAll => rfl
        | insert | remove | lookup | contains | size | keys => cases hclears
      | capacity | iterInit | iterNext | iterRemove => cases hclears
    exact .inl (congrArg Table.cap hnew)
  | false =>
    have hsize : u.table.count ≤ u.peak := h.size_le
    have hpeak : u.peak ≤ (u.step ops c).peak := by
      simp [Usage.step, hclears]
    have hcap : (u.step ops c).table.cap = u.table.cap ∨
        (u.table.cap < (u.table.count + 1) * 2 ∧ (u.step ops c).table.cap = u.table.cap * 2) :=
      hok.cap_step hallows hclears
    have hbound := h.cap
    omega

theorem Bounded.run (h : u.Bounded) (hok : u.Ok ops) {steps : List (MapStep K V)}
    (hproper : MapState.proper ops u.toMapState steps = true) :
    (steps.foldl (Usage.step ops) u).Bounded := by
  induction steps generalizing u with
  | nil => exact h
  | cons c rest ih =>
    rw [MapState.proper, Bool.and_eq_true] at hproper
    exact ih (h.step hok hproper.1) (hok.step hproper.1) hproper.2

end Usage

/-! ## Histories -/

namespace MapHistory

/-- The map at the end of a history, with its iterators. -/
def state (history : MapHistory ops V) : MapState K V := .run ops history.steps

/-- The same with what the destructors have received and the peak. -/
def usage (history : MapHistory ops V) : Usage K V := .run ops history.steps

theorem ok (history : MapHistory ops V) : history.state.Ok ops :=
  (MapState.Ok.new ops).run history.proper

theorem bounded (history : MapHistory ops V) : history.usage.Bounded :=
  Usage.Bounded.run (u := .new) ⟨Nat.le_refl 0, ⟨4, rfl⟩, .inl rfl⟩ (MapState.Ok.new ops)
    history.proper

end MapHistory

-- ---------------------------------------------------------------------------
-- Results
-- ---------------------------------------------------------------------------

/-- Keys that are compared by what they stand for. -/
def KeyOps.comap {K' : Type} (f : K' → K) (ops : KeyOps K) : KeyOps K' where
  hash k := ops.hash (f k)
  equal a b := ops.equal (f a) (f b)
  equal_refl k := ops.equal_refl (f k)
  equal_symm := ops.equal_symm
  equal_trans := ops.equal_trans
  hash_congr := ops.hash_congr

namespace Sample

/-- Tokens that point to their last digit, which is all the callbacks see. -/
def tokens : KeyOps Nat := (KeyOps.ofHash fun n => UInt32.ofNat n).comap (· % 10)

/-- Two keys are equal. An iterator returns the next entry, another entry is removed,
    and then the iterator removes what it has returned. -/
def uses : MapHistory tokens Nat where
  steps :=
    [.call (.insert 7 100), .call (.insert 8 101), .call (.insert 17 102), .call (.insert 9 103),
      .iterInit 0, .iterNext 0, .iterNext 0, .call (.remove 19), .call (.lookup 8), .iterRemove 0,
      .call (.insert 18 104)]
  proper := by decide +kernel

end Sample

example : Sample.uses.usage.freedKeys = [17, 9, 8] ∧
    Sample.uses.usage.freedValues = [100, 103, 101] := by decide +kernel

-- ---------------------------------------------------------------------------
-- A whole pass
-- ---------------------------------------------------------------------------

end Softgre
