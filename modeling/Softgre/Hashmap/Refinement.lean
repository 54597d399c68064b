-- SUMMARY: The hash map answers every sequence of calls as a finite map from key classes does.
import Softgre.Base.Transducer
import Softgre.Hashmap.Bundle
import Mathlib.Data.Finmap

/-!
# The hash map refines a finite map

The abstract map sends a class of equal keys to the key stored for it and the
value. Calls to the table and calls to the abstract map are answered alike, for
every sequence of calls from an empty map. Keys come back in slot order, so the
answer to `hashmap_keys` is compared as a multiset.
-/

namespace Softgre

variable {K V : Type}

/-- Keys up to the `equal` callback. -/
def KeyOps.setoid (ops : KeyOps K) : Setoid K where
  r a b := ops.equal a b = true
  iseqv := ⟨ops.equal_refl, ops.equal_symm, ops.equal_trans⟩

abbrev KeyOps.Class (ops : KeyOps K) : Type := Quotient ops.setoid

def KeyOps.cls (ops : KeyOps K) (key : K) : ops.Class := Quotient.mk ops.setoid key

theorem KeyOps.cls_eq_iff {ops : KeyOps K} {a b : K} :
    ops.cls a = ops.cls b ↔ ops.equal a b = true :=
  Quotient.eq

instance (ops : KeyOps K) : DecidableEq ops.Class :=
  @Quotient.decidableEq K ops.setoid fun a b => inferInstanceAs (Decidable (ops.equal a b = true))

namespace Table

variable {ops : KeyOps K} {t : Table K V}

/-- Live entries belong to different classes. -/
theorem Inv.nodupKeys_classes (hi : t.Inv ops) :
    (t.entries.map fun e => (⟨ops.cls e.1, e⟩ : (_ : ops.Class) × K × V)).NodupKeys := by
  rw [List.nodupKeys_iff_pairwise, List.pairwise_map]
  refine (Hashmap.pairwise_entries ⟨t, hi⟩).imp fun hne heq => ?_
  have hequal : ops.equal _ _ = true := KeyOps.cls_eq_iff.mp heq
  rw [hne] at hequal
  cases hequal

theorem Inv.mem_classes_iff (hi : t.Inv ops) {key k : K} {v : V} :
    (⟨ops.cls key, k, v⟩ : (_ : ops.Class) × K × V) ∈
        t.entries.map (fun e => ⟨ops.cls e.1, e⟩) ↔ t.stored ops key = some (k, v) := by
  rw [List.mem_map, hi.stored_eq_some_iff]
  constructor
  · rintro ⟨⟨k', v'⟩, he, heq⟩
    obtain ⟨hcls, hentry⟩ := Sigma.mk.inj heq
    cases eq_of_heq hentry
    obtain ⟨i, hash, hs⟩ := mem_entries_iff.mp he
    exact ⟨i, hash, hs, KeyOps.cls_eq_iff.mp hcls⟩
  · rintro ⟨i, hash, hs, hk⟩
    refine ⟨(k, v), mem_entries_iff.mpr ⟨i, hash, hs⟩, ?_⟩
    rw [KeyOps.cls_eq_iff.mpr hk]

end Table

/-- The calls of `hashmap.h` that a finite map explains. -/
inductive MapCall (K V : Type) where
  | insert (key : K) (value : V)
  | remove (key : K)
  | removeAll
  | lookup (key : K)
  | contains (key : K)
  | size
  | keys

/-- What a call returns. `value none` is `NULL`. -/
inductive MapAnswer (K V : Type) where
  | done
  | value (value : Option V)
  | flag (flag : Bool)
  | size (size : Nat)
  | keys (keys : Multiset K) (count : Nat)

def Table.call (ops : KeyOps K) (t : Table K V) : MapCall K V → Table K V × MapAnswer K V
  | .insert key value => ((t.insert ops key value).1, .done)
  | .remove key => ((t.remove ops key).1, .flag (t.remove ops key).2.isSome)
  | .removeAll => (t.removeAll.1, .done)
  | .lookup key => (t, .value (t.lookup ops key))
  | .contains key => (t, .flag (t.contains ops key))
  | .size => (t, .size t.size)
  | .keys => (t, .keys t.keys t.keys.length)

-- ---------------------------------------------------------------------------
-- The abstract map
-- ---------------------------------------------------------------------------

/-- Each present class with its stored key and its value. -/
abbrev FiniteMap (ops : KeyOps K) (V : Type) : Type := Finmap fun _ : ops.Class => K × V

namespace FiniteMap

variable {ops : KeyOps K}

/-- Insertion replaces the value of a present class and keeps its stored key. -/
def call (f : FiniteMap ops V) : MapCall K V → FiniteMap ops V × MapAnswer K V
  | .insert key value =>
    (f.insert (ops.cls key) (((f.lookup (ops.cls key)).map Prod.fst).getD key, value), .done)
  | .remove key => (f.erase (ops.cls key), .flag (decide (ops.cls key ∈ f)))
  | .removeAll => (∅, .done)
  | .lookup key => (f, .value ((f.lookup (ops.cls key)).map Prod.snd))
  | .contains key => (f, .flag (decide (ops.cls key ∈ f)))
  | .size => (f, .size f.keys.card)
  | .keys => (f, .keys (f.entries.map fun e => e.2.1) f.keys.card)

/-- The table holds, for each class, the entry that the map has for it. -/
structure Represents (t : Table K V) (f : FiniteMap ops V) : Prop where
  inv : t.Inv ops
  lookup : ∀ key, f.lookup (ops.cls key) = t.stored ops key

theorem Represents.new : Represents (Table.new : Table K V) (∅ : FiniteMap ops V) where
  inv := Table.new_inv ops
  lookup key := by
    symm
    rw [Finmap.lookup_empty, Option.eq_none_iff_forall_ne_some]
    rintro ⟨k, v⟩ hstored
    obtain ⟨i, h, hs, -⟩ := (Table.new_inv ops).stored_eq_some_iff.mp hstored
    rw [Table.slot_new] at hs
    cases hs

section

variable {t : Table K V} {f : FiniteMap ops V}

theorem Represents.mem (h : Represents t f) (key : K) :
    decide (ops.cls key ∈ f) = (t.stored ops key).isSome := by
  rw [Bool.eq_iff_iff, decide_eq_true_iff, ← Finmap.lookup_isSome, h.lookup]

theorem Represents.insert (h : Represents t f) (key : K) (value : V) :
    Represents (t.insert ops key value).1
      (f.insert (ops.cls key) (((f.lookup (ops.cls key)).map Prod.fst).getD key, value)) where
  inv := Table.insert_inv h.inv key value
  lookup key' := by
    rw [Table.stored_insert h.inv, h.lookup key]
    split
    · next heq => rw [KeyOps.cls_eq_iff.mpr heq, Finmap.lookup_insert]
    · next hne =>
      rw [Finmap.lookup_insert_of_ne _ fun heq => hne (KeyOps.cls_eq_iff.mp heq.symm), h.lookup]

theorem Represents.remove (h : Represents t f) (key : K) :
    Represents (t.remove ops key).1 (f.erase (ops.cls key)) where
  inv := Table.remove_inv h.inv key
  lookup key' := by
    rw [Table.stored_remove h.inv]
    split
    · next heq => rw [KeyOps.cls_eq_iff.mpr heq, Finmap.lookup_erase]
    · next hne =>
      rw [Finmap.lookup_erase_ne fun heq => hne (KeyOps.cls_eq_iff.mp heq.symm), h.lookup]

/-- The live entries of the table are the entries of the map, each once. -/
theorem Represents.entries (h : Represents t f) :
    f.entries = (t.entries.map fun e => ⟨ops.cls e.1, e⟩ : List ((_ : ops.Class) × K × V)) := by
  rw [Multiset.Nodup.ext f.nodup_entries (Multiset.coe_nodup.mpr h.inv.nodupKeys_classes.nodup)]
  rintro ⟨c, k, v⟩
  induction c using Quotient.ind with
  | _ key =>
    rw [← Finmap.lookup_eq_some_iff, Multiset.mem_coe]
    exact (Eq.congr_left (h.lookup key)).trans h.inv.mem_classes_iff.symm

theorem Represents.card (h : Represents t f) : f.keys.card = t.entries.length := by
  have hcard : f.keys.card = f.entries.card := Multiset.card_map _ _
  rw [hcard, h.entries, Multiset.coe_card, List.length_map]

theorem Represents.size (h : Represents t f) : t.size = f.keys.card := by
  rw [h.card]
  exact Hashmap.size_eq_length ⟨t, h.inv⟩

theorem Represents.keys (h : Represents t f) :
    (t.keys : Multiset K) = f.entries.map fun e => e.2.1 := by
  rw [h.entries, Multiset.map_coe, List.map_map]
  rfl

end

theorem call_simulates (ops : KeyOps K) :
    Base.Simulates (Table.call ops) call
      (Represents : Table K V → FiniteMap ops V → Prop) where
  step {t f} h i := by
    cases i with
    | insert key value => exact h.insert key value
    | remove key => exact h.remove key
    | removeAll => exact Represents.new
    | lookup | contains | size | keys => exact h
  answer {t f} h i := by
    cases i with
    | insert | removeAll => rfl
    | remove key => simp only [Table.call, call, h.mem, Table.remove_snd h.inv]
    | lookup key => simp only [Table.call, call, h.lookup, Table.lookup_eq_stored]
    | contains key =>
      simp only [Table.call, call, h.mem, h.inv.contains_eq, Table.lookup_eq_stored,
        Option.isSome_map]
    | size => simp only [Table.call, call, h.size]
    | keys =>
      have hlength : t.keys.length = t.entries.length := List.length_map _
      simp only [Table.call, call, hlength, h.keys, h.card]

end FiniteMap

/-- Whatever the callbacks, as long as equal keys hash alike, a table created by
    `hashmap_new` answers every sequence of calls as the finite map does. -/
theorem hashmap_refines_finite_map (ops : KeyOps K) (calls : List (MapCall K V)) :
    Base.answers (Table.call ops) Table.new calls =
      Base.answers FiniteMap.call (∅ : FiniteMap ops V) calls :=
  (FiniteMap.call_simulates ops).answers_eq FiniteMap.Represents.new calls

end Softgre
