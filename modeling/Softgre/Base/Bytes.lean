-- SUMMARY: Byte strings: big-endian 16-bit words and cutting off a fixed number of bytes.
import Mathlib.Data.List.Basic
import Mathlib.Data.UInt

/-!
# Byte strings
-/

namespace Base

-- ---------------------------------------------------------------------------
-- Big-endian words
-- ---------------------------------------------------------------------------

/-- The 16-bit value of two bytes in network order. -/
def word (hi lo : UInt8) : UInt16 := (hi.toUInt16 <<< 8) ||| lo.toUInt16

/-- A 16-bit value in network order. -/
def be16 (x : UInt16) : List UInt8 := [(x >>> 8).toUInt8, x.toUInt8]

theorem toNat_word (hi lo : UInt8) : (word hi lo).toNat = hi.toNat * 256 + lo.toNat := by
  have hhi : hi.toNat < 256 := hi.toNat_lt
  have hlo : lo.toNat < 256 := lo.toNat_lt
  have hshift : hi.toNat <<< 8 = hi.toNat * 256 := Nat.shiftLeft_eq _ _
  have hfit : hi.toNat * 256 < 65536 := by omega
  rw [word, UInt16.toNat_or, UInt16.toNat_shiftLeft, UInt8.toNat_toUInt16, UInt8.toNat_toUInt16]
  change (hi.toNat <<< 8 % 65536) ||| lo.toNat = _
  rw [hshift, Nat.mod_eq_of_lt hfit, ← hshift,
    ← Nat.shiftLeft_add_eq_or_of_lt (show lo.toNat < 2 ^ 8 from hlo)]

theorem toNat_be16 (x : UInt16) :
    ((x >>> 8).toUInt8).toNat = x.toNat / 256 ∧ (x.toUInt8).toNat = x.toNat % 256 := by
  have hx : x.toNat < 65536 := x.toNat_lt
  refine ⟨?_, UInt16.toNat_toUInt8 x⟩
  rw [UInt16.toNat_toUInt8, UInt16.toNat_shiftRight]
  change x.toNat >>> 8 % 256 = _
  rw [Nat.shiftRight_eq_div_pow]
  omega

@[simp] theorem word_be16 (x : UInt16) : word (x >>> 8).toUInt8 x.toUInt8 = x := by
  rw [← UInt16.toNat_inj, toNat_word, (toNat_be16 x).1, (toNat_be16 x).2]
  omega

@[simp] theorem be16_word (hi lo : UInt8) : be16 (word hi lo) = [hi, lo] := by
  have hlo : lo.toNat < 256 := lo.toNat_lt
  obtain ⟨hfst, hsnd⟩ := toNat_be16 (word hi lo)
  rw [toNat_word] at hfst hsnd
  rw [be16, List.cons.injEq, List.cons.injEq]
  refine ⟨UInt8.toNat_inj.mp ?_, UInt8.toNat_inj.mp ?_, rfl⟩
  · rw [hfst]; omega
  · rw [hsnd]; omega

@[simp] theorem length_be16 (x : UInt16) : (be16 x).length = 2 := rfl

theorem be16_injective {x y : UInt16} (h : be16 x = be16 y) : x = y := by
  rw [be16, be16, List.cons.injEq, List.cons.injEq] at h
  rw [← word_be16 x, h.1, h.2.1, word_be16]

theorem be16_append_inj {x y : UInt16} {l l' : List UInt8} :
    be16 x ++ l = be16 y ++ l' ↔ x = y ∧ l = l' := by
  constructor
  · intro h
    obtain ⟨hword, htail⟩ := List.append_inj h rfl
    exact ⟨be16_injective hword, htail⟩
  · rintro ⟨rfl, rfl⟩
    rfl

theorem be16_append_eq_iff {x : UInt16} {a b : UInt8} {l l' : List UInt8} :
    be16 x ++ l = a :: b :: l' ↔ x = word a b ∧ l = l' := by
  rw [← be16_append_inj, be16_word]
  rfl

-- ---------------------------------------------------------------------------
-- Cutting
-- ---------------------------------------------------------------------------

section Cut

variable {α : Type} {l : List α} {n : Nat}

theorem toList_append_eq_iff {v w : Vector α n} {x y : List α} :
    v.toList ++ x = w.toList ++ y ↔ v = w ∧ x = y := by
  constructor
  · intro h
    obtain ⟨hvec, htail⟩ := List.append_inj h (by rw [v.length_toList, w.length_toList])
    exact ⟨Vector.toList_inj.mp hvec, htail⟩
  · rintro ⟨rfl, rfl⟩
    rfl

theorem exists_vector {k : Nat} (h : n + k ≤ l.length) :
    ∃ (v : Vector α k) (rest : List α), l = v.toList ++ rest ∧ n ≤ rest.length :=
  ⟨⟨(l.take k).toArray, by simp; omega⟩, l.drop k, by simp, by simp; omega⟩

theorem exists_two (h : n + 2 ≤ l.length) :
    ∃ a b rest, l = a :: b :: rest ∧ n ≤ rest.length := by
  match l, h with
  | a :: b :: rest, h => exact ⟨a, b, rest, rfl, by simpa using h⟩

theorem exists_four (h : n + 4 ≤ l.length) :
    ∃ a b c d rest, l = a :: b :: c :: d :: rest ∧ n ≤ rest.length := by
  match l, h with
  | a :: b :: c :: d :: rest, h => exact ⟨a, b, c, d, rest, rfl, by simpa using h⟩

/-- A string of whole words. -/
theorem exists_words (h : l.length = 4 * n) :
    ∃ words : List (Vector α 4), words.length = n ∧ words.flatMap Vector.toList = l := by
  induction n generalizing l with
  | zero => exact ⟨[], rfl, (List.length_eq_zero_iff.mp h).symm⟩
  | succ n ih =>
    obtain ⟨a, b, c, d, rest, rfl, -⟩ := exists_four (l := l) (n := 0) (by omega)
    obtain ⟨words, hlength, hwords⟩ := ih (l := rest) (by simp at h; omega)
    exact ⟨#v[a, b, c, d] :: words, by simp [hlength], by rw [List.flatMap_cons, hwords]; rfl⟩

end Cut

end Base
