-- SUMMARY: C strings, printf conversions, IPv4 addresses and byte order.
import Mathlib.Data.List.Basic
import Mathlib.Algebra.Order.Group.Nat

/-!
# Text and addresses

A C string is the list of its bytes before the terminator, one `Char` a byte.
`snprintf` into a buffer keeps what fits in front of the terminator.
-/

namespace Softgre

abbrev CStr := List Char

def ifNamSiz : Nat := 16

/-- `snprintf(buf, size, ...)`: the text that ends up in the buffer. -/
def snprintf (size : Nat) (text : CStr) : CStr := text.take (size - 1)

/-- The `%u` conversion. -/
def dec (n : Nat) : CStr := Nat.toDigits 10 n

/-- The `%02x` conversion of a byte. -/
def hex2 (b : UInt8) : CStr := [Nat.digitChar (b.toNat / 16), Nat.digitChar (b.toNat % 16)]

/-- `struct in_addr`: four bytes in network order, loaded as a little-endian
    host loads them. -/
structure InAddr where
  sAddr : UInt32
deriving DecidableEq, Repr

def ntohl (x : UInt32) : UInt32 :=
  (x <<< 24) ||| ((x <<< 8) &&& (0xff0000 : UInt32)) ||| ((x >>> 8) &&& (0xff00 : UInt32)) |||
    (x >>> 24)

/-- `memcpy` of four bytes into an `in_addr`. -/
def InAddr.ofBytes (a b c d : UInt8) : InAddr :=
  ⟨a.toUInt32 ||| (b.toUInt32 <<< 8) ||| (c.toUInt32 <<< 16) ||| (d.toUInt32 <<< 24)⟩

theorem dec_injective {i j : Nat} (h : dec i = dec j) : i = j := by
  have hi := Nat.ofDigitChars_ten_toDigits (n := i)
  rw [dec] at h
  rw [h, dec, Nat.ofDigitChars_ten_toDigits] at hi
  exact hi.symm

theorem length_dec_le {n k : Nat} (hk : 0 < k) (h : n < 10 ^ k) : (dec n).length ≤ k :=
  (Nat.length_toDigits_le_iff (by decide) hk).mpr h

theorem snprintf_of_length_lt {size : Nat} {text : CStr} (h : text.length < size) :
    snprintf size text = text :=
  List.take_of_length_le (by omega)

end Softgre
