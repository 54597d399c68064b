-- SUMMARY: The growing texts of `compat.c` on the memory they own.
import Softgre.Base.CText
import Softgre.Compat

/-!
# Growing texts

A `struct strbuf` owns memory of the allocator and doubles it when a text no longer
fits. Sizes are those of a 64-bit host and wrap around, and every access is checked, so
that a text which is written behind the end of its memory has no result.
-/

namespace Softgre

open Base CText

-- ---------------------------------------------------------------------------
-- Memory
-- ---------------------------------------------------------------------------

/-- What the allocator hands out: as many characters as it was asked for, whatever they
    are. A request that it cannot meet ends the process. -/
structure Malloc where
  fresh : Nat → Buffer
  length_fresh : ∀ n, (fresh n).length = n

attribute [simp] Malloc.length_fresh

/-- `xrealloc`. -/
def xrealloc (M : Malloc) (mem : Buffer) (size : Nat) : Buffer :=
  mem.take size ++ M.fresh (size - mem.length)

/-- `mem[i] = c`. -/
def put (mem : Buffer) (i : Nat) (c : Char) : Option Buffer :=
  if i < mem.length then some (mem.set i c) else none

/-- `memcpy(mem + i, s, n)`. -/
def memcpy (mem : Buffer) (i : Nat) (s : Buffer) (n : Nat) : Option Buffer :=
  if n ≤ s.length ∧ i + n ≤ mem.length then
    some (mem.take i ++ (s.take n ++ mem.drop (i + n)))
  else none

/-- `strlen` of a text in other memory. -/
def strlenOf (s : Buffer) : Option Nat := (untilNul s).map List.length

/-- `str_lcpy`. -/
def strLcpy (dst src : Buffer) (size : Nat) : Option Buffer := do
  let len ← strlenOf src
  if size = 0 then return dst
  else
    let copy := if len < size - 1 then len else size - 1
    put (← memcpy dst 0 src copy) copy '\x00'

/-- The values of a `size_t`. -/
def sizeModulus : Nat := 2 ^ 64

/-- The largest `int`, which is what `vsnprintf` returns at most. -/
def intMax : Nat := 2 ^ 31 - 1

-- ---------------------------------------------------------------------------
-- strbuf
-- ---------------------------------------------------------------------------

structure Strbuf where
  str : Buffer
  len : Nat
  cap : Nat
deriving DecidableEq, Repr

/-- `while (want < need) want *= 2`. -/
def doubling (need : Nat) : Nat → Nat → Option Nat
  | 0, _ => none
  | fuel + 1, want =>
    if want < need then doubling need fuel (want * 2 % sizeModulus) else some want

def strbufReserve (M : Malloc) (b : Strbuf) (extra : Nat) : Option Strbuf :=
  let need := (b.len + extra + 1) % sizeModulus
  if need ≤ b.cap then some b
  else do
    -- a capacity that is a power of two can be doubled 63 times at most
    let want ← doubling need 65 b.cap
    return { b with str := xrealloc M b.str want, cap := want }

def strbufAppendLen (M : Malloc) (b : Strbuf) (s : Buffer) (n : Nat) : Option Strbuf := do
  let b ← strbufReserve M b n
  let str ← memcpy b.str b.len s n
  let len := (b.len + n) % sizeModulus
  return ⟨← put str len '\x00', len, b.cap⟩

def strbufAppend (M : Malloc) (b : Strbuf) (s : Buffer) : Option Strbuf := do
  strbufAppendLen M b s (← strlenOf s)

def strbufAppendChar (M : Malloc) (b : Strbuf) (c : Char) : Option Strbuf :=
  strbufAppendLen M b [c] 1

/-- `strbuf_appendf`, for a format and arguments that print as `text`. -/
def strbufAppendf (M : Malloc) (b : Strbuf) (text : CStr) : Option Strbuf :=
  if 0 < text.length ∧ text.length ≤ intMax then do
    let b ← strbufReserve M b text.length
    let str ← memcpy b.str b.len (text ++ ['\x00']) (text.length + 1)
    return ⟨str, (b.len + text.length) % sizeModulus, b.cap⟩
  else some b

def strbufNew (M : Malloc) (init : Option Buffer) : Option Strbuf := do
  let b : Strbuf := ⟨← put (M.fresh 64) 0 '\x00', 0, 64⟩
  match init with
  | none => return b
  | some s => strbufAppend M b s

def strbufAssign (M : Malloc) (b : Strbuf) (s : Buffer) : Option Strbuf := do
  strbufAppend M ⟨← put b.str 0 '\x00', 0, b.cap⟩ s

-- ---------------------------------------------------------------------------
-- What a strbuf holds
-- ---------------------------------------------------------------------------

/-- The text stands in the memory with its terminator, and the memory is at most twice
    what the longest text so far, of `peak` characters, has needed. -/
structure Strbuf.Holds (b : Strbuf) (text : CStr) (peak : Nat) : Prop where
  size : b.str.length = b.cap
  len_eq : b.len = text.length
  stands : At b.str 0 text
  power : ∃ e, 6 ≤ e ∧ e ≤ 63 ∧ b.cap = 2 ^ e
  peak_ge : text.length ≤ peak
  grown : b.cap = 64 ∨ b.cap < 2 * (peak + 1)

variable {M : Malloc} {b : Strbuf} {text s : CStr} {peak : Nat}

theorem mod_sizeModulus {n : Nat} (h : n ≤ 2 ^ 63) : n % sizeModulus = n :=
  Nat.mod_eq_of_lt (h.trans_lt (by decide))

/-- Doubling does not wrap around before it has reached what is needed. -/
theorem doubling_spec {need e fuel : Nat} (hneed : need ≤ 2 ^ 63) (he : e ≤ 63)
    (hfuel : 63 - e < fuel) :
    ∃ e', e ≤ e' ∧ e' ≤ 63 ∧ doubling need fuel (2 ^ e) = some (2 ^ e') ∧ need ≤ 2 ^ e' ∧
      (e' = e ∨ 2 ^ e' < 2 * need) := by
  induction fuel generalizing e with
  | zero => exact absurd hfuel (Nat.not_lt_zero _)
  | succ fuel ih =>
    rw [doubling]
    by_cases hlt : 2 ^ e < need
    · have hlt63 : e < 63 := (Nat.pow_lt_pow_iff_right (by decide)).mp (hlt.trans_le hneed)
      have hnext : 2 ^ e * 2 % sizeModulus = 2 ^ (e + 1) := by
        rw [← Nat.pow_succ]
        exact mod_sizeModulus (Nat.pow_le_pow_right (by decide) hlt63)
      rw [if_pos hlt, hnext]
      obtain ⟨e', hle, hmax, hrun, henough, hbound⟩ := ih (e := e + 1) hlt63 (by omega)
      refine ⟨e', by omega, hmax, hrun, henough, .inr ?_⟩
      rcases hbound with rfl | hbound
      · rw [Nat.pow_succ]
        omega
      · exact hbound
    · exact ⟨e, Nat.le_refl _, he, if_neg hlt, by omega, .inl rfl⟩

/-- The text is still there, with room for what is to be added and a terminator. -/
theorem strbufReserve_holds {extra : Nat} (h : b.Holds text peak)
    (hfits : text.length + extra < 2 ^ 63) :
    ∃ b', strbufReserve M b extra = some b' ∧ b'.Holds text (max peak (text.length + extra)) ∧
      text.length + extra < b'.cap := by
  have hneed : (b.len + extra + 1) % sizeModulus = text.length + extra + 1 := by
    rw [h.len_eq]
    exact mod_sizeModulus hfits
  obtain ⟨e, he6, he, hcap⟩ := h.power
  have hgrown : b.cap = 64 ∨ b.cap < 2 * (max peak (text.length + extra) + 1) := by
    rcases h.grown with hcap64 | hlt
    · exact .inl hcap64
    · exact .inr (hlt.trans_le (by omega))
  simp only [strbufReserve, hneed]
  by_cases hroom : text.length + extra + 1 ≤ b.cap
  · rw [if_pos hroom]
    exact ⟨b, rfl, ⟨h.size, h.len_eq, h.stands, h.power, by omega, hgrown⟩, hroom⟩
  · have hmost : text.length + extra + 1 ≤ 2 ^ 63 := hfits
    obtain ⟨e', hle, hmax, hrun, henough, hbound⟩ :=
      doubling_spec hmost he (show 63 - e < 65 by omega)
    have hlarger : b.str.length ≤ 2 ^ e' := by
      rw [h.size, hcap]
      exact Nat.pow_le_pow_right (by decide) hle
    rw [if_neg hroom, hcap, hrun]
    refine ⟨_, rfl, ⟨?_, h.len_eq, ?_, ⟨e', by omega, hmax, rfl⟩, by omega, ?_⟩, henough⟩
    · show (xrealloc M b.str (2 ^ e')).length = 2 ^ e'
      rw [xrealloc, List.length_append, List.length_take, Malloc.length_fresh]
      omega
    · show At (xrealloc M b.str (2 ^ e')) 0 text
      rw [xrealloc, List.take_of_length_le hlarger]
      exact h.stands.append _
    · rcases hbound with rfl | hbound
      · rw [hcap] at hgrown
        exact hgrown
      · exact .inr (hbound.trans_le (by omega))

-- ---------------------------------------------------------------------------
-- Appending
-- ---------------------------------------------------------------------------

theorem put_append (s : Buffer) (c d : Char) (rest : Buffer) :
    put (s ++ c :: rest) s.length d = some (s ++ d :: rest) := by
  rw [put, if_pos (by simp), List.set_append_right _ _ (Nat.le_refl _), Nat.sub_self,
    List.set_cons_zero]

/-- A copy behind the text writes over its terminator. -/
theorem memcpy_behind {mem : Buffer} {n : Nat} (h : At mem 0 text) (hn : n ≤ s.length)
    (hroom : text.length + n ≤ mem.length) :
    ∃ rest, memcpy mem text.length s n = some (text ++ (s.take n ++ rest)) ∧
      rest.length = mem.length - (text.length + n) := by
  obtain ⟨a, behind, rfl, ha⟩ := h.split
  obtain rfl := List.eq_nil_of_length_eq_zero ha
  refine ⟨(text ++ '\x00' :: behind).drop (text.length + n), ?_, List.length_drop⟩
  rw [memcpy, List.nil_append, if_pos ⟨hn, hroom⟩, List.take_left]

theorem strbufAppendLen_holds (h : b.Holds text peak) (hs : '\x00' ∉ s) (rest : Buffer)
    (hfits : text.length + s.length < 2 ^ 63) :
    ∃ b', strbufAppendLen M b (s ++ rest) s.length = some b' ∧
      b'.Holds (text ++ s) (max peak (text ++ s).length) := by
  obtain ⟨b₁, hreserve, h₁, hroom⟩ := strbufReserve_holds (M := M) h hfits
  have hsize := h₁.size
  obtain ⟨behind, hcopy, hbehind⟩ :=
    memcpy_behind h₁.stands (show s.length ≤ (s ++ rest).length by simp) (by omega)
  rw [List.take_left] at hcopy
  cases behind with
  | nil =>
    rw [List.length_nil] at hbehind
    omega
  | cons c behind =>
    have hlen : (b₁.len + s.length) % sizeModulus = (text ++ s).length := by
      rw [h₁.len_eq, List.length_append]
      exact mod_sizeModulus hfits.le
    have hput : put (text ++ (s ++ c :: behind)) (text ++ s).length '\x00' =
        some (text ++ s ++ '\x00' :: behind) := by
      rw [← List.append_assoc]
      exact put_append _ _ _ _
    refine ⟨⟨text ++ s ++ '\x00' :: behind, (text ++ s).length, b₁.cap⟩, ?_, ?_⟩
    · simp only [strbufAppendLen, hreserve, Option.bind_eq_bind, Option.bind_some, h₁.len_eq, hcopy]
      rw [← h₁.len_eq, hlen, hput]
      rfl
    · have hnul : '\x00' ∉ text ++ s := by
        rw [List.mem_append, not_or]
        exact ⟨h.stands.nul, hs⟩
      have hgrown := h₁.grown
      rw [← List.length_append] at hgrown
      refine ⟨?_, rfl, ⟨hnul, [], behind, rfl, rfl⟩, h₁.power, Nat.le_max_right _ _, hgrown⟩
      rw [List.length_cons] at hbehind
      simp only [List.length_append, List.length_cons]
      omega

/-- A text in other memory, with its terminator and whatever follows. -/
theorem strlenOf_append (hs : '\x00' ∉ s) (rest : Buffer) :
    strlenOf (s ++ '\x00' :: rest) = some s.length := by
  rw [strlenOf, untilNul_append hs]
  rfl

theorem strbufAppend_holds (h : b.Holds text peak) (hs : '\x00' ∉ s) (rest : Buffer)
    (hfits : text.length + s.length < 2 ^ 63) :
    ∃ b', strbufAppend M b (s ++ '\x00' :: rest) = some b' ∧
      b'.Holds (text ++ s) (max peak (text ++ s).length) := by
  rw [strbufAppend, strlenOf_append hs]
  exact strbufAppendLen_holds h hs _ hfits

theorem strbufAppendChar_holds {c : Char} (h : b.Holds text peak) (hc : c ≠ '\x00')
    (hfits : text.length + 1 < 2 ^ 63) :
    ∃ b', strbufAppendChar M b c = some b' ∧
      b'.Holds (text ++ [c]) (max peak (text ++ [c]).length) := by
  have hnul : '\x00' ∉ [c] := by simpa using hc.symm
  exact strbufAppendLen_holds h hnul [] hfits

theorem strbufAppendf_holds (h : b.Holds text peak) (hs : '\x00' ∉ s) (hint : s.length ≤ intMax)
    (hfits : text.length + s.length < 2 ^ 63) :
    ∃ b', strbufAppendf M b s = some b' ∧ b'.Holds (text ++ s) (max peak (text ++ s).length) := by
  rw [strbufAppendf]
  by_cases hempty : s = []
  · subst hempty
    have hpeak : max peak text.length = peak := Nat.max_eq_left h.peak_ge
    rw [if_neg (by simp), List.append_nil, hpeak]
    exact ⟨b, rfl, h⟩
  obtain ⟨b₁, hreserve, h₁, hroom⟩ := strbufReserve_holds (M := M) h hfits
  have hsize := h₁.size
  obtain ⟨behind, hcopy, hbehind⟩ := memcpy_behind (s := s ++ ['\x00']) (n := s.length + 1)
    h₁.stands (by simp) (by omega)
  rw [List.take_of_length_le (by simp), List.append_assoc, List.singleton_append,
    ← List.append_assoc] at hcopy
  have hlen : (b₁.len + s.length) % sizeModulus = (text ++ s).length := by
    rw [h₁.len_eq, List.length_append]
    exact mod_sizeModulus hfits.le
  rw [if_pos ⟨List.length_pos_iff.mpr hempty, hint⟩]
  refine ⟨⟨text ++ s ++ '\x00' :: behind, (text ++ s).length, b₁.cap⟩, ?_, ?_⟩
  · simp only [hreserve, Option.bind_eq_bind, Option.bind_some, hlen]
    rw [h₁.len_eq, hcopy]
    rfl
  · have hnul : '\x00' ∉ text ++ s := by
      rw [List.mem_append, not_or]
      exact ⟨h.stands.nul, hs⟩
    have hgrown := h₁.grown
    rw [← List.length_append] at hgrown
    refine ⟨?_, rfl, ⟨hnul, [], behind, rfl, rfl⟩, h₁.power, Nat.le_max_right _ _, hgrown⟩
    simp only [List.length_append, List.length_cons]
    omega

/-- The first character of some memory becomes the terminator of an empty text. -/
theorem put_first {mem : Buffer} (h : 0 < mem.length) :
    ∃ rest, put mem 0 '\x00' = some ('\x00' :: rest) ∧ rest.length + 1 = mem.length := by
  cases mem with
  | nil => exact absurd h (Nat.lt_irrefl _)
  | cons c rest => exact ⟨rest, put_append [] c '\x00' rest, rfl⟩

theorem strbufNew_holds (M : Malloc) : ∃ b, strbufNew M none = some b ∧ b.Holds [] 0 := by
  obtain ⟨rest, hput, hlength⟩ := put_first (show 0 < (M.fresh 64).length by simp)
  refine ⟨⟨'\x00' :: rest, 0, 64⟩, by rw [strbufNew, hput]; rfl, ?_⟩
  refine ⟨?_, rfl, ⟨List.not_mem_nil, [], rest, rfl, rfl⟩, ⟨6, by decide, by decide, rfl⟩,
    Nat.le_refl _, .inl rfl⟩
  rw [List.length_cons, hlength, Malloc.length_fresh]

/-- The memory that the last text took stays. -/
theorem strbufAssign_holds (h : b.Holds text peak) (hs : '\x00' ∉ s) (rest : Buffer)
    (hfits : s.length < 2 ^ 63) :
    ∃ b', strbufAssign M b (s ++ '\x00' :: rest) = some b' ∧ b'.Holds s (max peak s.length) := by
  have hpos : 0 < b.str.length := Nat.zero_lt_of_lt h.stands.lt_length
  obtain ⟨behind, hput, hlength⟩ := put_first hpos
  have hempty : (Strbuf.mk ('\x00' :: behind) 0 b.cap).Holds [] peak :=
    ⟨by rw [List.length_cons, hlength, h.size], rfl, ⟨List.not_mem_nil, [], behind, rfl, rfl⟩,
      h.power, Nat.zero_le _, h.grown⟩
  rw [strbufAssign, hput]
  exact strbufAppend_holds hempty hs rest (by simpa using hfits)

end Softgre
