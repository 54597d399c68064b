-- SUMMARY: Splitting, trimming and number parsing as `compat.c` and the C library do them.
import Softgre.Compat
import Mathlib.Data.List.DropRight

/-!
# Reading text

The functions that take a text apart. `isspace` is that of the C locale, in which
the daemon runs.
-/

namespace Softgre

def isDigit (c : Char) : Bool := '0' ≤ c && c ≤ '9'

/-- `isspace` in the C locale: the blank, and the five controls from tab to
    carriage return. -/
def isSpace (c : Char) : Bool := c == ' ' || ('\t' ≤ c && c ≤ '\r')

def strTrim (s : CStr) : CStr := (s.dropWhile isSpace).rdropWhile isSpace

/-- A property of all characters of a text that can be evaluated. -/
theorem forall_of_all {s : CStr} {P : Char → Prop} [DecidablePred P]
    (h : (s.all fun c => P c) = true) : ∀ c ∈ s, P c :=
  fun c hc => of_decide_eq_true (List.all_eq_true.mp h c hc)

/-- The text before the first `c`, and the text behind it, if there is one. -/
def strchr (s : CStr) (c : Char) : CStr × Option CStr :=
  (s.takeWhile (· != c), if s.contains c then some ((s.dropWhile (· != c)).drop 1) else none)

theorem forall_ne_of_notMem {field : CStr} {c : Char} (hnot : c ∉ field) :
    ∀ d ∈ field, (d != c) = true := by
  intro d hd
  rw [bne_iff_ne]
  rintro rfl
  exact hnot hd

theorem takeWhile_append_cons {field : CStr} {c : Char} (hnot : c ∉ field) (rest : CStr) :
    (field ++ c :: rest).takeWhile (· != c) = field := by
  rw [List.takeWhile_append_of_pos (forall_ne_of_notMem hnot), List.takeWhile_cons_of_neg (by simp),
    List.append_nil]

theorem strchr_append {field : CStr} {c : Char} (hnot : c ∉ field) (rest : CStr) :
    strchr (field ++ c :: rest) c = (field, some rest) := by
  rw [strchr, List.takeWhile_append_of_pos (forall_ne_of_notMem hnot),
    List.dropWhile_append_of_pos (forall_ne_of_notMem hnot)]
  simp

theorem strchr_cases (s : CStr) (c : Char) :
    (c ∉ s ∧ strchr s c = (s, none)) ∨
      ∃ field rest, s = field ++ c :: rest ∧ c ∉ field ∧ strchr s c = (field, some rest) := by
  by_cases hmem : c ∈ s
  · obtain ⟨field, rest, rfl, hnot⟩ := List.eq_append_cons_of_mem hmem
    exact .inr ⟨field, rest, rfl, hnot, strchr_append hnot rest⟩
  · refine .inl ⟨hmem, ?_⟩
    rw [strchr, List.takeWhile_eq_self_iff.mpr (forall_ne_of_notMem hmem)]
    simp [hmem]

theorem strchr_none {s field : CStr} {c : Char} (h : strchr s c = (field, none)) : s = field := by
  obtain ⟨-, heq⟩ | ⟨_, _, -, -, heq⟩ := strchr_cases s c
  · rw [heq] at h
    cases h
    rfl
  · rw [heq] at h
    cases h

theorem strchr_eq_some_iff {s field rest : CStr} {c : Char} :
    strchr s c = (field, some rest) ↔ s = field ++ c :: rest ∧ c ∉ field := by
  constructor
  · intro h
    obtain ⟨-, heq⟩ | ⟨_, _, hs, hnot, heq⟩ := strchr_cases s c
    · rw [heq] at h
      cases h
    · rw [heq] at h
      cases h
      exact ⟨hs, hnot⟩
  · rintro ⟨rfl, hnot⟩
    exact strchr_append hnot rest

-- ---------------------------------------------------------------------------
-- Comparing
-- ---------------------------------------------------------------------------

/-- `strcmp`: the sign of the first difference. -/
def strcmp : CStr → CStr → Int
  | [], [] => 0
  | [], _ :: _ => -1
  | _ :: _, [] => 1
  | a :: s, b :: t => if a = b then strcmp s t else if a.toNat < b.toNat then -1 else 1

/-- Lexical order of strings. -/
def LexLt (s t : CStr) : Prop := List.Lex (fun a b : Char => a.toNat < b.toNat) s t

theorem LexLt.trans {s t u : CStr} (h : LexLt s t) (h' : LexLt t u) : LexLt s u :=
  List.lex_trans Nat.lt_trans h h'

theorem LexLt.irrefl (s : CStr) : ¬ LexLt s s :=
  List.lex_irrefl (fun c => Nat.lt_irrefl c.toNat) s

/-- The sign of `strcmp` is the lexical order. -/
theorem strcmp_cases (s t : CStr) :
    (strcmp s t < 0 ∧ LexLt s t) ∨ (strcmp s t = 0 ∧ s = t) ∨ (0 < strcmp s t ∧ LexLt t s) := by
  induction s generalizing t with
  | nil =>
    cases t with
    | nil => exact .inr (.inl ⟨rfl, rfl⟩)
    | cons b t => exact .inl ⟨show (-1 : Int) < 0 by decide, .nil⟩
  | cons a s ih =>
    cases t with
    | nil => exact .inr (.inr ⟨show (0 : Int) < 1 by decide, .nil⟩)
    | cons b t =>
      rw [strcmp]
      by_cases heq : a = b
      · subst heq
        rw [if_pos rfl]
        rcases ih t with ⟨hneg, hlt⟩ | ⟨hzero, rfl⟩ | ⟨hpos, hlt⟩
        · exact .inl ⟨hneg, .cons hlt⟩
        · exact .inr (.inl ⟨hzero, rfl⟩)
        · exact .inr (.inr ⟨hpos, .cons hlt⟩)
      · rw [if_neg heq]
        by_cases hlt : a.toNat < b.toNat
        · rw [if_pos hlt]
          exact .inl ⟨by decide, .rel hlt⟩
        · rw [if_neg hlt]
          have hne : a.toNat ≠ b.toNat := fun h => heq (Char.toNat_inj.mp h)
          exact .inr (.inr ⟨by decide, .rel (by omega)⟩)

theorem strcmp_le_iff {s t : CStr} : strcmp s t ≤ 0 ↔ LexLt s t ∨ s = t := by
  rcases strcmp_cases s t with ⟨hneg, hlt⟩ | ⟨hzero, heq⟩ | ⟨hpos, hlt⟩
  · exact ⟨fun _ => .inl hlt, fun _ => by omega⟩
  · exact ⟨fun _ => .inr heq, fun _ => by omega⟩
  · refine ⟨fun h => absurd h (by omega), ?_⟩
    rintro (hgt | rfl)
    · exact absurd (hgt.trans hlt) (LexLt.irrefl s)
    · exact absurd hlt (LexLt.irrefl s)

-- ---------------------------------------------------------------------------
-- Numbers
-- ---------------------------------------------------------------------------

/-- What `strtoul` returns: the value, the text from `*end` on, and whether it set
    `errno` to `ERANGE`. -/
structure Strtoul where
  value : Nat
  rest : CStr
  erange : Bool
deriving DecidableEq, Repr

/-- The sign of a number, and the text behind it. -/
def strtoulSign : CStr → Bool × CStr
  | '-' :: s => (true, s)
  | '+' :: s => (false, s)
  | s => (false, s)

/-- `strtoul(s, &end, 10)` with 64 bits. -/
def strtoul (s : CStr) : Strtoul :=
  let (negative, t) := strtoulSign (s.dropWhile isSpace)
  let digits := t.takeWhile isDigit
  let rest := t.dropWhile isDigit
  let n := Nat.ofDigitChars 10 digits 0
  if digits.isEmpty then ⟨0, s, false⟩
  else if n ≥ 2 ^ 64 then ⟨2 ^ 64 - 1, rest, true⟩
  else ⟨if negative then (2 ^ 64 - n) % 2 ^ 64 else n, rest, false⟩

/-- A text of digits, and the number it stands for. -/
def IsDecimal (s : CStr) (n : Nat) : Prop :=
  s ≠ [] ∧ (∀ c ∈ s, isDigit c = true) ∧ Nat.ofDigitChars 10 s 0 = n

/-- The test the callers make: the text starts with a digit, and `strtoul` reads all
    of it without an error. -/
def readsAll (s : CStr) : Bool :=
  s.head?.any isDigit && !(strtoul s).erange && (strtoul s).rest.isEmpty

theorem not_isSpace_of_isDigit {c : Char} (h : isDigit c = true) : isSpace c = false := by
  simp only [isDigit, Bool.and_eq_true, decide_eq_true_eq, Char.le_def] at h
  simp only [isSpace, Bool.or_eq_false_iff, beq_eq_false_iff_ne, Bool.and_eq_false_imp,
    decide_eq_true_eq, decide_eq_false_iff_not, Char.le_def]
  have hlow : (48 : UInt32) ≤ c.val := h.1
  refine ⟨?_, fun _ hle => ?_⟩
  · rintro rfl
    exact absurd hlow (by decide)
  · have hup : c.val ≤ (13 : UInt32) := hle
    exact absurd (UInt32.le_trans hlow hup) (by decide)

theorem strtoulSign_of_isDigit {c : Char} (h : isDigit c = true) (s : CStr) :
    strtoulSign (c :: s) = (false, c :: s) := by
  rw [strtoulSign]
  · intro t heq
    cases heq
    cases h
  · intro t heq
    cases heq
    cases h

/-- On digits, `strtoul` reads them and stops where they stop. -/
theorem strtoul_of_isDigit {c : Char} (h : isDigit c = true) (s : CStr) :
    (strtoul (c :: s)).rest = (c :: s).dropWhile isDigit ∧
      ((strtoul (c :: s)).erange = false →
        (strtoul (c :: s)).value = Nat.ofDigitChars 10 ((c :: s).takeWhile isDigit) 0) := by
  have hskip : (c :: s).dropWhile isSpace = c :: s :=
    List.dropWhile_cons_of_neg (by simp [not_isSpace_of_isDigit h])
  have hdigits : ((c :: s).takeWhile isDigit).isEmpty = false := by
    rw [List.takeWhile_cons_of_pos h]
    rfl
  simp only [strtoul, hskip, strtoulSign_of_isDigit h, hdigits]
  split
  · next h => cases h
  · split
    · exact ⟨rfl, fun h => by cases h⟩
    · exact ⟨rfl, fun _ => rfl⟩

theorem readsAll_isDecimal {s : CStr} (h : readsAll s = true) : IsDecimal s (strtoul s).value := by
  simp only [readsAll, Bool.and_eq_true, Bool.not_eq_true'] at h
  obtain ⟨⟨hhead, herange⟩, hrest⟩ := h
  cases s with
  | nil => cases hhead
  | cons c s =>
    obtain ⟨hrest', hvalue⟩ := strtoul_of_isDigit hhead s
    rw [hrest', List.isEmpty_iff, List.dropWhile_eq_nil_iff] at hrest
    refine ⟨List.cons_ne_nil c s, hrest, ?_⟩
    rw [hvalue herange, List.takeWhile_eq_self_iff.mpr hrest]

end Softgre
