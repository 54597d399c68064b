-- SUMMARY: C strings in a buffer: checked access, strings at positions, and what a write leaves alone.
import Mathlib.Data.List.Basic

/-!
# C strings in place

A buffer is a list of characters, and a pointer into it a position. Every access is
checked: a program that reads or writes behind the end has no result. `Does x Q m` says
that `x` runs on the buffer `m` without such an access, and ends as `Q` says.

`At m p s` says that the C string `s` stands at `p`, with its terminator. `Within`
is the frame of a write: what lies outside of a range is as it was.
-/

namespace Base.CText

abbrev Buffer := List Char

/-- Programs on one buffer, in which an access out of bounds has no result. -/
abbrev CM := StateT Buffer Option

variable {α β : Type} {m m' m'' : Buffer} {p n : Nat} {s t : List Char} {c : Char}

-- ---------------------------------------------------------------------------
-- Access
-- ---------------------------------------------------------------------------

def load (i : Nat) : CM Char := fun m => (m[i]?).map fun c => (c, m)

def store (i : Nat) (c : Char) : CM Unit := fun m =>
  if i < m.length then some ((), m.set i c) else none

/-- The characters up to the first terminator. -/
def untilNul : List Char → Option (List Char)
  | [] => none
  | c :: rest => if c = '\x00' then some [] else (untilNul rest).map (c :: ·)

/-- What a library function reads that is handed a C string. -/
def text (p : Nat) : CM (List Char) := fun m => (untilNul (m.drop p)).map fun s => (s, m)

def strlen (p : Nat) : CM Nat := do return (← text p).length

/-- `memmove`, whose ranges may overlap. -/
def memmove (dst src n : Nat) : CM Unit := fun m =>
  if src + n ≤ m.length ∧ dst + n ≤ m.length then
    some ((), m.take dst ++ ((m.drop src).take n ++ m.drop (dst + n)))
  else none

/-- How far `c` is from the start of the text, if it occurs in it. -/
def distance (c : Char) : List Char → Option (Option Nat)
  | [] => none
  | d :: rest =>
    if d = c then some (some 0)
    else if d = '\x00' then some none
    else (distance c rest).map (Option.map (· + 1))

/-- `strchr`, as a position. -/
def strchrAt (p : Nat) (c : Char) : CM (Option Nat) := fun m =>
  (distance c (m.drop p)).map fun found => (found.map (p + ·), m)

/-- `strspn`, as a position: skip the characters of a class, up to the end of the text. -/
def skip (f : Char → Bool) : Nat → Nat → CM Nat
  | 0, _ => fun _ => none
  | fuel + 1, i => do
    let c ← load i
    if c != '\x00' && f c then skip f fuel (i + 1) else return i

/-- `memchr`, as whether `c` stands in the range. -/
def memchr (p n : Nat) (c : Char) : CM Bool := fun m =>
  if p + n ≤ m.length then some (((m.drop p).take n).contains c, m) else none

-- ---------------------------------------------------------------------------
-- Running
-- ---------------------------------------------------------------------------

def Does (x : CM α) (Q : α → Buffer → Prop) (m : Buffer) : Prop :=
  ∃ a m', x.run m = some (a, m') ∧ Q a m'

namespace Does

variable {Q Q' : α → Buffer → Prop} {x : CM α} {a : α}

theorem mono (h : Does x Q m) (hQ : ∀ a m', Q a m' → Q' a m') : Does x Q' m := by
  obtain ⟨a, m', hrun, hQa⟩ := h
  exact ⟨a, m', hrun, hQ a m' hQa⟩

theorem pure (h : Q a m) : Does (Pure.pure a : CM α) Q m := ⟨a, m, rfl, h⟩

theorem bind {f : β → CM α} {y : CM β} (h : Does y (fun b m' => Does (f b) Q m') m) :
    Does (y >>= f) Q m := by
  obtain ⟨b, m', hrun, a, m'', hrun', hQ⟩ := h
  refine ⟨a, m'', ?_, hQ⟩
  rw [StateT.run_bind, hrun]
  exact hrun'

theorem ite {cond : Prop} [Decidable cond] {y : CM α} (hx : cond → Does x Q m)
    (hy : ¬ cond → Does y Q m) : Does (if cond then x else y) Q m := by
  split
  · next h => exact hx h
  · next h => exact hy h

/-- A step that does not work on the buffer. -/
theorem lift {y : Option α} (hy : y = some a) (hQ : Q a m) : Does (liftM y : CM α) Q m := by
  subst hy
  exact ⟨a, m, rfl, hQ⟩

/-- The program has one result. -/
theorem run_eq (h : Does x (fun b _ => b = a) m) : (x.run m).map Prod.fst = some a := by
  obtain ⟨b, m', hrun, rfl⟩ := h
  rw [hrun]
  rfl

end Does

-- ---------------------------------------------------------------------------
-- Strings and frames
-- ---------------------------------------------------------------------------

/-- The C string `s` stands at position `p`. -/
structure At (m : Buffer) (p : Nat) (s : List Char) : Prop where
  nul : '\x00' ∉ s
  split : ∃ a b, m = a ++ (s ++ '\x00' :: b) ∧ a.length = p

/-- Outside of the `n` characters from `p` on, nothing has changed. -/
structure Within (m : Buffer) (p n : Nat) (m' : Buffer) : Prop where
  before : m'.take p = m.take p
  behind : m'.drop (p + n) = m.drop (p + n)

namespace Within

theorem refl (m : Buffer) (p n : Nat) : Within m p n m := ⟨rfl, rfl⟩

theorem trans (h : Within m p n m') (h' : Within m' p n m'') : Within m p n m'' :=
  ⟨h'.before.trans h.before, h'.behind.trans h.behind⟩

/-- A change within a range is one within a larger range. -/
theorem mono {q k : Nat} (h : Within m p n m') (hlow : q ≤ p) (hhigh : p + n ≤ q + k) :
    Within m q k m' := by
  refine ⟨?_, ?_⟩
  · have htake := congrArg (List.take q) h.before
    rwa [List.take_take, List.take_take, Nat.min_eq_left hlow] at htake
  · have hdrop := congrArg (List.drop (q + k - (p + n))) h.behind
    rwa [List.drop_drop, List.drop_drop, Nat.add_sub_cancel' hhigh] at hdrop

end Within

namespace At

/-- A copy of a string, as `strdup` makes it. -/
theorem copy (hs : '\x00' ∉ s) : At (s ++ ['\x00']) 0 s := ⟨hs, [], [], rfl, rfl⟩

theorem drop_eq (h : At m p s) : ∃ b, m.drop p = s ++ '\x00' :: b := by
  obtain ⟨a, b, rfl, rfl⟩ := h.split
  exact ⟨b, by rw [List.drop_left]⟩

theorem of_drop {b : List Char} (hs : '\x00' ∉ s) (hp : p ≤ m.length)
    (hdrop : m.drop p = s ++ '\x00' :: b) : At m p s := by
  refine ⟨hs, m.take p, b, ?_, by rw [List.length_take, Nat.min_eq_left hp]⟩
  rw [← hdrop, List.take_append_drop]

theorem lt_length (h : At m p s) : p + s.length < m.length := by
  obtain ⟨a, b, rfl, rfl⟩ := h.split
  simp only [List.length_append, List.length_cons]
  omega

/-- The rest of a string is a string. -/
theorem tail (h : At m p (s ++ t)) : At m (p + s.length) t := by
  obtain ⟨a, b, hm, rfl⟩ := h.split
  refine ⟨fun ht => h.nul (List.mem_append_right _ ht), a ++ s, b, by rw [hm]; simp, by simp⟩

/-- More memory behind it. -/
theorem append (h : At m p s) (b : Buffer) : At (m ++ b) p s := by
  obtain ⟨a, b', rfl, rfl⟩ := h.split
  exact ⟨h.nul, a, b' ++ b, by simp, rfl⟩

/-- A change behind a string leaves it alone. -/
theorem of_before {q k : Nat} (h : At m p s) (hwithin : Within m q k m') (hq : p + s.length < q) :
    At m' p s := by
  obtain ⟨a, b, rfl, rfl⟩ := h.split
  have hbefore := congrArg (List.take (a.length + s.length + 1)) hwithin.before
  rw [List.take_take, List.take_take, Nat.min_eq_left (by omega)] at hbefore
  have hhead : (a ++ (s ++ '\x00' :: b)).take (a.length + s.length + 1) = a ++ (s ++ ['\x00']) := by
    rw [Nat.add_assoc, List.take_length_add_append, List.take_length_add_append, List.take_succ_cons,
      List.take_zero]
  refine ⟨h.nul, a, m'.drop (a.length + s.length + 1), ?_, rfl⟩
  calc m' = m'.take (a.length + s.length + 1) ++ m'.drop (a.length + s.length + 1) :=
        (List.take_append_drop _ _).symm
    _ = a ++ (s ++ ['\x00']) ++ m'.drop (a.length + s.length + 1) := by rw [hbefore, hhead]
    _ = a ++ (s ++ '\x00' :: m'.drop (a.length + s.length + 1)) := by simp

/-- A change before a string leaves it alone. -/
theorem of_behind {q k : Nat} (h : At m p s) (hwithin : Within m q k m') (hq : q + k ≤ p) :
    At m' p s := by
  obtain ⟨b, hb⟩ := h.drop_eq
  have hdrop := (hwithin.mono (Nat.le_refl q) (k := p - q) (by omega)).behind
  rw [Nat.add_sub_cancel' (by omega), hb] at hdrop
  refine of_drop h.nul ?_ hdrop
  by_contra hlong
  rw [List.drop_of_length_le (by omega)] at hdrop
  simp at hdrop

end At

-- ---------------------------------------------------------------------------
-- The operations on strings
-- ---------------------------------------------------------------------------

theorem untilNul_append {b : List Char} (hs : '\x00' ∉ s) :
    untilNul (s ++ '\x00' :: b) = some s := by
  induction s with
  | nil => rfl
  | cons c s ih =>
    rw [List.mem_cons, not_or] at hs
    rw [List.cons_append, untilNul, if_neg (Ne.symm hs.1), ih hs.2]
    rfl

theorem does_text {Q : List Char → Buffer → Prop} (h : At m p s) (hQ : Q s m) :
    Does (text p) Q m := by
  obtain ⟨b, hb⟩ := h.drop_eq
  refine ⟨s, m, ?_, hQ⟩
  show (untilNul (m.drop p)).map _ = _
  rw [hb, untilNul_append h.nul]
  rfl

theorem does_strlen {Q : Nat → Buffer → Prop} (h : At m p s) (hQ : Q s.length m) :
    Does (strlen p) Q m := .bind (does_text h (.pure hQ))

/-- Reading a character of a string, or its terminator. -/
theorem does_load {i : Nat} {Q : Char → Buffer → Prop} (h : At m p s) (hi : i ≤ s.length)
    (hQ : Q ((s[i]?).getD '\x00') m) : Does (load (p + i)) Q m := by
  obtain ⟨a, b, rfl, rfl⟩ := h.split
  have hget : (a ++ (s ++ '\x00' :: b))[a.length + i]? = some ((s[i]?).getD '\x00') := by
    rw [List.getElem?_append_right (Nat.le_add_right _ _), Nat.add_sub_cancel_left]
    rcases Nat.lt_or_eq_of_le hi with hlt | rfl
    · rw [List.getElem?_append_left hlt, List.getElem?_eq_getElem hlt]
      rfl
    · simp
  refine ⟨_, _, ?_, hQ⟩
  show ((a ++ (s ++ '\x00' :: b))[a.length + i]?).map _ = _
  rw [hget]
  rfl

theorem getD_append_length (s t : List Char) :
    ((s ++ t)[s.length]?).getD '\x00' = t.head?.getD '\x00' := by
  rw [List.getElem?_append_right (Nat.le_refl _), Nat.sub_self, List.head?_eq_getElem?]

/-- Skipping stops at the first character outside of the class, or at the terminator. -/
theorem does_skip {f : Char → Bool} {Q : Nat → Buffer → Prop} {fuel : Nat} (h : At m p (s ++ t))
    (hfuel : t.length < fuel) (hQ : Q (p + s.length + (t.takeWhile f).length) m) :
    Does (skip f fuel (p + s.length)) Q m := by
  induction t generalizing s fuel with
  | nil =>
    obtain ⟨fuel, rfl⟩ := Nat.exists_eq_add_one_of_ne_zero (Nat.ne_of_gt hfuel)
    refine .bind (does_load h (by simp) ?_)
    rw [getD_append_length]
    exact .pure hQ
  | cons c t ih =>
    obtain ⟨fuel, rfl⟩ := Nat.exists_eq_add_one_of_ne_zero (Nat.ne_of_gt (Nat.zero_lt_of_lt hfuel))
    refine .bind (does_load h (by simp) ?_)
    rw [getD_append_length, List.head?_cons, Option.getD_some]
    have hc : c ≠ '\x00' := by
      rintro rfl
      exact h.nul (by simp)
    refine .ite (fun hmore => ?_) fun hstop => ?_
    · rw [Bool.and_eq_true] at hmore
      have hnext : p + s.length + 1 = p + (s ++ [c]).length := by
        rw [List.length_append, List.length_singleton, Nat.add_assoc]
      rw [hnext]
      refine ih (s := s ++ [c]) (by rwa [List.append_assoc]) (Nat.lt_of_succ_lt_succ hfuel) ?_
      rw [List.takeWhile_cons_of_pos hmore.2, List.length_cons] at hQ
      rw [← hnext, Nat.add_assoc, Nat.add_comm 1]
      exact hQ
    · have hno : ¬ f c = true := fun hyes => hstop (by simp [hc, hyes])
      rw [List.takeWhile_cons_of_neg hno] at hQ
      exact .pure hQ

/-- From the start of a string. -/
theorem does_skip_first {f : Char → Bool} {Q : Nat → Buffer → Prop} {fuel : Nat} (h : At m p s)
    (hfuel : s.length < fuel) (hQ : Q (p + (s.takeWhile f).length) m) :
    Does (skip f fuel p) Q m := does_skip (s := []) h hfuel hQ

/-- Writing the terminator over a character cuts the string in two. -/
theorem does_cut {Q : Unit → Buffer → Prop} (h : At m p (s ++ c :: t))
    (hQ : ∀ m', At m' p s → At m' (p + s.length + 1) t → Within m p (s.length + 1) m' → Q () m') :
    Does (store (p + s.length) '\x00') Q m := by
  obtain ⟨a, b, hm, rfl⟩ := h.split
  have hnul := h.nul
  rw [List.mem_append, List.mem_cons, not_or, not_or] at hnul
  have hm : m = a ++ (s ++ c :: (t ++ '\x00' :: b)) := by rw [hm]; simp
  subst hm
  have hset : (a ++ (s ++ c :: (t ++ '\x00' :: b))).set (a.length + s.length) '\x00' =
      a ++ (s ++ '\x00' :: (t ++ '\x00' :: b)) := by
    rw [List.set_append_right _ _ (Nat.le_add_right _ _), Nat.add_sub_cancel_left,
      List.set_append_right _ _ (Nat.le_refl _), Nat.sub_self, List.set_cons_zero]
  refine ⟨(), _, if_pos ?_, ?_⟩
  · simp only [List.length_append, List.length_cons]
    omega
  rw [hset]
  refine hQ _ ⟨hnul.1, a, _, rfl, rfl⟩ ⟨hnul.2.2, a ++ (s ++ ['\x00']), b, by simp, ?_⟩
    ⟨?_, ?_⟩
  · simp only [List.length_append, List.length_singleton]
    omega
  · simp
  · rw [List.drop_length_add_append, List.drop_length_add_append, List.drop_length_add_append,
      List.drop_length_add_append]
    rfl

/-- Moving the rest of a string over its start, terminator included. -/
theorem does_memmove {Q : Unit → Buffer → Prop} (h : At m p (s ++ t))
    (hQ : ∀ m', At m' p t → Within m p (s.length + t.length + 1) m' → Q () m') :
    Does (memmove p (p + s.length) (t.length + 1)) Q m := by
  obtain ⟨a, b, hm, rfl⟩ := h.split
  have hnul := h.nul
  rw [List.mem_append, not_or] at hnul
  have hm : m = a ++ (s ++ (t ++ '\x00' :: b)) := by rw [hm]; simp
  subst hm
  -- what is moved ends with the terminator, and what lies behind the range stays
  have hmoved : ((a ++ (s ++ (t ++ '\x00' :: b))).drop (a.length + s.length)).take (t.length + 1) =
      t ++ ['\x00'] := by
    rw [List.drop_length_add_append, List.drop_left, List.take_length_add_append]
    rfl
  have hbehind : (a ++ (s ++ (t ++ '\x00' :: b))).drop (a.length + (t.length + 1)) =
      (s ++ (t ++ '\x00' :: b)).drop (t.length + 1) := List.drop_length_add_append _
  have hm' : (a ++ (s ++ (t ++ '\x00' :: b))).take a.length ++
      (((a ++ (s ++ (t ++ '\x00' :: b))).drop (a.length + s.length)).take (t.length + 1) ++
        (a ++ (s ++ (t ++ '\x00' :: b))).drop (a.length + (t.length + 1))) =
      a ++ (t ++ '\x00' :: (s ++ (t ++ '\x00' :: b)).drop (t.length + 1)) := by
    rw [hmoved, hbehind, List.take_left, List.append_assoc]
    rfl
  refine ⟨(), a ++ (t ++ '\x00' :: (s ++ (t ++ '\x00' :: b)).drop (t.length + 1)), ?_,
    hQ _ ⟨hnul.2, a, _, rfl, rfl⟩ ⟨by simp, ?_⟩⟩
  · rw [← hm']
    refine if_pos ?_
    simp only [List.length_append, List.length_cons]
    omega
  · have hlength : s.length + t.length + 1 = t.length + (1 + s.length) := by omega
    rw [List.drop_length_add_append, List.drop_length_add_append, hlength,
      List.drop_length_add_append, Nat.add_comm 1, List.drop_succ_cons, List.drop_drop]
    congr 1
    omega

theorem distance_cases {b : List Char} (hs : '\x00' ∉ s) (hc : c ≠ '\x00') :
    (c ∉ s ∧ distance c (s ++ '\x00' :: b) = some none) ∨
      ∃ field rest, s = field ++ c :: rest ∧ c ∉ field ∧
        distance c (s ++ '\x00' :: b) = some (some field.length) := by
  induction s with
  | nil => exact .inl ⟨List.not_mem_nil, by simp [distance, Ne.symm hc]⟩
  | cons d s ih =>
    rw [List.mem_cons, not_or] at hs
    rw [List.cons_append, distance]
    by_cases hd : d = c
    · exact .inr ⟨[], s, by rw [hd]; rfl, List.not_mem_nil, by rw [if_pos hd]; rfl⟩
    · rw [if_neg hd, if_neg (Ne.symm hs.1)]
      rcases ih hs.2 with ⟨hnot, hdist⟩ | ⟨field, rest, rfl, hnot, hdist⟩
      · exact .inl ⟨by simp [Ne.symm hd, hnot], by rw [hdist]; rfl⟩
      · exact .inr ⟨d :: field, rest, rfl, by simp [Ne.symm hd, hnot], by rw [hdist]; rfl⟩

/-- `strchr` finds the first place where the character stands. -/
theorem does_strchrAt {Q : Option Nat → Buffer → Prop} (h : At m p s) (hc : c ≠ '\x00')
    (hnone : c ∉ s → Q none m)
    (hsome : ∀ field rest, s = field ++ c :: rest → c ∉ field → Q (some (p + field.length)) m) :
    Does (strchrAt p c) Q m := by
  obtain ⟨b, hb⟩ := h.drop_eq
  rcases distance_cases (b := b) h.nul hc with ⟨hnot, hdist⟩ | ⟨field, rest, hs, hnot, hdist⟩
  · refine ⟨none, m, ?_, hnone hnot⟩
    show (distance c (m.drop p)).map _ = _
    rw [hb, hdist]
    rfl
  · refine ⟨some (p + field.length), m, ?_, hsome field rest hs hnot⟩
    show (distance c (m.drop p)).map _ = _
    rw [hb, hdist]
    rfl

end Base.CText
