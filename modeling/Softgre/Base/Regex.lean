-- SUMMARY: Regular expressions with groups, matched by backtracking in order of priority.
import Mathlib.Data.List.Basic

/-!
# Regular expressions

`parses` lists the ways to match a beginning of a text, the preferred one first,
as a backtracking matcher tries them. `Matches` says which texts an expression
stands for. Where only one way matches, the order does not matter.
-/

namespace Base

/-- Repetition is that of a class of characters, and takes as many as it can. -/
inductive Regex where
  | text (t : List Char)
  | chars (p : Char → Bool) (least : Nat) (most : Option Nat)
  | seq (r r' : Regex)
  | alt (r r' : Regex)
  | group (n : Nat) (r : Regex)

/-- What the groups matched. -/
abbrev Captures := List (Nat × List Char)

namespace Regex

def concat : List Regex → Regex
  | [] => .text []
  | r :: rest => .seq r (concat rest)

def oneOf (r : Regex) (rest : List Regex) : Regex := rest.foldl .alt r

def optional (r : Regex) : Regex := .alt r (.text [])

/-- How many characters a repetition can take, the most first. -/
def takes (p : Char → Bool) (least : Nat) (most : Option Nat) (s : List Char) : List Nat :=
  let available := (s.takeWhile p).length
  (List.range (most.elim available (min available) + 1)).reverse.filter (least ≤ ·)

/-- The ways to match a beginning of `s`, with what is left behind it. -/
def parses : Regex → List Char → List (Captures × List Char)
  | .text t, s => if t.isPrefixOf s then [([], s.drop t.length)] else []
  | .chars p least most, s => (takes p least most s).map fun n => ([], s.drop n)
  | .seq r r', s =>
    (r.parses s).flatMap fun m => (r'.parses m.2).map fun m' => (m.1 ++ m'.1, m'.2)
  | .alt r r', s => r.parses s ++ r'.parses s
  | .group n r, s =>
    (r.parses s).map fun m => ((n, s.take (s.length - m.2.length)) :: m.1, m.2)

/-- The first way that leaves nothing. -/
def fullmatch (r : Regex) (s : List Char) : Option Captures :=
  ((r.parses s).find? (·.2.isEmpty)).map Prod.fst

-- ---------------------------------------------------------------------------
-- What an expression stands for
-- ---------------------------------------------------------------------------

def Matches : Regex → List Char → Captures → Prop
  | .text t, s, c => s = t ∧ c = []
  | .chars p least most, s, c =>
    (∀ x ∈ s, p x = true) ∧ least ≤ s.length ∧ (∀ n ∈ most, s.length ≤ n) ∧ c = []
  | .seq r r', s, c => ∃ t t' d d', s = t ++ t' ∧ c = d ++ d' ∧ r.Matches t d ∧ r'.Matches t' d'
  | .alt r r', s, c => r.Matches s c ∨ r'.Matches s c
  | .group n r, s, c => ∃ d, c = (n, s) :: d ∧ r.Matches s d

variable {r r' : Regex} {s : List Char} {c : Captures}

theorem matches_optional : (optional r).Matches s c ↔ r.Matches s c ∨ (s = [] ∧ c = []) := Iff.rfl

theorem matches_concat_singleton : (concat [r]).Matches s c ↔ r.Matches s c := by
  constructor
  · rintro ⟨t, t', d, d', rfl, rfl, h, rfl, rfl⟩
    rwa [List.append_nil, List.append_nil]
  · intro h
    exact ⟨s, [], c, [], (List.append_nil s).symm, (List.append_nil c).symm, h, rfl, rfl⟩

/-- A fixed text in front. -/
theorem matches_text_cons {t : List Char} {rest : List Regex} :
    (concat (.text t :: rest)).Matches (t ++ s) c ↔ (concat rest).Matches s c := by
  constructor
  · rintro ⟨_, t', _, d', hs, rfl, ⟨rfl, rfl⟩, h⟩
    cases List.append_cancel_left hs
    exact h
  · intro h
    exact ⟨t, s, [], c, rfl, rfl, ⟨rfl, rfl⟩, h⟩

theorem append_cons_inj_of_notMem_left {x : Char} {t t' u u' : List Char} (ht : x ∉ t) (ht' : x ∉ t')
    (h : t ++ x :: u = t' ++ x :: u') : t = t' ∧ u = u' := by
  rcases List.append_eq_append_iff.mp h with ⟨v, rfl, hv⟩ | ⟨v, rfl, hv⟩
  · cases v with
    | nil =>
      cases hv
      exact ⟨(List.append_nil t).symm, rfl⟩
    | cons y v =>
      cases hv
      simp at ht'
  · cases v with
    | nil =>
      cases hv
      exact ⟨List.append_nil t', rfl⟩
    | cons y v =>
      cases hv
      simp at ht

/-- A group up to a separator that it cannot contain. -/
theorem matches_group_separator {n : Nat} {x : Char} {t : List Char} {rest : List Regex}
    (hr : ∀ t d, r.Matches t d → x ∉ t) (ht : x ∉ t) :
    (concat (.group n r :: .text [x] :: rest)).Matches (t ++ x :: s) c ↔
      ∃ d d', c = (n, t) :: d ++ d' ∧ r.Matches t d ∧ (concat rest).Matches s d' := by
  constructor
  · rintro ⟨u, _, _, _, hs, rfl, ⟨d, rfl, hu⟩, _, u', _, d', rfl, rfl, ⟨rfl, rfl⟩, h⟩
    obtain ⟨rfl, rfl⟩ := append_cons_inj_of_notMem_left ht (hr u d hu) hs
    exact ⟨d, d', rfl, hu, h⟩
  · rintro ⟨d, d', rfl, hd, h⟩
    exact ⟨t, x :: s, _, d', rfl, rfl, ⟨d, rfl, hd⟩, [x], s, [], d', rfl, rfl, ⟨rfl, rfl⟩, h⟩

/-- A repetition ends at a separator outside its class. -/
theorem matches_chars_separator {n : Nat} {p : Char → Bool} {least : Nat} {most : Option Nat} {x : Char}
    {t : List Char} {rest : List Regex} (hx : p x = false) (ht : (chars p least most).Matches t []) :
    (concat (.group n (.chars p least most) :: .text [x] :: rest)).Matches (t ++ x :: s) c ↔
      ∃ d, c = (n, t) :: d ∧ (concat rest).Matches s d := by
  have hclass : ∀ t d, (chars p least most).Matches t d → x ∉ t := by
    intro t d h hmem
    rw [h.1 x hmem] at hx
    cases hx
  rw [matches_group_separator hclass (hclass t [] ht)]
  constructor
  · rintro ⟨_, d, rfl, ⟨-, -, -, rfl⟩, h⟩
    exact ⟨d, rfl, h⟩
  · rintro ⟨d, rfl, h⟩
    exact ⟨[], d, rfl, ht, h⟩

theorem mem_takes {p : Char → Bool} {least n : Nat} {most : Option Nat} :
    n ∈ takes p least most s ↔
      n ≤ (s.takeWhile p).length ∧ least ≤ n ∧ ∀ m ∈ most, n ≤ m := by
  rw [takes, List.mem_filter, List.mem_reverse, List.mem_range, Nat.lt_succ_iff]
  cases most with
  | none => simp
  | some m =>
    simp
    omega

/-- A beginning of `s` is in the class where `takeWhile` has not stopped yet. -/
theorem forall_mem_take_iff {p : Char → Bool} {t u : List Char} :
    t.length ≤ ((t ++ u).takeWhile p).length ↔ ∀ x ∈ t, p x = true := by
  induction t with
  | nil => simp
  | cons x t ih =>
    by_cases hx : p x = true
    · simp [hx, ih]
    · simp [hx]

theorem mem_parses {rest : List Char} :
    (c, rest) ∈ r.parses s ↔ ∃ t, s = t ++ rest ∧ r.Matches t c := by
  induction r generalizing s c rest with
  | text t =>
    constructor
    · intro h
      rw [parses] at h
      split at h
      · next hbegins =>
        obtain ⟨u, rfl⟩ := List.isPrefixOf_iff_prefix.mp hbegins
        rw [List.drop_left, List.mem_singleton] at h
        cases h
        exact ⟨t, rfl, rfl, rfl⟩
      · cases h
    · rintro ⟨_, rfl, rfl, rfl⟩
      rw [parses, if_pos (List.isPrefixOf_iff_prefix.mpr (List.prefix_append _ _)), List.drop_left]
      exact List.mem_singleton_self _
  | chars p least most =>
    rw [parses, List.mem_map]
    constructor
    · rintro ⟨n, hn, h⟩
      cases h
      obtain ⟨hclass, hleast, hmost⟩ := mem_takes.mp hn
      have hlength : (s.take n).length = n := List.length_take_of_le
        (Nat.le_trans hclass (List.takeWhile_prefix p).length_le)
      refine ⟨s.take n, (List.take_append_drop n s).symm, ?_, ?_, ?_, rfl⟩
      · have hprefix := forall_mem_take_iff (p := p) (t := s.take n) (u := s.drop n)
        rwa [List.take_append_drop, hlength, iff_true_left hclass] at hprefix
      · rwa [hlength]
      · rwa [hlength]
    · rintro ⟨t, rfl, hclass, hleast, hmost, rfl⟩
      exact ⟨t.length, mem_takes.mpr ⟨forall_mem_take_iff.mpr hclass, hleast, hmost⟩,
        by rw [List.drop_left]⟩
  | seq r r' ih ih' =>
    rw [parses, List.mem_flatMap]
    constructor
    · rintro ⟨⟨d, rest'⟩, hm, hbehind⟩
      obtain ⟨⟨d', _⟩, hm', heq⟩ := List.mem_map.mp hbehind
      cases heq
      obtain ⟨t, rfl, ht⟩ := ih.mp hm
      obtain ⟨t', rfl, ht'⟩ := ih'.mp hm'
      exact ⟨t ++ t', (List.append_assoc _ _ _).symm, t, t', d, d', rfl, rfl, ht, ht'⟩
    · rintro ⟨_, rfl, t, t', d, d', rfl, rfl, ht, ht'⟩
      refine ⟨(d, t' ++ rest), ih.mpr ⟨t, List.append_assoc _ _ _, ht⟩, ?_⟩
      exact List.mem_map.mpr ⟨(d', rest), ih'.mpr ⟨t', rfl, ht'⟩, rfl⟩
  | alt r r' ih ih' =>
    rw [parses, List.mem_append, ih, ih']
    constructor
    · rintro (⟨t, hs, ht⟩ | ⟨t, hs, ht⟩)
      · exact ⟨t, hs, .inl ht⟩
      · exact ⟨t, hs, .inr ht⟩
    · rintro ⟨t, hs, ht | ht⟩
      · exact .inl ⟨t, hs, ht⟩
      · exact .inr ⟨t, hs, ht⟩
  | group n r ih =>
    rw [parses, List.mem_map]
    have htake : ∀ t : List Char, (t ++ rest).take ((t ++ rest).length - rest.length) = t := by
      intro t
      rw [List.length_append, Nat.add_sub_cancel, List.take_left]
    constructor
    · rintro ⟨⟨d, _⟩, hm, heq⟩
      cases heq
      obtain ⟨t, rfl, ht⟩ := ih.mp hm
      exact ⟨t, rfl, d, by rw [htake], ht⟩
    · rintro ⟨t, rfl, d, rfl, ht⟩
      exact ⟨(d, rest), ih.mpr ⟨t, rfl, ht⟩, by rw [htake]⟩

theorem mem_parses_nil : (c, []) ∈ r.parses s ↔ r.Matches s c := by
  rw [mem_parses]
  simp

/-- The only way to match is the one that is found. -/
theorem fullmatch_of_unique (h : r.Matches s c) (hunique : ∀ d, r.Matches s d → d = c) :
    r.fullmatch s = some c := by
  have hfound : ((r.parses s).find? (·.2.isEmpty)).isSome = true :=
    List.find?_isSome.mpr ⟨(c, []), mem_parses_nil.mpr h, rfl⟩
  obtain ⟨⟨d, rest⟩, hd⟩ := Option.isSome_iff_exists.mp hfound
  have hrest : rest = [] := by simpa using List.find?_some hd
  subst hrest
  rw [fullmatch, hd, Option.map_some, hunique d (mem_parses_nil.mp (List.mem_of_find?_eq_some hd))]

end Regex

end Base
