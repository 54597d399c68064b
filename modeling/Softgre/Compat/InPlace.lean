-- SUMMARY: `str_trim` and `str_split_next` on the buffer they work on.
import Softgre.Base.CText
import Softgre.Compat.Text

/-!
# Text in place

The functions of `compat.c` that take a text apart change the buffer it stands in: a
field is cut off by a terminator, and a trimmed text is moved to where it started. A
pointer is a position in the buffer.
-/

namespace Softgre

open Base CText

variable {m : Buffer} {p : Nat} {s u v : CStr}

-- ---------------------------------------------------------------------------
-- str_trim
-- ---------------------------------------------------------------------------

/-- `while (*start && isspace(*start)) start++`. -/
def skipSpaces (fuel start : Nat) : CM Nat := skip isSpace fuel start

/-- `memmove(s, start, strlen(start) + 1)`, if there is anything to skip. -/
def moveUp (s start : Nat) : CM Unit := do
  if start ≠ s then
    let length ← strlen start
    memmove s start (length + 1)

/-- `while (end > s && isspace(end[-1])) *--end = '\0'`, `end` being `s + n`. -/
def cutSpaces (s : Nat) : Nat → CM Unit
  | 0 => return
  | n + 1 => do
    let c ← load (s + n)
    if isSpace c then
      store (s + n) '\x00'
      cutSpaces s n

def strTrimAt (s : Nat) : CM Unit := do
  let start ← skipSpaces (← get).length s
  moveUp s start
  let length ← strlen s
  cutSpaces s length

theorem does_moveUp {Q : Unit → Buffer → Prop} (h : At m p (u ++ v))
    (hQ : ∀ m', At m' p v → Within m p (u.length + v.length + 1) m' → Q () m') :
    Does (moveUp p (p + u.length)) Q m := by
  refine .ite (fun _ => ?_) fun hsame => ?_
  · exact .bind (does_strlen h.tail (does_memmove h hQ))
  · obtain rfl : u = [] := List.eq_nil_of_length_eq_zero (by omega)
    exact .pure (hQ m h (.refl _ _ _))

theorem does_cutSpaces {Q : Unit → Buffer → Prop} (h : At m p s)
    (hQ : ∀ m', At m' p (s.rdropWhile isSpace) → Within m p (s.length + 1) m' → Q () m') :
    Does (cutSpaces p s.length) Q m := by
  induction s using List.reverseRecOn generalizing m with
  | nil => exact .pure (hQ m h (.refl _ _ _))
  | append_singleton s c ih =>
    rw [List.length_append, List.length_singleton]
    refine .bind (does_load h (by simp) ?_)
    rw [getD_append_length, List.head?_cons, Option.getD_some]
    refine .ite (fun hspace => ?_) fun hspace => ?_
    · refine .bind (does_cut h fun m₁ h₁ _ hwithin => ih h₁ fun m₂ h₂ hwithin₂ => ?_)
      rw [List.rdropWhile_concat_pos _ _ _ hspace] at hQ
      refine hQ m₂ h₂ ((hwithin.trans hwithin₂).mono (Nat.le_refl _) ?_)
      simp
    · rw [List.rdropWhile_concat_neg _ _ _ hspace] at hQ
      exact .pure (hQ m h (.refl _ _ _))

/-- `str_trim` turns a string into its trimmed text and touches nothing else. -/
theorem does_strTrimAt {Q : Unit → Buffer → Prop} (h : At m p s)
    (hQ : ∀ m', At m' p (strTrim s) → Within m p (s.length + 1) m' → Q () m') :
    Does (strTrimAt p) Q m := by
  have hsplit : s.takeWhile isSpace ++ s.dropWhile isSpace = s := List.takeWhile_append_dropWhile
  have hlength := congrArg List.length hsplit
  rw [List.length_append] at hlength
  have hlt := h.lt_length
  refine .bind ⟨m, m, rfl, .bind (does_skip_first h (by omega) (.bind ?_))⟩
  rw [← hsplit] at h
  refine does_moveUp h fun m₁ h₁ hwithin₁ => .bind (does_strlen h₁ (does_cutSpaces h₁ ?_))
  refine fun m₂ h₂ hwithin₂ => hQ m₂ h₂ ?_
  rw [hlength] at hwithin₁
  exact hwithin₁.trans (hwithin₂.mono (Nat.le_refl _) (by omega))

-- ---------------------------------------------------------------------------
-- str_split_next
-- ---------------------------------------------------------------------------

/-- The next field and where the cursor stands after it; `none` is `NULL`. -/
def strSplitNextAt (cursor : Option Nat) (delim : Char) : CM (Option Nat × Option Nat) := do
  match cursor with
  | none => return (none, none)
  | some field =>
    match ← strchrAt field delim with
    | none => return (some field, none)
    | some found =>
      store found '\x00'
      return (some field, some (found + 1))

/-- The next field stands where the cursor stood, and the cursor behind it at what is
    left, if anything is. -/
theorem does_strSplitNextAt {Q : Option Nat × Option Nat → Buffer → Prop} {delim : Char}
    (h : At m p s) (hdelim : delim ≠ '\x00')
    (hlast : delim ∉ s → Q (some p, none) m)
    (hmore : ∀ field rest m', s = field ++ delim :: rest → delim ∉ field → At m' p field →
      At m' (p + field.length + 1) rest → Q (some p, some (p + field.length + 1)) m') :
    Does (strSplitNextAt (some p) delim) Q m := by
  refine .bind (does_strchrAt h hdelim (fun hnot => .pure (hlast hnot)) fun field rest hs hnot => ?_)
  subst hs
  exact .bind (does_cut h fun m' hfield hrest _ => .pure (hmore field rest m' rfl hnot hfield hrest))

end Softgre
