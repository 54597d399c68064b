-- SUMMARY: The grammar of configuration files, and that the INI reader accepts exactly it.
import Softgre.Base.Checked
import Softgre.Base.Latest
import Softgre.Config.Ini

/-!
# The grammar of configuration files

A trimmed line is blank, a comment, a group header or a pair. What a file defines
is read off its lines: the group of a line is that of the latest header before
it, and a key has the value of the latest pair that defines it in the group.
-/

namespace Softgre

/-- What a line says. -/
inductive IniItem where
  | blank
  | header (group : CStr)
  | pair (key value : CStr)
deriving DecidableEq, Repr

/-- A trimmed line and what it says. A header name fits `group[64]` with its NUL. -/
inductive Reads : CStr → IniItem → Prop where
  | empty : Reads [] .blank
  | comment {c : Char} {s : CStr} (hc : c = '#' ∨ c = ';') : Reads (c :: s) .blank
  | header {group : CStr} (hne : group ≠ []) (hfree : ']' ∉ group) (hsize : group.length ≤ 63) :
      Reads ('[' :: (group ++ [']'])) (.header group)
  | pair {c : Char} {key value : CStr} (hcomment : ¬ (c = '#' ∨ c = ';')) (hheader : c ≠ '[')
      (hfree : '=' ∉ c :: key) :
      Reads (c :: (key ++ '=' :: value)) (.pair (strTrim (c :: key)) (strTrim value))

/-- The line opens `group`. -/
def Opens (line group : CStr) : Prop := Reads (strTrim line) (.header group)

/-- The line defines `key` as `value`. -/
def Defines (line key value : CStr) : Prop := Reads (strTrim line) (.pair key value)

/-- The group that a line behind `lines` belongs to: that of the latest header,
    or the empty one. -/
def InGroup (lines : List CStr) (group : CStr) : Prop :=
  ∃ header, Base.Latest (fun _ line g => Opens line g) lines header ∧ group = header.getD []

/-- `value` is that of the latest line that defines `key` in `group`. -/
def Defined (lines : List CStr) (group key : CStr) (value : Option CStr) : Prop :=
  Base.Latest (fun before line v => InGroup before group ∧ Defines line key v) lines value

-- ---------------------------------------------------------------------------
-- Lines
-- ---------------------------------------------------------------------------

theorem Reads.unique {s : CStr} {item item' : IniItem} (h : Reads s item) (h' : Reads s item') :
    item = item' := by
  have hbracket : ¬ ('[' = '#' ∨ '[' = ';') := by decide
  cases h with
  | empty =>
    cases h'
    rfl
  | comment hc =>
    cases h' with
    | comment => rfl
    | header => exact absurd hc hbracket
    | pair hcomment => exact absurd hc hcomment
  | @header group hne hfree hsize =>
    generalize hs : '[' :: (group ++ [']']) = s at h'
    cases h' with
    | empty => cases hs
    | comment hc =>
      cases hs
      exact absurd hc hbracket
    | header => rw [List.append_cancel_right (List.cons.inj hs).2]
    | pair _ hheader => exact absurd (List.cons.inj hs).1.symm hheader
  | @pair c key value hcomment hheader hfree =>
    generalize hs : c :: (key ++ '=' :: value) = s at h'
    cases h' with
    | empty => cases hs
    | comment hc =>
      cases hs
      exact absurd hc hcomment
    | header => exact absurd (List.cons.inj hs).1 hheader
    | pair _ _ hfree' =>
      -- the first `=` cuts the line in one way only
      have hcut := strchr_append hfree value
      rw [List.cons_append, hs, ← List.cons_append, strchr_append hfree'] at hcut
      cases hcut
      rfl

-- ---------------------------------------------------------------------------
-- Trimming
-- ---------------------------------------------------------------------------

theorem not_isSpace_of_strTrim_eq_cons {s rest : CStr} {c : Char} (h : strTrim s = c :: rest) :
    isSpace c = false := by
  have hprefix : c :: rest <+: s.dropWhile isSpace := h ▸ List.rdropWhile_prefix isSpace _
  obtain ⟨l, hl⟩ := hprefix
  have hhead := List.head?_dropWhile_not isSpace s
  rw [← hl] at hhead
  simpa using hhead

theorem strTrim_cons_ne_nil {c : Char} (h : isSpace c = false) (rest : CStr) :
    strTrim (c :: rest) ≠ [] := by
  intro hnil
  rw [strTrim, List.dropWhile_cons_of_neg (by simp [h]), List.rdropWhile_eq_nil_iff] at hnil
  have hc := hnil c List.mem_cons_self
  rw [h] at hc
  cases hc

-- ---------------------------------------------------------------------------
-- One round of the loop
-- ---------------------------------------------------------------------------

/-- What an item changes. -/
def IniState.advance (st : IniState) (item : IniItem) : IniState :=
  let st := { st with number := st.number + 1 }
  match item with
  | .blank => st
  | .header group => { st with group := group }
  | .pair key value => { st with pairs := st.pairs ++ [⟨st.group, key, value⟩] }

theorem iniGroup_eq_ok_iff {st st' : IniState} {s : CStr} :
    iniGroup st s = .ok st' ↔
      ∃ group, s = group ++ [']'] ∧ group ≠ [] ∧ ']' ∉ group ∧ group.length ≤ 63 ∧
        st' = { st with group := group } := by
  constructor
  · intro h
    rw [iniGroup] at h
    split at h
    · next name hcut =>
      split at h
      · cases h
      · next hsize =>
        cases h
        rw [groupSize, Bool.or_eq_true, List.isEmpty_iff, decide_eq_true_iff, not_or] at hsize
        obtain ⟨hs, hfree⟩ := strchr_eq_some_iff.mp hcut
        exact ⟨name, hs, hsize.1, hfree, by omega, rfl⟩
    · cases h
  · rintro ⟨group, rfl, hne, hfree, hsize, rfl⟩
    have hlt : ¬ groupSize ≤ group.length := by rw [groupSize]; omega
    simp [iniGroup, strchr_append hfree, hne, hlt]

theorem iniPair_eq_ok_iff {st st' : IniState} {c : Char} {s : CStr} (hc : isSpace c = false) :
    iniPair st (c :: s) = .ok st' ↔
      ∃ key value, s = key ++ '=' :: value ∧ '=' ∉ c :: key ∧
        st' = { st with pairs := st.pairs ++ [⟨st.group, strTrim (c :: key), strTrim value⟩] } := by
  constructor
  · intro h
    rw [iniPair] at h
    split at h
    · next d key value hcut =>
      obtain ⟨hs, hfree⟩ := strchr_eq_some_iff.mp hcut
      cases hs
      simp only [hcut] at h
      split at h
      · cases h
      · cases h
        exact ⟨key, value, rfl, hfree, rfl⟩
    · cases h
  · rintro ⟨key, value, rfl, hfree, rfl⟩
    have hcut := strchr_append hfree value
    rw [List.cons_append] at hcut
    simp [iniPair, hcut, strTrim_cons_ne_nil hc key]

/-- A round goes through exactly on a line of the grammar without a NUL byte. -/
theorem iniLine_eq_ok_iff {st st' : IniState} {line : CStr} :
    iniLine st line = .ok st' ↔
      '\x00' ∉ line ∧ ∃ item, Reads (strTrim line) item ∧ st' = st.advance item := by
  rw [iniLine]
  by_cases hnul : '\x00' ∈ line
  · simp [hnul]
  simp only [List.contains_eq_mem, hnul, decide_false, Bool.false_eq_true, if_false,
    not_false_eq_true, true_and]
  cases htrim : strTrim line with
  | nil =>
    constructor
    · intro h
      cases h
      exact ⟨.blank, .empty, rfl⟩
    · rintro ⟨item, hreads, rfl⟩
      cases hreads
      rfl
  | cons c rest =>
    have hspace := not_isSpace_of_strTrim_eq_cons htrim
    simp only [Bool.or_eq_true, beq_iff_eq]
    split
    · next hcomment =>
      constructor
      · intro h
        cases h
        exact ⟨.blank, .comment hcomment, rfl⟩
      · rintro ⟨item, hreads, rfl⟩
        rw [hreads.unique (.comment hcomment)]
        rfl
    · next hcomment =>
      split
      · next hheader =>
        subst hheader
        rw [iniGroup_eq_ok_iff]
        constructor
        · rintro ⟨group, rfl, hne, hfree, hsize, rfl⟩
          exact ⟨.header group, .header hne hfree hsize, rfl⟩
        · rintro ⟨item, hreads, rfl⟩
          cases hreads with
          | comment hc => exact absurd hc hcomment
          | header hne hfree hsize => exact ⟨_, rfl, hne, hfree, hsize, rfl⟩
          | pair _ hheader => exact absurd rfl hheader
      · next hheader =>
        rw [iniPair_eq_ok_iff hspace]
        constructor
        · rintro ⟨key, value, rfl, hfree, rfl⟩
          exact ⟨_, .pair hcomment hheader hfree, rfl⟩
        · rintro ⟨item, hreads, rfl⟩
          cases hreads with
          | comment hc => exact absurd hc hcomment
          | header => exact absurd rfl hheader
          | pair _ _ hfree => exact ⟨_, _, rfl, hfree, rfl⟩

-- ---------------------------------------------------------------------------
-- The whole file
-- ---------------------------------------------------------------------------

theorem flatten_getLines (bytes : CStr) : (getLines bytes).flatten = bytes := by
  induction bytes with
  | nil => rfl
  | cons c rest ih =>
    rw [getLines]
    split
    · simp [ih]
    · split
      · next hnil =>
        rw [hnil] at ih
        simp [← ih]
      · next line lines hcons =>
        rw [hcons] at ih
        simp [← ih]

theorem foldlM_iniLine_iff {st st' : IniState} {lines : List CStr} :
    lines.foldlM iniLine st = .ok st' ↔
      (∀ line ∈ lines, '\x00' ∉ line) ∧ ∃ items,
        List.Forall₂ (fun line item => Reads (strTrim line) item) lines items ∧
        st' = items.foldl IniState.advance st := by
  induction lines generalizing st with
  | nil =>
    constructor
    · intro h
      cases h
      exact ⟨by simp, [], .nil, rfl⟩
    · rintro ⟨-, items, hall, rfl⟩
      cases hall
      rfl
  | cons line lines ih =>
    rw [List.foldlM_cons, Base.bind_eq_ok_iff, List.forall_mem_cons]
    constructor
    · rintro ⟨mid, hline, hrest⟩
      obtain ⟨hnul, item, hreads, rfl⟩ := iniLine_eq_ok_iff.mp hline
      obtain ⟨hnuls, items, hall, rfl⟩ := ih.mp hrest
      exact ⟨⟨hnul, hnuls⟩, item :: items, .cons hreads hall, rfl⟩
    · rintro ⟨⟨hnul, hnuls⟩, items, hall, rfl⟩
      cases hall with
      | cons hreads hall =>
        exact ⟨_, iniLine_eq_ok_iff.mpr ⟨hnul, _, hreads, rfl⟩, ih.mpr ⟨hnuls, _, hall, rfl⟩⟩

/-! ## What the pairs mean -/

theorem InGroup.unique {lines : List CStr} {group group' : CStr} (h : InGroup lines group)
    (h' : InGroup lines group') : group = group' := by
  obtain ⟨header, hlatest, rfl⟩ := h
  obtain ⟨header', hlatest', rfl⟩ := h'
  have heq := hlatest.unique hlatest' fun _ _ _ _ hg hg' => IniItem.header.inj (hg.unique hg')
  rw [heq]

theorem iniGet_append_singleton (ini : List IniPair) (p : IniPair) (group key : CStr) :
    iniGet (ini ++ [p]) group key =
      if p.group = group ∧ p.key = key then some p.value else iniGet ini group key := by
  rw [iniGet, List.foldl_append]
  simp [iniGet]

/-- The state of `ini_load` says what the lines so far define. -/
structure IniState.Means (lines : List CStr) (st : IniState) : Prop where
  group : InGroup lines st.group
  pairs : ∀ group key, Defined lines group key (iniGet st.pairs group key)

theorem IniState.Means.advance {lines : List CStr} {st : IniState} (h : st.Means lines)
    {line : CStr} {item : IniItem} (hreads : Reads (strTrim line) item) :
    (st.advance item).Means (lines ++ [line]) := by
  obtain ⟨header, hlatest, hgroup⟩ := h.group
  cases item with
  | blank =>
    have hopens : ∀ g, ¬ Opens line g := fun g hg => by cases hg.unique hreads
    have hdefines : ∀ key v, ¬ Defines line key v := fun key v hv => by cases hv.unique hreads
    exact ⟨⟨header, hlatest.skip hopens, hgroup⟩,
      fun group key => (h.pairs group key).skip fun v hv => hdefines key v hv.2⟩
  | header g =>
    have hdefines : ∀ key v, ¬ Defines line key v := fun key v hv => by cases hv.unique hreads
    exact ⟨⟨some g, .set hreads, rfl⟩,
      fun group key => (h.pairs group key).skip fun v hv => hdefines key v hv.2⟩
  | pair k v =>
    have hopens : ∀ g, ¬ Opens line g := fun g hg => by cases hg.unique hreads
    refine ⟨⟨header, hlatest.skip hopens, hgroup⟩, fun group key => ?_⟩
    simp only [IniState.advance, iniGet_append_singleton]
    split
    · next hmatch =>
      obtain ⟨rfl, rfl⟩ := hmatch
      exact .set ⟨h.group, hreads⟩
    · next hother =>
      refine (h.pairs group key).skip fun v' hv' => hother ?_
      cases hv'.2.unique hreads
      exact ⟨h.group.unique hv'.1, rfl⟩

theorem IniState.Means.foldl {lines rest : List CStr} {items : List IniItem} {st : IniState}
    (h : st.Means lines)
    (hall : List.Forall₂ (fun line item => Reads (strTrim line) item) rest items) :
    (items.foldl IniState.advance st).Means (lines ++ rest) := by
  induction hall generalizing lines st with
  | nil => simpa using h
  | cons hreads _ ih =>
    have hmeans := ih (h.advance hreads)
    rwa [List.append_assoc] at hmeans

/-- A trimmed line of the grammar: empty, a comment, `[group]`, or text with an `=`
    that starts neither with a bracket nor with the `=`. -/
def Accepted (s : CStr) : Prop :=
  s = [] ∨ s.head? = some '#' ∨ s.head? = some ';' ∨
    (∃ group, s = '[' :: (group ++ [']']) ∧ group ≠ [] ∧ ']' ∉ group ∧ group.length ≤ 63) ∨
    (s.head? ≠ some '[' ∧ s.head? ≠ some '=' ∧ '=' ∈ s)

theorem accepted_iff {s : CStr} : Accepted s ↔ ∃ item, Reads s item := by
  constructor
  · rintro (rfl | hhash | hsemicolon | ⟨group, rfl, hne, hfree, hsize⟩ | ⟨hheader, hequals, hmem⟩)
    · exact ⟨.blank, .empty⟩
    · obtain ⟨rest, rfl⟩ := List.head?_eq_some_iff.mp hhash
      exact ⟨.blank, .comment (.inl rfl)⟩
    · obtain ⟨rest, rfl⟩ := List.head?_eq_some_iff.mp hsemicolon
      exact ⟨.blank, .comment (.inr rfl)⟩
    · exact ⟨.header group, .header hne hfree hsize⟩
    · obtain ⟨before, value, rfl, hfree⟩ := List.eq_append_cons_of_mem hmem
      cases before with
      | nil => exact absurd rfl hequals
      | cons c key =>
        by_cases hcomment : c = '#' ∨ c = ';'
        · exact ⟨.blank, .comment hcomment⟩
        · exact ⟨_, .pair hcomment (fun hc => hheader (congrArg some hc)) hfree⟩
  · rintro ⟨item, hreads⟩
    cases hreads with
    | empty => exact .inl rfl
    | comment hc =>
      rcases hc with rfl | rfl
      · exact .inr (.inl rfl)
      · exact .inr (.inr (.inl rfl))
    | header hne hfree hsize => exact .inr (.inr (.inr (.inl ⟨_, rfl, hne, hfree, hsize⟩)))
    | @pair c key value hcomment hheader hfree =>
      refine .inr (.inr (.inr (.inr ⟨fun h => hheader (Option.some.inj h), fun h => ?_, by simp⟩)))
      exact hfree (Option.some.inj h ▸ List.mem_cons_self)

theorem exists_items_iff {lines : List CStr} :
    (∃ items, List.Forall₂ (fun line item => Reads (strTrim line) item) lines items) ↔
      ∀ line ∈ lines, Accepted (strTrim line) := by
  induction lines with
  | nil => exact iff_of_true ⟨[], .nil⟩ (by simp)
  | cons line lines ih =>
    rw [List.forall_mem_cons, ← ih, accepted_iff]
    constructor
    · rintro ⟨items, hall⟩
      cases hall with
      | cons hreads hall => exact ⟨⟨_, hreads⟩, _, hall⟩
    · rintro ⟨⟨item, hreads⟩, items, hall⟩
      exact ⟨item :: items, .cons hreads hall⟩

theorem iniLoad_eq_ok_iff {bytes : CStr} {ini : List IniPair} :
    iniLoad (.opened bytes none) = .ok ini ↔
      '\x00' ∉ bytes ∧ ∃ items,
        List.Forall₂ (fun line item => Reads (strTrim line) item) (getLines bytes) items ∧
        ini = (items.foldl IniState.advance .start).pairs := by
  have hnul : '\x00' ∉ bytes ↔ ∀ line ∈ getLines bytes, '\x00' ∉ line := by
    rw [← flatten_getLines bytes, List.mem_flatten, flatten_getLines]
    simp
  rw [iniLoad, Base.bind_eq_ok_iff, hnul]
  constructor
  · rintro ⟨st, hfold, hini⟩
    obtain ⟨hnuls, items, hall, rfl⟩ := foldlM_iniLine_iff.mp hfold
    cases hini
    exact ⟨hnuls, items, hall, rfl⟩
  · rintro ⟨hnuls, items, hall, rfl⟩
    exact ⟨_, foldlM_iniLine_iff.mpr ⟨hnuls, items, hall, rfl⟩, rfl⟩

/-- A file is accepted exactly if it has no NUL byte and every line is of the
    grammar. What is read from it is the value of the latest pair that defines the
    key in the group. -/
theorem ini_accepts_grammar_and_last_wins (bytes : CStr) :
    ((∃ ini, iniLoad (.opened bytes none) = .ok ini) ↔
        '\x00' ∉ bytes ∧ ∀ line ∈ getLines bytes, Accepted (strTrim line)) ∧
      ∀ ini, iniLoad (.opened bytes none) = .ok ini →
        ∀ group key, Defined (getLines bytes) group key (iniGet ini group key) := by
  constructor
  · rw [← exists_items_iff]
    constructor
    · rintro ⟨ini, hload⟩
      obtain ⟨hnul, items, hall, -⟩ := iniLoad_eq_ok_iff.mp hload
      exact ⟨hnul, items, hall⟩
    · rintro ⟨hnul, items, hall⟩
      exact ⟨_, iniLoad_eq_ok_iff.mpr ⟨hnul, items, hall, rfl⟩⟩
  · intro ini hload
    obtain ⟨-, items, hall, rfl⟩ := iniLoad_eq_ok_iff.mp hload
    have hstart : IniState.start.Means [] := ⟨⟨none, .nil, rfl⟩, fun _ _ => .nil⟩
    exact (hstart.foldl hall).pairs

namespace Sample

/-- The key of the second group is defined twice. -/
def configText : CStr := "[a]\nk=1\n[b]\n k = 2\n; k=3\nk=4 \n".toList

end Sample

theorem ini_last_definition_of_two :
    iniLoad (.opened Sample.configText none) =
        .ok [⟨['a'], ['k'], ['1']⟩, ⟨['b'], ['k'], ['2']⟩, ⟨['b'], ['k'], ['4']⟩] ∧
      Defined (getLines Sample.configText) ['b'] ['k'] (some ['4']) :=
  ⟨by decide +kernel, (ini_accepts_grammar_and_last_wins Sample.configText).2
    [⟨['a'], ['k'], ['1']⟩, ⟨['b'], ['k'], ['2']⟩, ⟨['b'], ['k'], ['4']⟩] (by decide +kernel)
    ['b'] ['k']⟩

/-- The grammar with an `=` anywhere behind the first byte. -/
def LooselyAccepted (s : CStr) : Prop :=
  s = [] ∨ s.head? = some '#' ∨ s.head? = some ';' ∨
    (∃ group, s = '[' :: (group ++ [']']) ∧ group ≠ [] ∧ ']' ∉ group ∧ group.length ≤ 63) ∨
    (s.head? ≠ some '[' ∧ '=' ∈ s.tail)

/-- A line that starts with `=` is rejected though another `=` follows, and a comment
    defines nothing though it has an `=`. -/
theorem ini_rejects_second_equals :
    (¬ ∀ bytes : CStr, (∃ ini, iniLoad (.opened bytes none) = .ok ini) ↔
        '\x00' ∉ bytes ∧ ∀ line ∈ getLines bytes, LooselyAccepted (strTrim line)) ∧
      ∃ ini, iniLoad (.opened "#k=1".toList none) = .ok ini ∧
        strchr (strTrim "#k=1".toList) '=' = (['#', 'k'], some ['1']) ∧
        iniGet ini [] ['#', 'k'] = none := by
  constructor
  · intro h
    have hlines : getLines "=a=b".toList = [['=', 'a', '=', 'b']] := by decide +kernel
    have htrim : strTrim ['=', 'a', '=', 'b'] = ['=', 'a', '=', 'b'] := by decide +kernel
    have hfails : iniLoad (.opened "=a=b".toList none) =
        .error (lineError 1 "not a key=value pair") := by decide +kernel
    obtain ⟨ini, hload⟩ := (h "=a=b".toList).mpr ⟨by decide +kernel, fun line hline => by
      rw [hlines, List.mem_singleton] at hline
      rw [hline, htrim]
      exact .inr (.inr (.inr (.inr ⟨by decide, by decide⟩)))⟩
    rw [hfails] at hload
    cases hload
  · exact ⟨[], by decide +kernel, by decide +kernel, rfl⟩

end Softgre
