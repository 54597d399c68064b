-- SUMMARY: The readers of `softgred_config.c` on the buffers they work on, and that they read what the model says.
import Softgre.Compat.InPlace
import Softgre.Config.Grammar
import Softgre.Config.Load

/-!
# Configuration text in place

`ini_load`, `parse_allow` and `parse_bridges` cut the texts they read into pieces in
the buffer these stand in: a line of the file, or a copy of a value with no byte to
spare. They never leave the buffer, no piece is damaged by the work on another one, and
what they find is what the functions on lists find.
-/

namespace Softgre

open Base CText

variable {m : Buffer} {p : Nat} {s : CStr}

-- ---------------------------------------------------------------------------
-- The loop over the fields of a list
-- ---------------------------------------------------------------------------

/-- `while ((field = str_split_next(&cursor, delim)))`, with the body as a parameter; a
    body without a result ends the loop. -/
def splitLoop {β : Type} (delim : Char) (body : β → Nat → CM (Option β)) :
    Nat → Option Nat → β → CM (Option β)
  | 0, _, _ => fun _ => none
  | fuel + 1, cursor, acc => do
    match ← strSplitNextAt cursor delim with
    | (none, _) => return some acc
    | (some field, cursor) =>
      match ← body acc field with
      | none => return none
      | some acc => splitLoop delim body fuel cursor acc

/-- A body that stays within its field does not disturb the fields that follow. -/
theorem does_splitLoop {β : Type} {delim : Char} {body : β → Nat → CM (Option β)}
    {f : β → CStr → Option β} (hdelim : delim ≠ '\x00')
    (hbody : ∀ {m p s} acc, At m p s →
      Does (body acc p) (fun out m' => out = f acc s ∧ Within m p (s.length + 1) m') m)
    (fuel : Nat) : ∀ {m p s} acc, At m p s → s.length + 1 < fuel →
      Does (splitLoop delim body fuel (some p) acc)
        (fun out _ => out = (s.splitOn delim).foldlM f acc) m := by
  induction fuel with
  | zero => exact fun _ _ h => absurd h (Nat.not_lt_zero _)
  | succ fuel ih =>
    intro m p s acc hs hfuel
    rw [splitLoop]
    refine .bind (does_strSplitNextAt hs hdelim (fun hnot => ?_) ?_)
    · -- the last field
      rw [List.splitOn_eq_singleton hnot]
      refine .bind ((hbody acc hs).mono fun out m' h => ?_)
      rw [h.1, List.foldlM_cons]
      cases f acc s with
      | none => exact .pure rfl
      | some acc' =>
        obtain ⟨fuel, rfl⟩ := Nat.exists_eq_add_one_of_ne_zero (show fuel ≠ 0 by omega)
        exact .bind (.pure (.pure rfl))
    · rintro field rest m₁ rfl hnot hfield hrest
      rw [List.splitOn_append_cons_self_of_not_mem hnot]
      refine .bind ((hbody acc hfield).mono fun out m' h => ?_)
      rw [h.1, List.foldlM_cons]
      cases f acc field with
      | none => exact .pure rfl
      | some acc' =>
        simp only [List.length_append, List.length_cons] at hfuel
        exact ih acc' (hrest.of_behind h.2 (by omega)) (by omega)

-- ---------------------------------------------------------------------------
-- parse_allow
-- ---------------------------------------------------------------------------

/-- The prefix length of an entry, which is cut off at its slash. -/
def prefixBitsAt (entry : Nat) : CM (Option Nat) := do
  match ← strchrAt entry '/' with
  | none => return prefixBits none
  | some slash =>
    store slash '\x00'
    return prefixBits (some (← text (slash + 1)))

/-- The body of the loop of `parse_allow`. -/
def parseAllowFieldAt (allow : List AllowRemote) (field : Nat) :
    CM (Option (List AllowRemote)) := do
  strTrimAt field
  let c ← load field
  if c = '\x00' ∨ allow.length ≥ maxAllow then return none
  else
    match ← prefixBitsAt field with
    | none => return none
    | some bits =>
      match inetPton (← text field) with
      | none => return none
      | some addr =>
        let mask := ntohl (prefixMask bits)
        return some (allow ++ [⟨ntohl addr.sAddr &&& mask, mask⟩])

def parseAllowIn (list : CStr) : Option (Option (List AllowRemote)) :=
  ((splitLoop ',' parseAllowFieldAt (list.length + 2) (some 0) []).run (list ++ ['\x00'])).map Prod.fst

theorem length_strTrim_le (s : CStr) : (strTrim s).length ≤ s.length :=
  (List.rdropWhile_prefix isSpace (s.dropWhile isSpace)).length_le.trans
    (List.dropWhile_suffix isSpace).length_le

/-- The first character of a string tells whether it is empty. -/
theorem does_load_first {Q : Char → Buffer → Prop} (h : At m p s) (hQ : Q (s.head?.getD '\x00') m) :
    Does (load p) Q m := by
  rw [List.head?_eq_getElem?] at hQ
  exact does_load (i := 0) h (Nat.zero_le _) hQ

theorem head_eq_nul_iff (hs : '\x00' ∉ s) : s.head?.getD '\x00' = '\x00' ↔ s = [] := by
  cases s with
  | nil => exact iff_of_true rfl rfl
  | cons c s => exact iff_of_false (fun h => hs (List.mem_cons.mpr (.inl h.symm))) (List.cons_ne_nil c s)

/-- Cutting the prefix length off leaves the address where the entry was. -/
theorem does_prefixBitsAt (h : At m p s) :
    Does (prefixBitsAt p) (fun out m' => out = prefixBits (strchr s '/').2 ∧
      At m' p (strchr s '/').1 ∧ Within m p (s.length + 1) m') m := by
  refine .bind (does_strchrAt h (by decide) (fun hnot => ?_) fun field rest hs hnot => ?_)
  · rcases strchr_cases s '/' with ⟨-, heq⟩ | ⟨field, rest, rfl, -⟩
    · rw [heq]
      exact .pure ⟨rfl, h, .refl _ _ _⟩
    · exact absurd (by simp) hnot
  · subst hs
    rw [strchr_append hnot]
    refine .bind (does_cut h fun m' hfield hrest hwithin => .bind (does_text hrest (.pure ?_)))
    exact ⟨rfl, hfield, hwithin.mono (Nat.le_refl _) (by simp)⟩

theorem does_parseAllowFieldAt (allow : List AllowRemote) (h : At m p s) :
    Does (parseAllowFieldAt allow p) (fun out m' => out = parseAllowField allow s ∧
      Within m p (s.length + 1) m') m := by
  have hlength := length_strTrim_le s
  refine .bind (does_strTrimAt h fun m₁ h₁ hwithin₁ => .bind (does_load_first h₁ ?_))
  have hempty : (strTrim s).isEmpty = true ↔ (strTrim s).head?.getD '\x00' = '\x00' := by
    rw [head_eq_nul_iff h₁.nul, List.isEmpty_iff]
  simp only [parseAllowField, Bool.or_eq_true, hempty, decide_eq_true_eq]
  refine .ite (fun hbad => ?_) fun hgood => ?_
  · rw [if_pos hbad]
    exact .pure ⟨rfl, hwithin₁⟩
  · rw [if_neg hgood]
    refine .bind ((does_prefixBitsAt h₁).mono fun out m₂ h₂ => ?_)
    obtain ⟨rfl, haddress, hwithin₂⟩ := h₂
    have hwithin : Within m p (s.length + 1) m₂ :=
      hwithin₁.trans (hwithin₂.mono (Nat.le_refl _) (by omega))
    cases hbits : prefixBits (strchr (strTrim s) '/').2 with
    | none => exact .pure ⟨rfl, hwithin⟩
    | some bits =>
      refine .bind (does_text haddress ?_)
      cases haddr : inetPton (strchr (strTrim s) '/').1 with
      | none => exact .pure ⟨rfl, hwithin⟩
      | some addr => exact .pure ⟨rfl, hwithin⟩

theorem parseAllowIn_eq {list : CStr} (hlist : '\x00' ∉ list) :
    parseAllowIn list = some (parseAllow list) :=
  (does_splitLoop (by decide) (fun allow h => does_parseAllowFieldAt allow h) (list.length + 2) []
    (.copy hlist) (Nat.lt_succ_self _)).run_eq

-- ---------------------------------------------------------------------------
-- parse_bridges
-- ---------------------------------------------------------------------------

/-- The body of the loop of `parse_bridges`. The field is trimmed, cut at its `@`, and
    both parts are trimmed where they stand. -/
def parseBridgeFieldAt (bridge : List TunnelBridge) (field : Nat) :
    CM (Option (List TunnelBridge)) := do
  strTrimAt field
  match ← strchrAt field '@' with
  | none => return none
  | some at_ =>
    if bridge.length ≥ maxAttach then return none
    else
      store at_ '\x00'
      strTrimAt field
      strTrimAt (at_ + 1)
      let vlan ← text field
      let name ← text (at_ + 1)
      let id := (strtoul vlan).value
      if !readsAll vlan || id < 1 || id > 4094 || !configValidIfname name then return none
      else if bridge.any (·.vlanId.toNat == id) then return none
      else return some (bridge ++ [⟨snprintf ifNamSiz name, UInt16.ofNat id⟩])

def parseBridgesIn (map : CStr) : Option (Option (List TunnelBridge)) :=
  ((splitLoop ',' parseBridgeFieldAt (map.length + 2) (some 0) []).run (map ++ ['\x00'])).map
    fun out => out.1.bind fun bridge => if bridge.length > 0 then some bridge else none

/-- The tests of an entry with an `@`. -/
theorem parseBridgeField_eq {bridge : List TunnelBridge} {vlan name : CStr}
    (h : strchr (strTrim s) '@' = (vlan, some name)) :
    parseBridgeField bridge s =
      if bridge.length ≥ maxAttach then none
      else if !readsAll (strTrim vlan) || (strtoul (strTrim vlan)).value < 1 ||
          (strtoul (strTrim vlan)).value > 4094 || !configValidIfname (strTrim name) then none
      else if bridge.any (·.vlanId.toNat == (strtoul (strTrim vlan)).value) then none
      else some (bridge ++
        [⟨snprintf ifNamSiz (strTrim name), UInt16.ofNat (strtoul (strTrim vlan)).value⟩]) := by
  rw [parseBridgeField, h]

theorem does_parseBridgeFieldAt (bridge : List TunnelBridge) (h : At m p s) :
    Does (parseBridgeFieldAt bridge p) (fun out m' => out = parseBridgeField bridge s ∧
      Within m p (s.length + 1) m') m := by
  have hlength := length_strTrim_le s
  refine .bind (does_strTrimAt h fun m₁ h₁ hwithin₁ => .bind (does_strchrAt h₁ (by decide) ?_ ?_))
  · intro hnot
    rcases strchr_cases (strTrim s) '@' with ⟨-, heq⟩ | ⟨field, rest, heq, -⟩
    · exact .pure ⟨by rw [parseBridgeField, heq], hwithin₁⟩
    · exact absurd (by rw [heq]; simp) hnot
  · intro vlan name hs hnot
    rw [parseBridgeField_eq (hs ▸ strchr_append hnot name)]
    rw [hs] at h₁ hlength
    simp only [List.length_append, List.length_cons] at hlength
    refine .ite (fun hfull => ?_) fun hroom => ?_
    · rw [if_pos hfull]
      exact .pure ⟨rfl, hwithin₁⟩
    · rw [if_neg hroom]
      -- each of the two parts keeps to its own range
      refine .bind (does_cut h₁ fun m₂ hvlan₂ hname₂ hwithin₂ => ?_)
      refine .bind (does_strTrimAt hvlan₂ fun m₃ hvlan₃ hwithin₃ => ?_)
      refine .bind (does_strTrimAt (hname₂.of_behind hwithin₃ (by omega)) fun m₄ hname₄ hwithin₄ => ?_)
      have hvlan₄ := hvlan₃.of_before hwithin₄ (by have := length_strTrim_le vlan; omega)
      have hwithin : Within m p (s.length + 1) m₄ := by
        refine hwithin₁.trans ((hwithin₂.mono (Nat.le_refl _) (by omega)).trans ?_)
        exact (hwithin₃.mono (Nat.le_refl _) (by omega)).trans (hwithin₄.mono (by omega) (by omega))
      refine .bind (does_text hvlan₄ (.bind (does_text hname₄ ?_)))
      refine .ite (fun hbad => ?_) fun hgood => ?_
      · exact .pure ⟨by rw [if_pos hbad], hwithin⟩
      · rw [if_neg hgood]
        refine .ite (fun hold => ?_) fun hnew => ?_
        · exact .pure ⟨by rw [if_pos hold], hwithin⟩
        · exact .pure ⟨by rw [if_neg hnew], hwithin⟩

theorem parseBridgesIn_eq {map : CStr} (hmap : '\x00' ∉ map) :
    parseBridgesIn map = some (parseBridges map) := by
  obtain ⟨out, m', hrun, hout⟩ := does_splitLoop (show ',' ≠ '\x00' by decide)
    (fun bridge h => does_parseBridgeFieldAt bridge h) (map.length + 2) [] (.copy hmap)
    (Nat.lt_succ_self _)
  rw [parseBridgesIn, hrun, Option.map_some, hout]
  rfl

-- ---------------------------------------------------------------------------
-- ini_load
-- ---------------------------------------------------------------------------

/-- A line that starts with a bracket: the name is cut off at the closing one. -/
def iniGroupAt (st : IniState) : CM (Except CStr IniState) := do
  match ← strchrAt 0 ']' with
  | none => return .error (lineError st.number "invalid group header")
  | some end_ =>
    let next ← load (end_ + 1)
    if next ≠ '\x00' ∨ end_ = 1 ∨ end_ - 1 ≥ groupSize then
      return .error (lineError st.number "invalid group header")
    else
      store end_ '\x00'
      return .ok { st with group := snprintf groupSize (← text 1) }

/-- Any other line: cut at its `=`, and both parts trimmed. -/
def iniPairAt (st : IniState) : CM (Except CStr IniState) := do
  match ← strchrAt 0 '=' with
  | none => return .error (lineError st.number "not a key=value pair")
  | some eq =>
    if eq = 0 then return .error (lineError st.number "not a key=value pair")
    else
      store eq '\x00'
      strTrimAt 0
      strTrimAt (eq + 1)
      let c ← load 0
      if c = '\x00' then return .error (lineError st.number "empty key")
      else
        let key ← text 0
        let value ← text (eq + 1)
        return .ok { st with pairs := st.pairs ++ [⟨st.group, key, value⟩] }

/-- One round of the loop of `ini_load`, on a line of `length` bytes. -/
def iniLineAt (st : IniState) (length : Nat) : CM (Except CStr IniState) := do
  let st := { st with number := st.number + 1 }
  if ← memchr 0 length '\x00' then return .error (lineError st.number "embedded NUL byte")
  else
    strTrimAt 0
    let c ← load 0
    if c = '\x00' ∨ c = '#' ∨ c = ';' then return .ok st
    else if c = '[' then iniGroupAt st
    else iniPairAt st

/-- The loop over the lines, each in the buffer of `getline`. -/
def iniLinesIn : List CStr → IniState → Option (Except CStr IniState)
  | [], st => some (.ok st)
  | line :: rest, st =>
    match ((iniLineAt st line.length).run (line ++ ['\x00'])).map Prod.fst with
    | none => none
    | some (.error e) => some (.error e)
    | some (.ok st) => iniLinesIn rest st

def iniLoadIn : ConfigFile → Option (Except CStr (List IniPair))
  | .unopened error => some (.error (configSetError error))
  | .opened bytes failure =>
    (iniLinesIn (getLines bytes) .start).map fun out => out.bind fun st =>
      match failure with
      | some error => .error (configSetError ("cannot read configuration: ".toList ++ error))
      | none => .ok st.pairs

/-- Reading behind a character of a string. -/
theorem does_load_next {field rest : CStr} {c : Char} {Q : Char → Buffer → Prop}
    (h : At m p (field ++ c :: rest)) (hQ : Q (rest.head?.getD '\x00') m) :
    Does (load (p + field.length + 1)) Q m := by
  have hrest : At m p ((field ++ [c]) ++ rest) := by rwa [List.append_assoc]
  have hpos : p + field.length + 1 = p + (field ++ [c]).length := by simp [Nat.add_assoc]
  rw [hpos]
  refine does_load hrest (by simp) ?_
  rw [getD_append_length]
  exact hQ

theorem does_iniGroupAt (st : IniState) (h : At m 0 ('[' :: s)) :
    Does (iniGroupAt st) (fun out _ => out = iniGroup st s) m := by
  refine .bind (does_strchrAt h (by decide) (fun hnot => ?_) fun field rest hs hnot => ?_)
  · rcases strchr_cases s ']' with ⟨-, heq⟩ | ⟨field, rest, rfl, -⟩
    · exact .pure (by rw [iniGroup, heq])
    · exact absurd (by simp) hnot
  · -- the field starts with the opening bracket
    obtain ⟨name, rfl, rfl⟩ : ∃ name, field = '[' :: name ∧ s = name ++ ']' :: rest := by
      cases field with
      | nil => cases hs
      | cons c name =>
        rw [List.cons_append, List.cons.injEq] at hs
        exact ⟨name, by rw [hs.1], hs.2⟩
    have hrest : '\x00' ∉ rest := fun hmem => h.nul (by simp [hmem])
    have hname : ']' ∉ name := fun hmem => hnot (by simp [hmem])
    rw [iniGroup, strchr_append hname]
    rw [← List.cons_append] at h
    refine .bind (does_load_next h ?_)
    rw [Nat.zero_add, List.length_cons]
    cases rest with
    | cons c rest =>
      have hc : (c :: rest).head?.getD '\x00' ≠ '\x00' := by
        rw [ne_eq, head_eq_nul_iff hrest]
        exact List.cons_ne_nil c rest
      rw [if_pos (.inl hc)]
      exact .pure rfl
    | nil =>
      have hiff : (([] : CStr).head?.getD '\x00' ≠ '\x00' ∨ name.length + 1 = 1 ∨
          name.length + 1 - 1 ≥ groupSize) ↔
            (name.isEmpty || decide (name.length ≥ groupSize)) = true := by
        rw [Bool.or_eq_true, List.isEmpty_iff_length_eq_zero, decide_eq_true_eq]
        simp
      refine .ite (fun hbad => ?_) fun hgood => ?_
      · simp only [if_pos (hiff.mp hbad)]
        exact .pure rfl
      · have hfit : name.length < groupSize := by
          by_contra hlong
          exact hgood (.inr (.inr (by omega)))
        simp only [if_neg (mt hiff.mpr hgood)]
        have hpos : name.length + 1 = 0 + ('[' :: name).length := by simp
        rw [hpos]
        refine .bind (does_cut h fun m' hcut _ _ => .bind ?_)
        refine does_text (At.tail (s := ['[']) hcut) (.pure ?_)
        rw [snprintf_of_length_lt hfit]

theorem does_iniPairAt (st : IniState) (h : At m 0 s) :
    Does (iniPairAt st) (fun out _ => out = iniPair st s) m := by
  refine .bind (does_strchrAt h (by decide) (fun hnot => ?_) fun field rest hs hnot => ?_)
  · rcases strchr_cases s '=' with ⟨-, heq⟩ | ⟨field, rest, rfl, -⟩
    · refine .pure ?_
      rw [iniPair, heq]
      cases s <;> rfl
    · exact absurd (by simp) hnot
  · subst hs
    rw [Nat.zero_add]
    cases field with
    | nil =>
      rw [iniPair, strchr_append hnot]
      exact .pure rfl
    | cons c field =>
      refine .ite (fun hzero => absurd hzero (Nat.succ_ne_zero _)) fun _ => ?_
      have hpos : (c :: field).length = 0 + (c :: field).length := (Nat.zero_add _).symm
      rw [hpos]
      refine .bind (does_cut h fun m₁ hkey₁ hvalue₁ hwithin₁ => ?_)
      refine .bind (does_strTrimAt hkey₁ fun m₂ hkey₂ hwithin₂ => ?_)
      refine .bind (does_strTrimAt (hvalue₁.of_behind hwithin₂ (by omega)) fun m₃ hvalue₃ hwithin₃ => ?_)
      -- the key stays as it is while the value is trimmed
      have hkey₃ := hkey₂.of_before hwithin₃ (by have := length_strTrim_le (c :: field); omega)
      rw [iniPair, strchr_append hnot]
      simp only
      refine .bind (does_load_first hkey₃ ?_)
      refine .ite (fun hempty => ?_) fun hkey => ?_
      · rw [head_eq_nul_iff hkey₃.nul, ← List.isEmpty_iff] at hempty
        rw [if_pos hempty]
        exact .pure rfl
      · rw [head_eq_nul_iff hkey₃.nul, ← List.isEmpty_iff] at hkey
        rw [if_neg hkey]
        exact .bind (does_text hkey₃ (.bind (does_text hvalue₃ (.pure rfl))))

theorem does_iniLineAt (st : IniState) (line : CStr) :
    Does (iniLineAt st line.length) (fun out _ => out = iniLine st line) (line ++ ['\x00']) := by
  have hmemchr : (memchr 0 line.length '\x00').run (line ++ ['\x00']) =
      some (line.contains '\x00', line ++ ['\x00']) := by
    refine (if_pos (by simp)).trans ?_
    simp
  refine .bind ⟨_, _, hmemchr, ?_⟩
  rw [iniLine]
  refine .ite (fun hnul => ?_) fun hnul => ?_
  · simp only [if_pos hnul]
    exact .pure rfl
  · have hline : '\x00' ∉ line := fun hmem => hnul (List.contains_iff_mem.mpr hmem)
    simp only [if_neg hnul]
    refine .bind (does_strTrimAt (.copy hline) fun m h _ => .bind (does_load_first h ?_))
    generalize strTrim line = s at h
    cases s with
    | nil => exact .pure rfl
    | cons c rest =>
      have hc : c ≠ '\x00' := by
        rintro rfl
        exact h.nul List.mem_cons_self
      simp only [List.head?_cons, Option.getD_some, hc, false_or, Bool.or_eq_true, beq_iff_eq]
      refine .ite (fun hcomment => ?_) fun hcomment => ?_
      · rw [if_pos hcomment]
        exact .pure rfl
      · rw [if_neg hcomment]
        refine .ite (fun hbracket => ?_) fun hbracket => ?_
        · rw [if_pos hbracket]
          exact does_iniGroupAt _ (hbracket ▸ h)
        · rw [if_neg hbracket]
          exact does_iniPairAt _ h

theorem iniLinesIn_eq (lines : List CStr) (st : IniState) :
    iniLinesIn lines st = some (lines.foldlM iniLine st) := by
  induction lines generalizing st with
  | nil => rfl
  | cons line rest ih =>
    rw [iniLinesIn, (does_iniLineAt st line).run_eq, List.foldlM_cons]
    cases iniLine st line with
    | error e => rfl
    | ok st' => exact ih st'

theorem iniLoadIn_eq (file : ConfigFile) : iniLoadIn file = some (iniLoad file) := by
  cases file with
  | unopened error => rfl
  | opened bytes failure =>
    rw [iniLoadIn, iniLinesIn_eq, Option.map_some, iniLoad]
    cases (getLines bytes).foldlM iniLine .start with
    | error e => rfl
    | ok st => cases failure <;> rfl

-- ---------------------------------------------------------------------------
-- Values
-- ---------------------------------------------------------------------------

theorem mem_of_mem_strTrim {c : Char} (h : c ∈ strTrim s) : c ∈ s :=
  (List.dropWhile_suffix isSpace).subset ((List.rdropWhile_prefix isSpace _).subset h)

/-- A line without a terminator adds no value with one. -/
theorem iniLine_noNul {st st' : IniState} {line : CStr} (h : iniLine st line = .ok st')
    (hpairs : ∀ pair ∈ st.pairs, '\x00' ∉ pair.value) : ∀ pair ∈ st'.pairs, '\x00' ∉ pair.value := by
  obtain ⟨hline, item, hreads, rfl⟩ := iniLine_eq_ok_iff.mp h
  cases item with
  | blank => exact hpairs
  | header group => exact hpairs
  | pair key value =>
    rw [IniState.advance, List.forall_mem_append, List.forall_mem_singleton]
    refine ⟨hpairs, fun hmem => hline (mem_of_mem_strTrim ?_)⟩
    generalize strTrim line = text at hreads
    cases hreads with
    | pair _ _ _ => simp [mem_of_mem_strTrim hmem]

theorem iniLoad_noNul {file : ConfigFile} {ini : List IniPair} (h : iniLoad file = .ok ini) :
    ∀ pair ∈ ini, '\x00' ∉ pair.value := by
  cases file with
  | unopened error => cases h
  | opened bytes failure =>
    obtain ⟨st, hfold, hini⟩ := Base.bind_eq_ok_iff.mp h
    have hst : ∀ pair ∈ st.pairs, '\x00' ∉ pair.value := by
      generalize getLines bytes = lines at hfold
      have hstart : ∀ pair ∈ IniState.start.pairs, '\x00' ∉ pair.value := by simp [IniState.start]
      generalize IniState.start = st₀ at hfold hstart
      induction lines generalizing st₀ with
      | nil =>
        cases hfold
        exact hstart
      | cons line rest ih =>
        rw [List.foldlM_cons] at hfold
        obtain ⟨st₁, hline, hrest⟩ := Base.bind_eq_ok_iff.mp hfold
        exact ih st₁ hrest (iniLine_noNul hline hstart)
    cases failure with
    | some error => cases hini
    | none =>
      cases hini
      exact hst

/-- Reading the configuration in place never leaves a buffer, and yields what the
    functions on lists yield: for every file its pairs or its error, and for every value
    of a file that is accepted the allowlist and the bridges it lists, or their absence. -/
theorem configuration_read_in_place (file : ConfigFile) :
    iniLoadIn file = some (iniLoad file) ∧
      ∀ ini, iniLoad file = .ok ini → ∀ pair ∈ ini,
        parseAllowIn pair.value = some (parseAllow pair.value) ∧
          parseBridgesIn pair.value = some (parseBridges pair.value) := by
  refine ⟨iniLoadIn_eq file, fun ini hini pair hpair => ?_⟩
  have hnul := iniLoad_noNul hini pair hpair
  exact ⟨parseAllowIn_eq hnul, parseBridgesIn_eq hnul⟩

/-- Both parts of an entry are trimmed where they stand. -/
example : parseBridgesIn " 100 @ br0 ,200@br1".toList =
    some (some [⟨"br0".toList, 100⟩, ⟨"br1".toList, 200⟩]) := by
  decide +kernel

end Softgre
