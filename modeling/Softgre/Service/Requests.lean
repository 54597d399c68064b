-- SUMMARY: A request is answered exactly if it is one of the commands of the help text.
import Softgre.Service.Answers

/-!
# Requests

Which requests are commands, said without the code that takes them apart. The
address of `GTMC` may be written in any letter case; what is looked up is the text
that provisioning stores for its six bytes.
-/

namespace Softgre

-- ---------------------------------------------------------------------------
-- Tokens
-- ---------------------------------------------------------------------------

/-- One call of `strtok_r`: the token, and where the next call goes on. -/
def strtokR (save : CStr) : Option (CStr × CStr) :=
  let start := save.dropWhile isDelim
  if start.isEmpty then none
  else some (start.takeWhile (!isDelim ·), (start.dropWhile (!isDelim ·)).drop 1)

/-- The tokens of a text, between runs of delimiters. -/
inductive Splits : CStr → List CStr → Prop where
  | blank {gap} : (∀ c ∈ gap, isDelim c = true) → Splits gap []
  | last {gap token} : (∀ c ∈ gap, isDelim c = true) → IsToken token → Splits (gap ++ token) [token]
  | token {gap token sep rest tokens} : (∀ c ∈ gap, isDelim c = true) → IsToken token →
      isDelim sep = true → Splits rest tokens → Splits (gap ++ token ++ sep :: rest) (token :: tokens)

theorem strtok_cons {sep : Char} (hsep : isDelim sep = true) (s : CStr) :
    strtok (sep :: s) = strtok s := by
  have hsplit : (sep :: s).splitOnP isDelim = [] :: s.splitOnP isDelim :=
    List.splitOnP_append_cons_of_forall_mem (fun _ h => absurd h List.not_mem_nil) sep hsep s
  rw [strtok, hsplit]
  rfl

theorem strtok_gap {gap : CStr} (hgap : ∀ c ∈ gap, isDelim c = true) (s : CStr) :
    strtok (gap ++ s) = strtok s := by
  induction gap with
  | nil => rfl
  | cons c gap ih =>
    obtain ⟨hc, hgap⟩ := List.forall_mem_cons.mp hgap
    rw [List.cons_append, strtok_cons hc, ih hgap]

theorem strtok_append {token : CStr} {sep : Char} (htoken : IsToken token)
    (hsep : isDelim sep = true) (rest : CStr) :
    strtok (token ++ sep :: rest) = token :: strtok rest := by
  rw [strtok, List.splitOnP_append_cons_of_forall_mem htoken.solid sep hsep]
  simp [htoken.ne_nil, strtok]

theorem Splits.strtok_eq {s : CStr} {tokens : List CStr} (h : Splits s tokens) :
    strtok s = tokens := by
  induction h with
  | blank hgap =>
    have hblank := strtok_gap hgap []
    rw [List.append_nil] at hblank
    exact hblank
  | last hgap htoken => rw [strtok_gap hgap, strtok_token htoken]
  | token hgap htoken hsep _ ih =>
    rw [List.append_assoc, strtok_gap hgap, strtok_append htoken hsep, ih]

/-- A call of `strtok_r` cuts the first token off, unless nothing but delimiters is left. -/
theorem strtokR_cases (s : CStr) :
    (strtokR s = none ∧ ∀ c ∈ s, isDelim c = true) ∨
    ∃ gap token rest, strtokR s = some (token, rest) ∧ (∀ c ∈ gap, isDelim c = true) ∧
      IsToken token ∧ ((rest = [] ∧ s = gap ++ token) ∨
        ∃ sep, isDelim sep = true ∧ s = gap ++ token ++ sep :: rest) := by
  have hs := List.takeWhile_append_dropWhile (p := isDelim) (l := s)
  cases hstart : s.dropWhile isDelim with
  | nil =>
    refine .inl ⟨?_, List.dropWhile_eq_nil_iff.mp hstart⟩
    rw [strtokR, hstart]
    rfl
  | cons c start =>
    have hc : isDelim c = false := by
      have hhead := List.head?_dropWhile_not isDelim s
      rw [hstart] at hhead
      exact hhead
    have htoken := List.takeWhile_append_dropWhile (p := (!isDelim ·)) (l := c :: start)
    refine .inr ⟨s.takeWhile isDelim, (c :: start).takeWhile (!isDelim ·),
      ((c :: start).dropWhile (!isDelim ·)).drop 1, ?_, fun d hd => List.mem_takeWhile_imp hd,
      ⟨?_, fun d hd => ?_⟩, ?_⟩
    · rw [strtokR, hstart]
      rfl
    · rw [List.takeWhile_cons_of_pos (by rw [hc]; rfl)]
      exact List.cons_ne_nil _ _
    · have hsolid : (!isDelim d) = true := List.mem_takeWhile_imp (p := (!isDelim ·)) hd
      simpa using hsolid
    · rw [hstart, ← htoken] at hs
      cases hrest : (c :: start).dropWhile (!isDelim ·) with
      | nil =>
        rw [hrest, List.append_nil] at hs
        exact .inl ⟨rfl, hs.symm⟩
      | cons sep rest =>
        rw [hrest, ← List.append_assoc] at hs
        refine .inr ⟨sep, ?_, hs.symm⟩
        have hhead := List.head?_dropWhile_not (!isDelim ·) (c :: start)
        rw [hrest] at hhead
        simpa using hhead

/-- Calling `strtok_r` until it returns `NULL` yields the tokens of `strtok`. -/
theorem strtok_eq_strtokR (s : CStr) :
    strtok s = match strtokR s with
      | none => []
      | some (token, rest) => token :: strtok rest := by
  rcases strtokR_cases s with ⟨hnone, hblank⟩ | ⟨gap, token, rest, hsome, hgap, htoken, hs⟩
  · rw [hnone, (Splits.blank hblank).strtok_eq]
  · rw [hsome]
    rcases hs with ⟨rfl, rfl⟩ | ⟨sep, hsep, rfl⟩
    · exact (Splits.last hgap htoken).strtok_eq
    · rw [List.append_assoc, strtok_gap hgap, strtok_append htoken hsep]

theorem exists_splits (s : CStr) : ∃ tokens, Splits s tokens := by
  induction h : s.length using Nat.strong_induction_on generalizing s with
  | _ n ih =>
    rcases strtokR_cases s with ⟨-, hblank⟩ | ⟨gap, token, rest, -, hgap, htoken, hs⟩
    · exact ⟨[], .blank hblank⟩
    · rcases hs with ⟨-, rfl⟩ | ⟨sep, hsep, rfl⟩
      · exact ⟨[token], .last hgap htoken⟩
      · obtain ⟨tokens, htokens⟩ := ih rest.length (by simp at h; omega) rest rfl
        exact ⟨token :: tokens, .token hgap htoken hsep htokens⟩

theorem splits_iff {s : CStr} {tokens : List CStr} : Splits s tokens ↔ strtok s = tokens := by
  refine ⟨Splits.strtok_eq, ?_⟩
  rintro rfl
  obtain ⟨tokens, htokens⟩ := exists_splits s
  rw [htokens.strtok_eq]
  exact htokens

-- ---------------------------------------------------------------------------
-- Addresses
-- ---------------------------------------------------------------------------

/-- Two hexadecimal digits, in any letter case. -/
def IsPair (pair : CStr) : Prop :=
  ∃ high low, pair = [high, low] ∧ isXdigit high = true ∧ isXdigit low = true

/-- Six pairs of hexadecimal digits, with colons between them. -/
structure IsMac (m : CStr) : Prop where
  length : (m.splitOn ':').length = 6
  pair : ∀ pair ∈ m.splitOn ':', IsPair pair

/-- What a hexadecimal digit stands for. -/
def xdigitValue (c : Char) : Nat :=
  if isDigit c then c.toNat - '0'.toNat else (toLower c).toNat - 'a'.toNat + 10

/-- The byte that a pair of digits stands for. -/
def pairValue : CStr → UInt8
  | [high, low] => UInt8.ofNat (16 * xdigitValue high + xdigitValue low)
  | _ => 0

theorem mem_xdigits {c : Char} (h : isXdigit c = true) : c ∈ "0123456789abcdefABCDEF".toList := by
  simp only [isXdigit, isDigit, Bool.or_eq_true, Bool.and_eq_true, decide_eq_true_eq] at h
  rw [← Char.ofNat_toNat c]
  rcases h with (⟨hlow, hhigh⟩ | ⟨hlow, hhigh⟩) | ⟨hlow, hhigh⟩
  · have hlow : 48 ≤ c.toNat := UInt32.le_iff_toNat_le.mp hlow
    have hhigh : c.toNat ≤ 57 := UInt32.le_iff_toNat_le.mp hhigh
    generalize c.toNat = n at hlow hhigh
    interval_cases n <;> decide
  · have hlow : 97 ≤ c.toNat := UInt32.le_iff_toNat_le.mp hlow
    have hhigh : c.toNat ≤ 102 := UInt32.le_iff_toNat_le.mp hhigh
    generalize c.toNat = n at hlow hhigh
    interval_cases n <;> decide
  · have hlow : 65 ≤ c.toNat := UInt32.le_iff_toNat_le.mp hlow
    have hhigh : c.toNat ≤ 70 := UInt32.le_iff_toNat_le.mp hhigh
    generalize c.toNat = n at hlow hhigh
    interval_cases n <;> decide

/-- A digit stands for a number below 16, which is printed as its lower case form. -/
theorem xdigitValue_spec {c : Char} (h : isXdigit c = true) :
    xdigitValue c < 16 ∧ Nat.digitChar (xdigitValue c) = toLower c ∧ c ≠ ':' := by
  have hall : ∀ c ∈ "0123456789abcdefABCDEF".toList, xdigitValue c < 16 ∧
      Nat.digitChar (xdigitValue c) = toLower c ∧ c ≠ ':' := forall_of_all (by decide)
  exact hall c (mem_xdigits h)

theorem hex2_pairValue {pair : CStr} (h : IsPair pair) : hex2 (pairValue pair) = pair.map toLower := by
  obtain ⟨high, low, rfl, hhigh, hlow⟩ := h
  obtain ⟨hlt, hchar, -⟩ := xdigitValue_spec hhigh
  obtain ⟨hlt', hchar', -⟩ := xdigitValue_spec hlow
  have hvalue : (pairValue [high, low]).toNat = 16 * xdigitValue high + xdigitValue low := by
    refine UInt8.toNat_ofNat_of_lt' ?_
    rw [UInt8.size]
    omega
  have hdiv : (pairValue [high, low]).toNat / 16 = xdigitValue high := by omega
  have hmod : (pairValue [high, low]).toNat % 16 = xdigitValue low := by omega
  rw [hex2, hdiv, hmod, hchar, hchar']
  rfl

theorem macShape_high (c : Char) (k : Nat) : macShape (c, 3 * k) = isXdigit c := by
  rw [macShape, if_neg (by simp)]

theorem macShape_low (c : Char) (k : Nat) : macShape (c, 3 * k + 1) = isXdigit c := by
  rw [macShape, if_neg (by simp [Nat.add_mod])]

theorem macShape_colon (c : Char) (k : Nat) : macShape (c, 3 * k + 1 + 1) = (c == ':') := by
  rw [macShape, if_pos (by simp [Nat.add_mod])]

theorem all_macShape_cons (high low colon : Char) (rest : CStr) (k : Nat) :
    ((high :: low :: colon :: rest).zipIdx (3 * k)).all macShape =
      (isXdigit high && (isXdigit low && (colon == ':' &&
        (rest.zipIdx (3 * (k + 1))).all macShape))) := by
  rw [List.zipIdx_cons, List.zipIdx_cons, List.zipIdx_cons, List.all_cons, List.all_cons,
    List.all_cons, macShape_high, macShape_low, macShape_colon]
  rfl

theorem intercalate_pair_cons (high low : Char) {pairs : List CStr} {n : Nat}
    (hlength : pairs.length = n + 1) :
    [':'].intercalate ([high, low] :: pairs) = high :: low :: ':' :: [':'].intercalate pairs := by
  obtain ⟨pair, pairs, rfl⟩ := List.exists_cons_of_length_eq_add_one hlength
  exact List.intercalate_cons_cons

/-- The test of `valid_mac`, position by position, from the `k`-th pair on. -/
theorem macShape_iff (n k : Nat) (text : CStr) :
    (text.length = 3 * n + 2 ∧ (text.zipIdx (3 * k)).all macShape = true) ↔
      ∃ pairs : List CStr, pairs.length = n + 1 ∧ (∀ pair ∈ pairs, IsPair pair) ∧
        text = [':'].intercalate pairs := by
  induction n generalizing k text with
  | zero =>
    constructor
    · rintro ⟨hlength, hshape⟩
      obtain ⟨high, low, rfl⟩ := List.length_eq_two.mp hlength
      simp only [List.zipIdx_cons, List.zipIdx_nil, List.all_cons, List.all_nil, Bool.and_true,
        Bool.and_eq_true, macShape_high, macShape_low] at hshape
      exact ⟨[[high, low]], rfl, List.forall_mem_singleton.mpr ⟨high, low, rfl, hshape⟩, rfl⟩
    · rintro ⟨pairs, hlength, hpairs, rfl⟩
      obtain ⟨pair, rfl⟩ := List.length_eq_one_iff.mp hlength
      obtain ⟨high, low, rfl, hhigh, hlow⟩ := hpairs pair List.mem_cons_self
      rw [List.intercalate_singleton]
      refine ⟨rfl, ?_⟩
      simp only [List.zipIdx_cons, List.zipIdx_nil, List.all_cons, List.all_nil, macShape_high,
        macShape_low, hhigh, hlow, Bool.and_true]
  | succ n ih =>
    constructor
    · rintro ⟨hlength, hshape⟩
      obtain ⟨high, low, colon, rest, rfl⟩ : ∃ high low colon rest,
          text = high :: low :: colon :: rest := by
        rcases text with _ | ⟨high, _ | ⟨low, _ | ⟨colon, rest⟩⟩⟩
        · cases hlength
        · cases hlength
        · cases hlength
        · exact ⟨high, low, colon, rest, rfl⟩
      rw [all_macShape_cons] at hshape
      simp only [Bool.and_eq_true, beq_iff_eq] at hshape
      obtain ⟨hhigh, hlow, rfl, hrest⟩ := hshape
      have hlength' : rest.length = 3 * n + 2 := by
        simp only [List.length_cons] at hlength
        omega
      obtain ⟨pairs, hpairs, hall, rfl⟩ := (ih (k + 1) rest).mp ⟨hlength', hrest⟩
      refine ⟨[high, low] :: pairs, by rw [List.length_cons, hpairs],
        List.forall_mem_cons.mpr ⟨⟨high, low, rfl, hhigh, hlow⟩, hall⟩, ?_⟩
      exact (intercalate_pair_cons high low hpairs).symm
    · rintro ⟨pairs, hlength, hpairs, rfl⟩
      obtain ⟨_, pairs, rfl⟩ := List.exists_cons_of_length_eq_add_one hlength
      obtain ⟨⟨high, low, rfl, hhigh, hlow⟩, hall⟩ := List.forall_mem_cons.mp hpairs
      have hrest := (ih (k + 1) ([':'].intercalate pairs)).mpr
        ⟨pairs, Nat.succ.inj hlength, hall, rfl⟩
      rw [intercalate_pair_cons high low (Nat.succ.inj hlength), all_macShape_cons, hrest.2, hhigh,
        hlow]
      refine ⟨?_, rfl⟩
      simp only [List.length_cons, hrest.1]
      omega

theorem IsPair.colon_notMem {pair : CStr} (h : IsPair pair) : ':' ∉ pair := by
  obtain ⟨high, low, rfl, hhigh, hlow⟩ := h
  have hne := (xdigitValue_spec hhigh).2.2
  have hne' := (xdigitValue_spec hlow).2.2
  simp [hne.symm, hne'.symm]

theorem isMac_iff {m : CStr} :
    IsMac m ↔ ∃ pairs : List CStr, pairs.length = 6 ∧ (∀ pair ∈ pairs, IsPair pair) ∧
      m = [':'].intercalate pairs := by
  constructor
  · intro h
    exact ⟨m.splitOn ':', h.length, h.pair, (List.intercalate_splitOn ':').symm⟩
  · rintro ⟨pairs, hlength, hpairs, rfl⟩
    have hsplit : ([':'].intercalate pairs).splitOn ':' = pairs := by
      refine List.splitOn_intercalate ':' (fun pair hpair => (hpairs pair hpair).colon_notMem) ?_
      exact List.ne_nil_of_length_eq_add_one hlength
    exact ⟨by rw [hsplit, hlength], by rw [hsplit]; exact hpairs⟩

/-- `valid_mac` accepts six pairs of digits, and puts them into lower case. -/
theorem validMac_iff {m key : CStr} : validMac m = some key ↔ IsMac m ∧ key = m.map toLower := by
  have hshape := macShape_iff 5 0 m
  rw [← isMac_iff] at hshape
  rw [← hshape, validMac]
  constructor
  · intro h
    split at h
    · next htest =>
      rw [Bool.and_eq_true, beq_iff_eq] at htest
      cases h
      exact ⟨htest, rfl⟩
    · cases h
  · rintro ⟨⟨hlength, hall⟩, rfl⟩
    rw [if_pos]
    rw [Bool.and_eq_true, beq_iff_eq]
    exact ⟨hlength, hall⟩

theorem intercalate_map_toLower (pairs : List CStr) :
    [':'].intercalate (pairs.map (·.map toLower)) = ([':'].intercalate pairs).map toLower := by
  induction pairs with
  | nil => rfl
  | cons pair pairs ih =>
    cases pairs with
    | nil => rw [List.map_singleton, List.intercalate_singleton, List.intercalate_singleton]
    | cons pair' pairs =>
      rw [List.map_cons, List.map_cons, List.intercalate_cons_cons, List.intercalate_cons_cons,
        List.map_append, List.map_append, ← ih, List.map_cons]
      rfl

/-- The bytes an address stands for are stored under its lower case form. -/
theorem IsMac.macText_eq {m : CStr} (h : IsMac m) :
    ∃ mac : Vector UInt8 6, mac.toList = (m.splitOn ':').map pairValue ∧
      macText mac = m.map toLower := by
  refine ⟨⟨((m.splitOn ':').map pairValue).toArray, by simp [h.length]⟩, by simp, ?_⟩
  have hlength : m.length = 17 := ((macShape_iff 5 0 m).mpr (isMac_iff.mp h)).1
  have hpairs : ((m.splitOn ':').map pairValue).map hex2 = (m.splitOn ':').map (·.map toLower) := by
    rw [List.map_map]
    exact List.map_congr_left fun pair hpair => hex2_pairValue (h.pair pair hpair)
  have htext : [':'].intercalate (((m.splitOn ':').map pairValue).map hex2) = m.map toLower := by
    rw [hpairs, intercalate_map_toLower, List.intercalate_splitOn]
  show snprintf 18 ([':'].intercalate (((m.splitOn ':').map pairValue).map hex2)) = _
  rw [htext]
  exact snprintf_of_length_lt (by rw [List.length_map, hlength]; decide)

-- ---------------------------------------------------------------------------
-- Commands
-- ---------------------------------------------------------------------------

/-- The commands of the help text. -/
inductive IsCommand : List CStr → Prop where
  | help : IsCommand ["HELP".toList]
  | vers : IsCommand ["VERS".toList]
  | quit : IsCommand ["QUIT".toList]
  | stun : IsCommand ["STUN".toList]
  | stat : IsCommand ["STAT".toList]
  | lmip {a} : (inetPton a).isSome = true → IsCommand ["LMIP".toList, a]
  | gtmc {m} : IsMac m → IsCommand ["GTMC".toList, m]

/-- The answer says that the request is no command. -/
def SaysInvalid (response : CStr) : Prop := "RESULT: INVALID".toList <+: response

section Answers

variable {host : HostInfo} {s : Sys} {command : CStr}

theorem not_saysInvalid_ok (body : CStr) : ¬ SaysInvalid (resultOk ++ body) := by
  rintro ⟨rest, heq⟩
  have htake := congrArg (List.take 9) heq
  rw [List.take_append_of_le_length (by decide), List.take_append_of_le_length (by decide)] at htake
  exact absurd htake (by decide)

theorem not_saysInvalid_notFound : ¬ SaysInvalid resultNotFound := by
  unfold SaysInvalid
  decide

theorem not_saysInvalid_null : ¬ SaysInvalid resultNull := by
  unfold SaysInvalid
  decide

theorem not_saysInvalid_help : ¬ SaysInvalid helpText := by
  unfold SaysInvalid
  decide +kernel

theorem not_saysInvalid_listMacs {arg : CStr} (h : (inetPton arg).isSome = true) :
    ¬ SaysInvalid ((listMacs arg).run s).1 := by
  obtain ⟨a, ha⟩ := Option.isSome_iff_exists.mp h
  show Base.wp (listMacs arg) (fun out _ => ¬ SaysInvalid out) s
  rw [listMacs, ha]
  simp only [Base.wp_bind, Base.wp_get]
  split
  · exact not_saysInvalid_notFound
  · rw [Base.wp_pure, List.append_assoc]
    exact not_saysInvalid_ok _

theorem not_saysInvalid_findTunnel {arg : CStr} (h : IsMac arg) :
    ¬ SaysInvalid ((findTunnel arg).run s).1 := by
  show Base.wp (findTunnel arg) (fun out _ => ¬ SaysInvalid out) s
  rw [findTunnel, validMac_iff.mpr ⟨h, rfl⟩]
  simp only [Base.wp_bind, Base.wp_get]
  split
  · exact not_saysInvalid_notFound
  · rw [Base.wp_pure, List.append_assoc]
    exact not_saysInvalid_ok _

theorem not_saysInvalid_listTunnels : ¬ SaysInvalid (listTunnels.run s).1 := by
  show Base.wp listTunnels (fun out _ => ¬ SaysInvalid out) s
  rw [listTunnels, Base.wp_bind, Base.wp_get]
  refine Base.wp_ite (fun _ => not_saysInvalid_null) fun _ => ?_
  rw [Base.wp_bind]
  refine Base.wp_mono (tunnelLines_readOnly _ _ s) fun text s' _ => ?_
  rw [Base.wp_pure, List.append_assoc]
  exact not_saysInvalid_ok _

/-- The commands without an argument, and everything else. -/
theorem plainCommand_cases (host : HostInfo) (s : Sys) (cmd : CStr) :
    (IsCommand [cmd] ∧ ¬ SaysInvalid ((plainCommand host cmd).run s).1) ∨
      (¬ IsCommand [cmd] ∧ ((plainCommand host cmd).run s).1 = resultInvalid) := by
  rw [plainCommand]
  split
  · next h =>
    refine .inl ⟨h ▸ .vers, ?_⟩
    show ¬ SaysInvalid (resultOk ++ host.packageVersion ++ ['\n'])
    rw [List.append_assoc]
    exact not_saysInvalid_ok _
  next hvers =>
  split
  · next h =>
    refine .inl ⟨h ▸ .quit, ?_⟩
    show ¬ "RESULT: INVALID".toList <+: []
    decide
  next hquit =>
  split
  · next h =>
    refine .inl ⟨h ▸ .help, ?_⟩
    have hhelp := not_saysInvalid_help
    generalize helpText = text at hhelp ⊢
    exact hhelp
  next hhelp =>
  split
  · next h =>
    refine .inl ⟨h ▸ .stat, ?_⟩
    show ¬ SaysInvalid (statText host)
    simp only [statText, List.append_assoc]
    exact not_saysInvalid_ok _
  next hstat =>
  split
  · next h => exact .inl ⟨h ▸ .stun, not_saysInvalid_listTunnels⟩
  next hstun =>
  refine .inr ⟨fun h => ?_, rfl⟩
  cases h with
  | help => exact hhelp rfl
  | vers => exact hvers rfl
  | quit => exact hquit rfl
  | stun => exact hstun rfl
  | stat => exact hstat rfl

theorem IsCommand.pair {name arg : CStr} (h : IsCommand [name, arg]) :
    (name = "LMIP".toList ∧ (inetPton arg).isSome = true) ∨ (name = "GTMC".toList ∧ IsMac arg) := by
  cases h with
  | lmip hsome => exact .inl ⟨rfl, hsome⟩
  | gtmc hmac => exact .inr ⟨rfl, hmac⟩

theorem listMacs_cases (s : Sys) (arg : CStr) :
    (IsCommand ["LMIP".toList, arg] ∧ ¬ SaysInvalid ((listMacs arg).run s).1) ∨
      (¬ IsCommand ["LMIP".toList, arg] ∧ ((listMacs arg).run s).1 = resultInvalid) := by
  cases hpton : inetPton arg with
  | some a =>
    have hsome : (inetPton arg).isSome = true := by rw [hpton]; rfl
    exact .inl ⟨.lmip hsome, not_saysInvalid_listMacs hsome⟩
  | none =>
    refine .inr ⟨fun h => ?_, ?_⟩
    · rcases h.pair with ⟨-, hsome⟩ | ⟨hname, -⟩
      · rw [hpton] at hsome
        cases hsome
      · exact absurd hname (by decide)
    · rw [listMacs, hpton]
      rfl

theorem findTunnel_cases (s : Sys) (arg : CStr) :
    (IsCommand ["GTMC".toList, arg] ∧ ¬ SaysInvalid ((findTunnel arg).run s).1) ∨
      (¬ IsCommand ["GTMC".toList, arg] ∧ ((findTunnel arg).run s).1 = resultInvalid) := by
  cases hvalid : validMac arg with
  | some key =>
    have hmac := (validMac_iff.mp hvalid).1
    exact .inl ⟨.gtmc hmac, not_saysInvalid_findTunnel hmac⟩
  | none =>
    refine .inr ⟨fun h => ?_, ?_⟩
    · rcases h.pair with ⟨hname, -⟩ | ⟨-, hmac⟩
      · exact absurd hname (by decide)
      · cases hvalid.symm.trans (validMac_iff.mpr ⟨hmac, rfl⟩)
    · rw [findTunnel, hvalid]
      rfl

/-- A command is answered as such, and everything else with a hint. -/
theorem answer_cases (host : HostInfo) (s : Sys) (hlength : command.length < serviceMaxRequest) :
    (IsCommand (strtok command) ∧ ¬ SaysInvalid (answer host s command)) ∨
      (¬ IsCommand (strtok command) ∧ answer host s command = resultInvalid) := by
  rw [answer, serviceCommand, if_neg (Nat.not_le.mpr hlength)]
  rcases strtok command with _ | ⟨cmd, _ | ⟨arg, _ | ⟨arg', rest⟩⟩⟩
  · refine .inr ⟨fun h => ?_, rfl⟩
    cases h
  · simp only
    split
    · next harity =>
      refine .inr ⟨fun h => ?_, rfl⟩
      cases h <;> exact absurd harity (by decide)
    · exact plainCommand_cases host s cmd
  · simp only
    split
    · next h =>
      rw [h]
      exact listMacs_cases s arg
    next hlmip =>
    split
    · next h =>
      rw [h]
      exact findTunnel_cases s arg
    next hgtmc =>
    refine .inr ⟨fun h => ?_, rfl⟩
    rcases h.pair with ⟨hname, -⟩ | ⟨hname, -⟩
    · exact hlmip hname
    · exact hgtmc hname
  · refine .inr ⟨fun h => ?_, rfl⟩
    cases h

/-- `GTMC` looks up the text under which provisioning stores the bytes of the address. -/
theorem answer_of_gtmc {m : CStr} (hlength : command.length < serviceMaxRequest)
    (htokens : strtok command = ["GTMC".toList, m]) (hm : IsMac m) :
    ∃ mac : Vector UInt8 6, mac.toList = (m.splitOn ':').map pairValue ∧
      macText mac = m.map toLower ∧
      answer host s command = (provisionGetTunnelByMac s (macText mac)).elim resultNotFound
        fun p => resultOk ++ (s.deref p).entry ++ ['\n'] := by
  obtain ⟨mac, hbytes, htext⟩ := hm.macText_eq
  refine ⟨mac, hbytes, htext, ?_⟩
  rw [answer_of_pair hlength htokens, if_neg (by decide), if_pos rfl, findTunnel,
    validMac_iff.mpr ⟨hm, htext⟩]
  show Base.wp _ (fun out _ => out = _) s
  simp only [Base.wp_bind, Base.wp_get]
  cases provisionGetTunnelByMac s (macText mac) with
  | none => rfl
  | some p => rfl

end Answers

/-- In every state, a request is answered with the hint if and only if its tokens are
    no command, and `GTMC` finds what provisioning stored for the bytes of its
    argument. -/
theorem requests_exact (host : HostInfo) (s : Sys) (command : CStr)
    (hlength : command.length < 256) :
    (answer host s command = resultInvalid ↔
      ¬ ∃ tokens, Splits command tokens ∧ IsCommand tokens) ∧
    (SaysInvalid (answer host s command) ↔ answer host s command = resultInvalid) ∧
    ∀ m, Splits command ["GTMC".toList, m] → IsMac m →
      ∃ mac : Vector UInt8 6, mac.toList = (m.splitOn ':').map pairValue ∧
        macText mac = m.map toLower ∧
        answer host s command = (provisionGetTunnelByMac s (macText mac)).elim resultNotFound
          fun p => resultOk ++ (s.deref p).entry ++ ['\n'] := by
  have hcommand : (∃ tokens, Splits command tokens ∧ IsCommand tokens) ↔
      IsCommand (strtok command) := by
    constructor
    · rintro ⟨tokens, hsplits, h⟩
      rw [hsplits.strtok_eq]
      exact h
    · exact fun h => ⟨_, splits_iff.mpr rfl, h⟩
  have hsays : SaysInvalid resultInvalid := by
    unfold SaysInvalid
    decide +kernel
  rw [hcommand]
  refine ⟨?_, ?_, fun m hsplits hm => answer_of_gtmc hlength hsplits.strtok_eq hm⟩
  · rcases answer_cases host s hlength with ⟨h, hanswer⟩ | ⟨h, hanswer⟩
    · exact ⟨fun heq => absurd (heq ▸ hsays) hanswer, fun hno => absurd h hno⟩
    · exact ⟨fun _ => h, fun _ => hanswer⟩
  · rcases answer_cases host s hlength with ⟨-, hanswer⟩ | ⟨-, hanswer⟩
    · exact ⟨fun h => absurd h hanswer, fun heq => heq ▸ hsays⟩
    · exact ⟨fun _ => hanswer, fun _ => hanswer ▸ hsays⟩

/-- A client has sent a packet. -/
def Sample.learned : Sys :=
  run Sample.config Sample.obliging
    [.packet { Sample.packet with mac := #v[0xab, 0, 0, 0, 0, 0xc1] }] (Sample.start Sample.obliging)

/-- An address in capitals, behind a tab, finds the tunnel of the client that has it. -/
theorem requests_exact_capitals :
    ∃ mac : Vector UInt8 6, macText mac = "ab:00:00:00:00:c1".toList ∧
      answer ⟨[], [], [], [], 0, [], 0⟩ Sample.learned "GTMC\tAB:00:00:00:00:C1 \r".toList =
        (provisionGetTunnelByMac Sample.learned (macText mac)).elim resultNotFound
          fun p => resultOk ++ (Sample.learned.deref p).entry ++ ['\n'] := by
  have hvalid : validMac "AB:00:00:00:00:C1".toList = some "ab:00:00:00:00:c1".toList := by
    decide +kernel
  obtain ⟨mac, -, htext, hanswer⟩ := (requests_exact ⟨[], [], [], [], 0, [], 0⟩ Sample.learned
    "GTMC\tAB:00:00:00:00:C1 \r".toList (by decide)).2.2 "AB:00:00:00:00:C1".toList
    (splits_iff.mpr (by decide +kernel)) (validMac_iff.mp hvalid).1
  exact ⟨mac, htext.trans (by decide), hanswer⟩

end Softgre
