-- SUMMARY: What the status commands answer, and that their answers agree with each other.
import Softgre.Daemon.Provenance
import Softgre.Service.Command

/-!
# Answers

A client takes the text of an answer apart again: the body behind `RESULT: OK`,
the entries between semicolons, the remote and the interface around the `@`. Read
like this, the commands agree with each other and with the tables.
-/

namespace Softgre

variable (host : HostInfo)

/-- The text that a command is answered with. -/
def answer (s : Sys) (command : CStr) : CStr := ((serviceCommand host command).run s).1

-- ---------------------------------------------------------------------------
-- Reading an answer
-- ---------------------------------------------------------------------------

/-- The body of an answer that is OK, without the line feed at its end. -/
def okBody (response : CStr) : Option CStr :=
  if resultOk <+: response then some (response.drop resultOk.length).dropLast else none

/-- The remote and the interface of an entry. -/
def readEntry (text : CStr) : CStr × CStr := ((strchr text '@').1, (strchr text '@').2.getD [])

/-- What `GTMC` answers, if it finds a tunnel. -/
def gtmc (s : Sys) (mac : CStr) : Option (CStr × CStr) :=
  (okBody (answer host s ("GTMC".toList ++ ' ' :: mac))).map readEntry

/-- What `LMIP` lists, if it is OK. -/
def lmip (s : Sys) (remote : CStr) : Option (List CStr) :=
  (okBody (answer host s ("LMIP".toList ++ ' ' :: remote))).map fun body =>
    if body = [] then [] else body.splitOn ';'

/-- What `STUN` lists, nothing if it is not OK. Every entry ends with a semicolon. -/
def stun (s : Sys) : List (CStr × CStr) :=
  ((okBody (answer host s "STUN".toList)).map fun body =>
    (body.splitOn ';').dropLast.map readEntry).getD []

-- ---------------------------------------------------------------------------
-- Commands only read
-- ---------------------------------------------------------------------------

open Base

theorem tunnelLines_readOnly (fuel : Nat) (iter : Iter) : ReadOnly (tunnelLines fuel iter) := by
  induction fuel generalizing iter with
  | zero => exact .pure _
  | succ fuel ih =>
    refine .bind .get fun s => ?_
    split
    · exact .pure _
    · exact .bind (ih _) fun _ => .pure _

theorem listTunnels_readOnly : ReadOnly listTunnels := by
  refine .bind .get fun s => ?_
  split
  · exact .pure _
  · exact .bind (tunnelLines_readOnly _ _) fun _ => .pure _

theorem listMacs_readOnly (arg : CStr) : ReadOnly (listMacs arg) := by
  rw [listMacs]
  split
  · exact .pure _
  · refine .bind .get fun s => ?_
    split
    · exact .pure _
    · exact .pure _

theorem findTunnel_readOnly (arg : CStr) : ReadOnly (findTunnel arg) := by
  rw [findTunnel]
  split
  · exact .pure _
  · refine .bind .get fun s => ?_
    split
    · exact .pure _
    · exact .pure _

theorem plainCommand_readOnly (cmd : CStr) : ReadOnly (plainCommand host cmd) := by
  rw [plainCommand]
  repeat' split
  all_goals first
    | exact .pure _
    | exact listTunnels_readOnly

theorem serviceCommand_readOnly (command : CStr) : ReadOnly (serviceCommand host command) := by
  rw [serviceCommand]
  split
  · exact .pure _
  split
  · split
    · exact .pure _
    · exact plainCommand_readOnly host _
  · split
    · exact listMacs_readOnly _
    · split
      · exact findTunnel_readOnly _
      · exact .pure _
  · exact .pure _

-- ---------------------------------------------------------------------------
-- The text of an answer
-- ---------------------------------------------------------------------------

/-- A text that `strtok_r` does not cut. -/
structure IsToken (t : CStr) : Prop where
  ne_nil : t ≠ []
  solid : ∀ c ∈ t, isDelim c = false

theorem IsToken.of_all {t : CStr} (hne : t ≠ []) (h : t.any isDelim = false) : IsToken t :=
  ⟨hne, fun c hc => Bool.of_not_eq_true (List.any_eq_false.mp h c hc)⟩

theorem strtok_token {t : CStr} (h : IsToken t) : strtok t = [t] := by
  rw [strtok, List.splitOnP_eq_singleton h.solid]
  simp [h.ne_nil]

theorem strtok_pair {t arg : CStr} (h : IsToken t) (harg : IsToken arg) :
    strtok (t ++ ' ' :: arg) = [t, arg] := by
  rw [strtok, List.splitOnP_append_cons_of_forall_mem h.solid _ rfl,
    List.splitOnP_eq_singleton harg.solid]
  simp [h.ne_nil, harg.ne_nil]

theorem okBody_ok (body : CStr) : okBody (resultOk ++ body ++ ['\n']) = some body := by
  rw [okBody, if_pos (by rw [List.append_assoc]; exact List.prefix_append _ _), List.append_assoc,
    List.drop_left, List.dropLast_concat]

theorem okBody_notFound : okBody resultNotFound = none := by decide +kernel

theorem okBody_null : okBody resultNull = none := by decide +kernel

theorem readEntry_entry {remote name : CStr} (h : '@' ∉ remote) :
    readEntry (remote ++ '@' :: name) = (remote, name) := by
  rw [readEntry, strchr_append h]
  rfl

/-- The loop over the addresses from position `k` on, with a semicolon between them. -/
theorem macLines_from (macs : List CStr) (hne : macs ≠ []) (k : Nat) :
    ((macs.zipIdx k).flatMap fun e =>
        e.1 ++ if e.2 + 1 < k + macs.length then [';'] else ['\n']) =
      [';'].intercalate macs ++ ['\n'] := by
  induction macs generalizing k with
  | nil => exact absurd rfl hne
  | cons mac rest ih =>
    cases rest with
    | nil => simp
    | cons mac' rest =>
      have hrest := ih (List.cons_ne_nil mac' rest) (k + 1)
      have hlength : k + (mac :: mac' :: rest).length = k + 1 + (mac' :: rest).length := by
        rw [List.length_cons]
        omega
      rw [hlength, List.zipIdx_cons, List.flatMap_cons, hrest, List.intercalate_cons_cons,
        if_pos (by rw [List.length_cons]; simp only; omega)]
      simp

theorem macLines_append (macs : List CStr) :
    (macLines macs ++ if macs.length = 0 then ['\n'] else []) =
      [';'].intercalate macs ++ ['\n'] := by
  cases macs with
  | nil => rfl
  | cons mac rest =>
    have hlines := macLines_from (mac :: rest) (List.cons_ne_nil mac rest) 0
    rw [Nat.zero_add] at hlines
    rw [if_neg (by simp), List.append_nil, ← hlines]
    rfl

/-- No character of a class without the delimiters is one. -/
theorem not_isDelim {p : Char → Bool} {c : Char} (h : p c = true)
    (hp : [' ', '\t', '\r', '\n'].any p = false) : isDelim c = false := by
  by_contra hdelim
  simp only [isDelim, Bool.not_eq_false, Bool.or_eq_true, beq_iff_eq] at hdelim
  have hmem : c ∈ [' ', '\t', '\r', '\n'] := by
    simpa [or_assoc] using hdelim
  exact List.any_eq_false.mp hp c hmem h

theorem inetNtop_isToken (a : InAddr) : IsToken (inetNtop a) where
  ne_nil := by
    rw [inetNtop_eq]
    simp
  solid c hc := by
    rcases mem_inetNtop hc with hdigit | rfl
    · exact not_isDelim hdigit (by decide)
    · rfl

section Commands

variable {host} {s : Sys}

/-- A command with one argument. -/
theorem answer_of_pair {command cmd arg : CStr} (hlength : command.length < serviceMaxRequest)
    (htokens : strtok command = [cmd, arg]) :
    answer host s command =
      ((if cmd = "LMIP".toList then listMacs arg
        else if cmd = "GTMC".toList then findTunnel arg
        else return resultInvalid : ProvM CStr).run s).1 := by
  rw [answer, serviceCommand, if_neg (Nat.not_le.mpr hlength), htokens]

theorem answer_pair {cmd arg : CStr} (hcmd : IsToken cmd) (harg : IsToken arg)
    (hlength : cmd.length + arg.length < 255) :
    answer host s (cmd ++ ' ' :: arg) =
      ((if cmd = "LMIP".toList then listMacs arg
        else if cmd = "GTMC".toList then findTunnel arg
        else return resultInvalid : ProvM CStr).run s).1 := by
  refine answer_of_pair ?_ (strtok_pair hcmd harg)
  rw [List.length_append, List.length_cons, serviceMaxRequest]
  omega

theorem lmip_isToken : IsToken "LMIP".toList := .of_all (by decide) (by decide)

theorem gtmc_isToken : IsToken "GTMC".toList := .of_all (by decide) (by decide)

theorem stun_isToken : IsToken "STUN".toList := .of_all (by decide) (by decide)

theorem answer_lmip (a : InAddr) :
    answer host s ("LMIP".toList ++ ' ' :: inetNtop a) =
      match provisionGetTunnelByip s a with
      | none => resultNotFound
      | some p => resultOk ++ [';'].intercalate (sortMacs (s.deref p).macs.keys) ++ ['\n'] := by
  have hlength := length_inetNtop_le a
  rw [answer_pair lmip_isToken (inetNtop_isToken a)
    (by have : "LMIP".toList.length = 4 := rfl; omega), if_pos rfl, listMacs, inetPton_inetNtop]
  show (StateT.run (match provisionGetTunnelByip s a with
    | none => _
    | some p => _ : ProvM CStr) s).1 = _
  cases provisionGetTunnelByip s a with
  | none => rfl
  | some p =>
    show resultOk ++ macLines (sortMacs (s.deref p).macs.keys) ++ _ = resultOk ++ _ ++ ['\n']
    rw [List.append_assoc, macLines_append, ← List.append_assoc]

theorem answer_gtmc {m mac : CStr} (hm : IsToken m) (hlength : m.length = 17)
    (hmac : validMac m = some mac) :
    answer host s ("GTMC".toList ++ ' ' :: m) =
      match provisionGetTunnelByMac s mac with
      | none => resultNotFound
      | some p => resultOk ++ (s.deref p).entry ++ ['\n'] := by
  have hne : "GTMC".toList ≠ "LMIP".toList := by decide
  rw [answer_pair gtmc_isToken hm
    (by have : "GTMC".toList.length = 4 := rfl; omega), if_neg hne, if_pos rfl, findTunnel, hmac]
  show (StateT.run (match provisionGetTunnelByMac s mac with
    | none => _
    | some p => _ : ProvM CStr) s).1 = _
  cases provisionGetTunnelByMac s mac with
  | none => rfl
  | some p => rfl

/-- The loop of `STUN` writes what is left of the table. -/
theorem tunnelLines_run (fuel : Nat) (iter : Iter) (hfuel : (s.tunnels.rest iter).length < fuel) :
    wp (tunnelLines fuel iter) (fun text _ => text =
      (s.tunnels.rest iter).flatMap fun e => (s.deref e.2).entry ++ [';']) s := by
  induction fuel generalizing iter with
  | zero => exact absurd hfuel (Nat.not_lt_zero _)
  | succ fuel ih =>
    rw [tunnelLines, wp_bind, wp_get]
    rcases s.tunnels.iterNext_cases iter with ⟨hnil, _, hnone⟩ | ⟨key, p, iter', hsome, hrest, -⟩
    · rw [hnone, hnil]
      rfl
    · rw [hrest, List.length_cons] at hfuel
      have htail : ((tunnelLines fuel iter').run s).1 = _ := ih iter' (by omega)
      rw [hsome, hrest, List.flatMap_cons, ← htail, List.append_assoc]
      rfl

theorem listTunnels_run :
    (listTunnels.run s).1 =
      if s.tunnels.size = 0 then resultNull
      else resultOk ++ (s.tunnels.entries.flatMap fun e => (s.deref e.2).entry ++ [';']) ++
        ['\n'] := by
  show (StateT.run (if s.tunnels.size = 0 then _ else _ : ProvM CStr) s).1 = _
  split
  · rfl
  · have hfuel := s.tunnels.length_rest_le Table.iterInit
    have hlines : ((tunnelLines _ _).run s).1 = _ :=
      tunnelLines_run (s.tunnels.cap + 1) Table.iterInit (by omega)
    rw [Hashmap.rest_init] at hlines
    rw [← hlines]
    rfl

theorem answer_stun :
    answer host s "STUN".toList =
      if s.tunnels.size = 0 then resultNull
      else resultOk ++ (s.tunnels.entries.flatMap fun e => (s.deref e.2).entry ++ [';']) ++
        ['\n'] := by
  have hplain : serviceCommand host "STUN".toList = listTunnels := by
    rw [serviceCommand, if_neg (by decide), strtok_token stun_isToken]
    simp only
    rw [if_neg (by decide), plainCommand, if_neg (by decide), if_neg (by decide),
      if_neg (by decide), if_neg (by decide), if_pos rfl]
  rw [answer, hplain, listTunnels_run]

end Commands

-- ---------------------------------------------------------------------------
-- What a client reads
-- ---------------------------------------------------------------------------

/-- Nothing in the tables can be mistaken for a separator. -/
structure Sys.Legible (s : Sys) : Prop where
  mac : ∀ {p tun mac}, s.heap p = some tun → tun.macs.contains mac = true → mac ≠ [] ∧ ';' ∉ mac
  name : ∀ {p tun}, s.heap p = some tun → ';' ∉ tun.ifgre

theorem notMem_inetNtop {a : InAddr} {c : Char} (hdigit : isDigit c = false) (hdot : c ≠ '.') :
    c ∉ inetNtop a := by
  intro h
  rcases mem_inetNtop h with h | h
  · rw [hdigit] at h
    cases h
  · exact hdot h

/-- The remote and the interface of a tunnel, as `readEntry` gives them. -/
def TunnelContext.pair (tun : TunnelContext) : CStr × CStr := (inetNtop tun.ipRemote, tun.ifgre)

theorem readEntry_of_entry (tun : TunnelContext) : readEntry tun.entry = tun.pair :=
  readEntry_entry (notMem_inetNtop rfl (by decide))

/-- Entries with a semicolon behind each. -/
theorem splitOn_terminated (entries : List CStr) (h : ∀ e ∈ entries, ';' ∉ e) :
    (entries.flatMap fun e => e ++ [';']).splitOn ';' = entries ++ [[]] := by
  induction entries with
  | nil => rfl
  | cons e rest ih =>
    obtain ⟨he, hrest⟩ := List.forall_mem_cons.mp h
    rw [List.flatMap_cons, List.append_assoc, List.singleton_append,
      List.splitOn_append_cons_self_of_not_mem he, ih hrest, List.cons_append]

/-- Entries with a semicolon between them, none of them empty. -/
theorem splitOn_separated (entries : List CStr) (h : ∀ e ∈ entries, e ≠ [] ∧ ';' ∉ e) :
    (if [';'].intercalate entries = [] then [] else ([';'].intercalate entries).splitOn ';') =
      entries := by
  cases entries with
  | nil => rfl
  | cons e rest =>
    rw [if_neg, List.splitOn_intercalate _ (fun e he => (h e he).2) (List.cons_ne_nil e rest)]
    intro hnil
    have he := (h e List.mem_cons_self).1
    cases rest with
    | nil => exact he (by simpa using hnil)
    | cons e' rest =>
      rw [List.intercalate_cons_cons] at hnil
      simp at hnil

section Readings

variable {host} {s : Sys}

theorem gtmc_eq {m mac : CStr} (hm : IsToken m) (hlength : m.length = 17)
    (hmac : validMac m = some mac) :
    gtmc host s m = (provisionGetTunnelByMac s mac).map fun p => (s.deref p).pair := by
  rw [gtmc, answer_gtmc hm hlength hmac]
  cases provisionGetTunnelByMac s mac with
  | none => rw [okBody_notFound]; rfl
  | some p => rw [okBody_ok, Option.map_some, readEntry_of_entry]; rfl

theorem mem_sortMacs {macs : List CStr} {mac : CStr} : mac ∈ sortMacs macs ↔ mac ∈ macs :=
  List.mem_mergeSort

theorem compareMac_le_iff {a b : CStr} :
    decide (compareMac a b ≤ 0) = true ↔ LexLt a b ∨ a = b := by
  rw [decide_eq_true_iff, compareMac, strcmp_le_iff]

/-- Distinct addresses come out in strictly increasing order. -/
theorem sortMacs_sorted {macs : List CStr} (hnodup : macs.Nodup) :
    (sortMacs macs).Pairwise LexLt := by
  have htrans : ∀ a b c : CStr, decide (compareMac a b ≤ 0) = true →
      decide (compareMac b c ≤ 0) = true → decide (compareMac a c ≤ 0) = true := by
    simp only [compareMac_le_iff]
    rintro a b c (hab | rfl) (hbc | rfl)
    · exact .inl (hab.trans hbc)
    · exact .inl hab
    · exact .inl hbc
    · exact .inr rfl
  have htotal : ∀ a b : CStr,
      (decide (compareMac a b ≤ 0) || decide (compareMac b a ≤ 0)) = true := by
    intro a b
    rw [Bool.or_eq_true, compareMac_le_iff, compareMac_le_iff]
    rcases strcmp_cases a b with ⟨-, hlt⟩ | ⟨-, heq⟩ | ⟨-, hgt⟩
    · exact .inl (.inl hlt)
    · exact .inl (.inr heq)
    · exact .inr (.inl hgt)
  have hsorted := List.pairwise_mergeSort htrans htotal macs
  have hdistinct : (sortMacs macs).Nodup := (List.mergeSort_perm macs _).nodup_iff.mpr hnodup
  refine (hsorted.and hdistinct).imp fun hle => ?_
  rw [compareMac_le_iff] at hle
  exact hle.1.resolve_right hle.2

theorem mem_keys_iff {m : Hashmap strOps Unit} {mac : CStr} :
    mac ∈ m.keys ↔ m.contains mac = true := by
  rw [← Hashmap.mem_keySet, Hashmap.keySet, List.mem_toFinset]

theorem lmip_eq (hcon : s.Consistent) (hlegible : s.Legible) (a : InAddr) :
    lmip host s (inetNtop a) =
      (provisionGetTunnelByip s a).map fun p => sortMacs (s.deref p).macs.keys := by
  rw [lmip, answer_lmip]
  cases hlookup : provisionGetTunnelByip s a with
  | none => rw [okBody_notFound]; rfl
  | some p =>
    obtain ⟨tun, hp, -⟩ := hcon.remote_eq a p hlookup
    rw [okBody_ok, Option.map_some, Option.map_some, splitOn_separated]
    intro mac hmac
    rw [mem_sortMacs, mem_keys_iff, deref_of_some hp] at hmac
    exact hlegible.mac hp hmac

/-- Every pointer in the table leads to a record, that of its key. -/
theorem Sys.Consistent.entry {s : Sys} (hcon : s.Consistent) {key : UInt32} {p : Ptr}
    (h : (key, p) ∈ s.tunnels.entries) : ∃ tun, s.InTable ⟨key⟩ p tun ∧ tun.ipRemote = ⟨key⟩ := by
  have hlookup : provisionGetTunnelByip s ⟨key⟩ = some p := Hashmap.mem_entries_iff_lookup.mp h
  obtain ⟨tun, hp, hremote⟩ := hcon.remote_eq ⟨key⟩ p hlookup
  exact ⟨tun, ⟨hlookup, hp⟩, hremote⟩

theorem stun_eq (hcon : s.Consistent) (hlegible : s.Legible) :
    stun host s = s.tunnels.entries.map fun e => (s.deref e.2).pair := by
  rw [stun, answer_stun]
  split
  · next hzero =>
    have hnil : s.tunnels.entries = [] := by
      rw [Hashmap.size_eq_length] at hzero
      exact List.length_eq_zero_iff.mp hzero
    rw [okBody_null, hnil]
    rfl
  · have hflat : (s.tunnels.entries.flatMap fun e => (s.deref e.2).entry ++ [';']) =
        (s.tunnels.entries.map fun e => (s.deref e.2).entry).flatMap fun e => e ++ [';'] := by
      rw [List.flatMap_map]
    rw [okBody_ok, Option.map_some, Option.getD_some, hflat, splitOn_terminated,
      List.dropLast_concat, List.map_map]
    · exact List.map_congr_left fun e _ => readEntry_of_entry _
    · intro entry hentry
      obtain ⟨⟨key, p⟩, he, rfl⟩ := List.mem_map.mp hentry
      obtain ⟨tun, hin, -⟩ := hcon.entry he
      rw [deref_of_some hin.record, TunnelContext.entry, List.mem_append, List.mem_cons, not_or,
        not_or]
      exact ⟨notMem_inetNtop rfl (by decide), by decide, hlegible.name hin.record⟩

end Readings

-- ---------------------------------------------------------------------------
-- Addresses as text
-- ---------------------------------------------------------------------------

/-- A MAC address in any letter case. -/
def MacText (m : CStr) : Prop := ∃ mac : Vector UInt8 6, m.map toLower = macText mac

/-- What `valid_mac` asks of the character at each position. -/
def macShape (e : Char × Nat) : Bool := if e.2 % 3 == 2 then e.1 == ':' else isXdigit e.1

theorem macShape_toLower (c : Char) (i : Nat) : macShape (toLower c, i) = macShape (c, i) := by
  by_cases hupper : ('A' ≤ c && c ≤ 'Z') = true
  · rw [Bool.and_eq_true, decide_eq_true_eq, decide_eq_true_eq] at hupper
    have hlow : 65 ≤ c.toNat := UInt32.le_iff_toNat_le.mp hupper.1
    have hhigh : c.toNat ≤ 90 := UInt32.le_iff_toNat_le.mp hupper.2
    have hsame : ∀ n, 65 ≤ n → n ≤ 90 → ∀ j < 3, macShape (toLower (Char.ofNat n), j) =
        macShape (Char.ofNat n, j) := by
      intro n hn hn' j hj
      interval_cases n <;> interval_cases j <;> rfl
    have hmod : ∀ d : Char, macShape (d, i) = macShape (d, i % 3) := by
      intro d
      simp only [macShape, Nat.mod_mod]
    rw [hmod, hmod c, ← Char.ofNat_toNat c]
    exact hsame c.toNat hlow hhigh _ (Nat.mod_lt _ (by decide))
  · rw [toLower, if_neg hupper]

theorem zipIdx_all_toLower (m : CStr) (k : Nat) :
    ((m.map toLower).zipIdx k).all macShape = (m.zipIdx k).all macShape := by
  induction m generalizing k with
  | nil => rfl
  | cons c m ih =>
    rw [List.map_cons, List.zipIdx_cons, List.zipIdx_cons, List.all_cons, List.all_cons,
      macShape_toLower, ih]

theorem isXdigit_digitChar {n : Nat} (hn : n < 16) : isXdigit (Nat.digitChar n) = true := by
  interval_cases n <;> rfl

theorem macText_shape (mac : Vector UInt8 6) :
    (macText mac).length = 17 ∧ (macText mac).zipIdx.all macShape = true := by
  have hhigh : ∀ b : UInt8, isXdigit (Nat.digitChar (b.toNat / 16)) = true := fun b =>
    isXdigit_digitChar (Nat.div_lt_of_lt_mul b.toNat_lt)
  have hlow : ∀ b : UInt8, isXdigit (Nat.digitChar (b.toNat % 16)) = true := fun b =>
    isXdigit_digitChar (Nat.mod_lt _ (by decide))
  obtain ⟨b0, b1, b2, b3, b4, b5, -, htext⟩ := macText_eq mac
  rw [htext]
  simp [hex2, macShape, hhigh, hlow]

theorem MacText.validMac {m : CStr} (h : MacText m) :
    validMac m = some (m.map toLower) ∧ m.length = 17 ∧ IsToken m := by
  obtain ⟨mac, hmac⟩ := h
  obtain ⟨hlength, hshape⟩ := macText_shape mac
  rw [← hmac, List.length_map] at hlength
  rw [← hmac, zipIdx_all_toLower] at hshape
  refine ⟨?_, hlength, ?_, ?_⟩
  · rw [Softgre.validMac, if_pos]
    rw [Bool.and_eq_true, beq_iff_eq]
    exact ⟨hlength, hshape⟩
  · rintro rfl
    cases hlength
  · intro c hc
    obtain ⟨i, hi⟩ := List.mem_iff_getElem?.mp hc
    have hc' := List.all_eq_true.mp hshape (c, i) (List.mem_zipIdx_iff_getElem?.mpr hi)
    rw [macShape] at hc'
    split at hc'
    · have hcolon : c = ':' := beq_iff_eq.mp hc'
      rw [hcolon]
      rfl
    · exact not_isDelim hc' (by decide)

theorem macText_legible (mac : Vector UInt8 6) : macText mac ≠ [] ∧ ';' ∉ macText mac := by
  obtain ⟨hlength, hshape⟩ := macText_shape mac
  refine ⟨fun hnil => ?_, fun hmem => ?_⟩
  · rw [hnil] at hlength
    cases hlength
  · obtain ⟨i, hi⟩ := List.mem_iff_getElem?.mp hmem
    have hc := List.all_eq_true.mp hshape (';', i) (List.mem_zipIdx_iff_getElem?.mpr hi)
    rw [macShape] at hc
    split at hc
    · cases hc
    · cases hc

-- ---------------------------------------------------------------------------
-- Reachable states
-- ---------------------------------------------------------------------------

section Reachable

variable (cfg : SoftgredConfig) (env : Env) (w : World) {calls : List Call}

/-- Calls of the main loop only learn addresses from packets. -/
theorem labels_comesFrom {call : Call} (hloop : call.fromLoop = true) {l : Label}
    (hl : call.Labels l) :
    l.ComesFrom (fun _ => True) fun _ mac => ∃ bytes, mac = macText bytes := by
  cases call with
  | packet packet =>
    rcases hl with ((rfl | rfl) | rfl | rfl) | rfl
    · trivial
    · trivial
    · exact ⟨packet.mac, rfl⟩
    · trivial
    · trivial
  | delall =>
    rcases hl with hl | rfl
    · cases hl
      trivial
    · trivial
  | wait usec =>
    cases hl
    trivial
  | add | allowMac | del => cases hloop

theorem run_macs (hloop : ∀ call ∈ calls, call.fromLoop = true) :
    (run cfg env calls (provisionInit w)).abs.store.ComesFrom (fun _ => True)
      fun _ mac => ∃ bytes, mac = macText bytes := by
  have hstart : (provisionInit w).abs.store.ComesFrom (fun _ => True)
      fun _ mac => ∃ bytes, mac = macText bytes := by
    intro p t ht
    rw [abs_provisionInit] at ht
    cases ht
  refine (run_invariant (I := fun s => s.Tables cfg ∧ s.abs.store.ComesFrom (fun _ => True)
      fun _ mac => ∃ bytes, mac = macText bytes) (fun call s hcall hs => ?_) hloop
    ⟨⟨provisionInit_tables cfg w, provisionInit_idle w⟩, hstart⟩).2
  refine ⟨exec_tables cfg env call hs.1, ?_⟩
  exact Core.trail_comesFrom (fun l hl => labels_comesFrom hcall hl)
    (exec_trail cfg env call hs.1.1 hs.1.2) hs.1.1 hs.2

theorem semicolon_notMem_tunnelName {id : Nat} (hid : id < maxSlots) :
    ';' ∉ tunnelName cfg id := by
  rw [tunnelName_eq cfg hid, List.mem_append, not_or]
  refine ⟨fun hmem => ?_, fun hmem => ?_⟩
  · have hvalid := cfg.prefix_valid
    simp only [configValidIfname, Bool.and_eq_true, List.all_eq_true] at hvalid
    exact absurd (hvalid.2 _ hmem) (by decide)
  · exact absurd (isDigit_of_mem_dec hmem) (by decide)

theorem run_legible (hloop : ∀ call ∈ calls, call.fromLoop = true) :
    (run cfg env calls (provisionInit w)).Legible where
  mac hp hmac := by
    obtain ⟨bytes, rfl⟩ := (run_macs cfg env w hloop _ _ (heap_abs_of_some hp)).2 _
      (Hashmap.mem_keySet.mpr hmac)
    exact macText_legible bytes
  name {p tun} hp := by
    have htables := (run_tables cfg env calls
      ⟨provisionInit_tables cfg w, provisionInit_idle w⟩).1
    have hname : tun.ifgre = tunnelName cfg tun.id := htables.ifgre_eq (heap_abs_of_some hp)
    rw [hname]
    exact semicolon_notMem_tunnelName cfg (htables.id_lt (heap_abs_of_some hp))

end Reachable

-- ---------------------------------------------------------------------------
-- The answers agree
-- ---------------------------------------------------------------------------

/-- What the answers in a state have to do with each other and with the tables. -/
structure Sys.AnswersAgree (s : Sys) : Prop where
  /-- `GTMC` names the remote whose `LMIP` lists the address. -/
  gtmc_iff : ∀ a m, MacText m → ((∃ n, gtmc host s m = some (inetNtop a, n)) ↔
    ∃ macs, lmip host s (inetNtop a) = some macs ∧ m.map toLower ∈ macs)
  lmip_iff : ∀ a, (lmip host s (inetNtop a)).isSome = true ↔ ∃ n, (inetNtop a, n) ∈ stun host s
  /-- `GTMC` and `STUN` report the same interface. -/
  gtmc_stun : ∀ a m n, MacText m → gtmc host s m = some (inetNtop a, n) →
    ∀ n', (inetNtop a, n') ∈ stun host s ↔ n' = n
  /-- `STUN` lists every tunnel once, and nothing else. -/
  stun_once : ∀ remote p tun, s.InTable remote p tun →
    (stun host s).count (inetNtop remote, tun.ifgre) = 1 ∧
      ((stun host s).map Prod.fst).count (inetNtop remote) = 1
  stun_tunnel : ∀ e ∈ stun host s, ∃ remote p tun, s.InTable remote p tun ∧
    e = (inetNtop remote, tun.ifgre)
  /-- `LMIP` lists the addresses of the tunnel, sorted. -/
  lmip_macs : ∀ remote p tun, s.InTable remote p tun →
    ∃ macs, lmip host s (inetNtop remote) = some macs ∧
      (∀ mac, mac ∈ macs ↔ tun.macs.contains mac = true) ∧ macs.Pairwise LexLt
  readOnly : ∀ command, ((serviceCommand host command).run s).2 = s

section Agreement

variable {host} {s : Sys} (hcon : s.Consistent) (hlegible : s.Legible)

include hcon

theorem Sys.Consistent.remote {remote : InAddr} {p : Ptr} {tun : TunnelContext}
    (h : s.InTable remote p tun) : tun.ipRemote = remote := by
  obtain ⟨tun', hp, hremote⟩ := hcon.remote_eq remote p h.lookup
  cases h.record.symm.trans hp
  exact hremote

/-- A MAC address is found where the record that holds it is. -/
theorem gtmc_eq_some_iff {m : CStr} (hm : MacText m) {e : CStr × CStr} :
    gtmc host s m = some e ↔ ∃ remote p tun, s.InTable remote p tun ∧
      tun.macs.contains (m.map toLower) = true ∧ e = (inetNtop remote, tun.ifgre) := by
  obtain ⟨hvalid, hlength, htoken⟩ := hm.validMac
  rw [gtmc_eq htoken hlength hvalid, Option.map_eq_some_iff]
  constructor
  · rintro ⟨p, hfound, rfl⟩
    obtain ⟨remote, tun, hin, hmac⟩ := (hcon.mac_iff _ p).mp hfound
    refine ⟨remote, p, tun, hin, hmac, ?_⟩
    rw [deref_of_some hin.record, TunnelContext.pair, hcon.remote hin]
  · rintro ⟨remote, p, tun, hin, hmac, rfl⟩
    refine ⟨p, (hcon.mac_iff _ p).mpr ⟨remote, tun, hin, hmac⟩, ?_⟩
    rw [deref_of_some hin.record, TunnelContext.pair, hcon.remote hin]

include hlegible

theorem mem_stun_iff {e : CStr × CStr} :
    e ∈ stun host s ↔ ∃ remote p tun, s.InTable remote p tun ∧
      e = (inetNtop remote, tun.ifgre) := by
  rw [stun_eq hcon hlegible, List.mem_map]
  constructor
  · rintro ⟨⟨key, p⟩, he, rfl⟩
    obtain ⟨tun, hin, hremote⟩ := hcon.entry he
    refine ⟨⟨key⟩, p, tun, hin, ?_⟩
    rw [deref_of_some hin.record, TunnelContext.pair, hremote]
  · rintro ⟨⟨key⟩, p, tun, hin, rfl⟩
    refine ⟨(key, p), Hashmap.mem_entries_iff_lookup.mpr hin.lookup, ?_⟩
    rw [deref_of_some hin.record, TunnelContext.pair, hcon.remote hin]

theorem lmip_of_inTable {remote : InAddr} {p : Ptr} {tun : TunnelContext}
    (h : s.InTable remote p tun) :
    lmip host s (inetNtop remote) = some (sortMacs tun.macs.keys) := by
  rw [lmip_eq hcon hlegible, h.lookup, Option.map_some, deref_of_some h.record]

theorem lmip_eq_some_iff {a : InAddr} {macs : List CStr} :
    lmip host s (inetNtop a) = some macs ↔
      ∃ p tun, s.InTable a p tun ∧ macs = sortMacs tun.macs.keys := by
  constructor
  · intro h
    rw [lmip_eq hcon hlegible, Option.map_eq_some_iff] at h
    obtain ⟨p, hlookup, rfl⟩ := h
    obtain ⟨tun, hp, -⟩ := hcon.remote_eq a p hlookup
    exact ⟨p, tun, ⟨hlookup, hp⟩, by rw [deref_of_some hp]⟩
  · rintro ⟨p, tun, hin, rfl⟩
    exact lmip_of_inTable hcon hlegible hin

/-- No remote is listed twice. -/
theorem nodup_stun_remotes : ((stun host s).map Prod.fst).Nodup := by
  have hremotes : (stun host s).map Prod.fst = s.tunnels.keys.map fun key => inetNtop ⟨key⟩ := by
    rw [stun_eq hcon hlegible, List.map_map, show s.tunnels.keys = s.tunnels.entries.map _ from rfl,
      List.map_map]
    refine List.map_congr_left fun e he => ?_
    obtain ⟨tun, hin, hremote⟩ := hcon.entry he
    simp only [Function.comp_apply]
    rw [deref_of_some hin.record, TunnelContext.pair, hremote]
  rw [hremotes]
  refine List.Nodup.map (fun key key' heq => ?_) (Hashmap.nodup_keys _)
  exact congrArg InAddr.sAddr (inetNtop_injective heq)

theorem answers_agree_of_consistent : s.AnswersAgree host := by
  have hsame : ∀ {remote p p' tun tun'}, s.InTable remote p tun → s.InTable remote p' tun' →
      tun = tun' := by
    intro remote p p' tun tun' h h'
    cases h.lookup.symm.trans h'.lookup
    exact Option.some.inj (h.record.symm.trans h'.record)
  refine
    { gtmc_iff := fun a m hm => ⟨?_, ?_⟩
      lmip_iff := fun a => ?_
      gtmc_stun := fun a m n hm hfound n' => ⟨?_, ?_⟩
      stun_once := fun remote p tun hin => ⟨?_, ?_⟩
      stun_tunnel := fun e he => (mem_stun_iff hcon hlegible).mp he
      lmip_macs := fun remote p tun hin =>
        ⟨_, lmip_of_inTable hcon hlegible hin, fun mac => ?_, sortMacs_sorted (Hashmap.nodup_keys _)⟩
      readOnly := fun command => serviceCommand_readOnly host command s }
  · rintro ⟨n, hfound⟩
    obtain ⟨remote, p, tun, hin, hmac, he⟩ := (gtmc_eq_some_iff hcon hm).mp hfound
    cases inetNtop_injective (congrArg Prod.fst he)
    refine ⟨_, lmip_of_inTable hcon hlegible hin, ?_⟩
    rwa [mem_sortMacs, mem_keys_iff]
  · rintro ⟨macs, hlist, hmac⟩
    obtain ⟨p, tun, hin, rfl⟩ := (lmip_eq_some_iff hcon hlegible).mp hlist
    rw [mem_sortMacs, mem_keys_iff] at hmac
    exact ⟨tun.ifgre, (gtmc_eq_some_iff hcon hm).mpr ⟨a, p, tun, hin, hmac, rfl⟩⟩
  · constructor
    · intro h
      obtain ⟨macs, hlist⟩ := Option.isSome_iff_exists.mp h
      obtain ⟨p, tun, hin, -⟩ := (lmip_eq_some_iff hcon hlegible).mp hlist
      exact ⟨tun.ifgre, (mem_stun_iff hcon hlegible).mpr ⟨a, p, tun, hin, rfl⟩⟩
    · rintro ⟨n, hlisted⟩
      obtain ⟨remote, p, tun, hin, he⟩ := (mem_stun_iff hcon hlegible).mp hlisted
      cases inetNtop_injective (congrArg Prod.fst he)
      rw [lmip_of_inTable hcon hlegible hin]
      rfl
  · intro hlisted
    obtain ⟨remote, p, tun, hin, -, he⟩ := (gtmc_eq_some_iff hcon hm).mp hfound
    obtain ⟨remote', p', tun', hin', he'⟩ := (mem_stun_iff hcon hlegible).mp hlisted
    cases inetNtop_injective (congrArg Prod.fst he)
    cases inetNtop_injective (congrArg Prod.fst he')
    cases hsame hin hin'
    exact (congrArg Prod.snd he').trans (congrArg Prod.snd he).symm
  · rintro rfl
    obtain ⟨remote, p, tun, hin, -, he⟩ := (gtmc_eq_some_iff hcon hm).mp hfound
    exact (mem_stun_iff hcon hlegible).mpr ⟨remote, p, tun, hin, he⟩
  · refine List.count_eq_one_of_mem (nodup_stun_remotes hcon hlegible).of_map ?_
    exact (mem_stun_iff hcon hlegible).mpr ⟨remote, p, tun, hin, rfl⟩
  · refine List.count_eq_one_of_mem (nodup_stun_remotes hcon hlegible) ?_
    refine List.mem_map.mpr ⟨(inetNtop remote, tun.ifgre), ?_, rfl⟩
    exact (mem_stun_iff hcon hlegible).mpr ⟨remote, p, tun, hin, rfl⟩
  · rw [mem_sortMacs, mem_keys_iff]

end Agreement

/-- After every run of the main loop, whatever failed in it, the status commands
    agree with each other and with the tables, and change nothing. -/
theorem status_answers_agree (host : HostInfo) (cfg : SoftgredConfig) (env : Env) (w : World)
    (calls : List Call) (hloop : ∀ call ∈ calls, call.fromLoop = true) :
    (run cfg env calls (provisionInit w)).AnswersAgree host :=
  answers_agree_of_consistent (run_consistent cfg env w calls) (run_legible cfg env w hloop)

/-- Asked about the address in capitals, `GTMC` names the remote that `LMIP` lists it
    for. -/
theorem status_answers_agree_capitals :
    ∃ macs, lmip ⟨[], [], [], [], 0, [], 0⟩ (run Sample.config Sample.obliging
        [.packet { Sample.packet with mac := #v[0xaa, 0, 0, 0, 0, 0xb1] }, .wait 3]
        (Sample.start Sample.obliging)) (inetNtop (InAddr.ofBytes 10 0 0 2)) = some macs ∧
      "AA:00:00:00:00:B1".toList.map toLower ∈ macs :=
  ((status_answers_agree ⟨[], [], [], [], 0, [], 0⟩ Sample.config Sample.obliging _
      [.packet _, .wait 3] (by simp [Call.fromLoop])).gtmc_iff _ _
    ⟨#v[0xaa, 0, 0, 0, 0, 0xb1], by decide +kernel⟩).mp ⟨"gre0".toList, by decide +kernel⟩

end Softgre
