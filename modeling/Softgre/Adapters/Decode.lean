-- SUMMARY: The adapters read out of the daemon's answers what its tables hold.
import Softgre.Adapters
import Softgre.Service.Answers
import Softgre.Service.Framing

/-!
# Decoding

The daemon prints its tables with `printf`, and the adapters match the text with
regular expressions of their own. Everything between the separators is visible
ASCII without a separator in it, so what they read is what was printed.
-/

namespace Softgre

open Base (Regex)

/-- The daemon in a fixed state, as its clients see it. The network cuts a reply as
    `cut` says. -/
def daemon (host : HostInfo) (s : Sys) (cut : CStr → Nat → Nat) : Backend := fun command =>
  match framed (answer host s) command false with
  | .answered response => .replies (response.map Char.toUInt8) (cut command)
  | .silent => .replies [] (cut command)

-- ---------------------------------------------------------------------------
-- Receiving
-- ---------------------------------------------------------------------------

section Receive

variable (stream : List UInt8) (cut : Nat → Nat)

/-- A `recv` returns a part of what is to come, and nothing only at the end. -/
theorem recv_cases (received : Nat) {limit : Nat} (hlimit : 0 < limit) :
    (recv stream cut received limit = [] ∧ stream.drop received = []) ∨
      ∃ chunk, recv stream cut received limit = chunk ∧ chunk ≠ [] ∧
        stream.drop received = chunk ++ stream.drop (received + chunk.length) := by
  by_cases hnil : recv stream cut received limit = []
  · refine .inl ⟨hnil, ?_⟩
    rcases List.take_eq_nil_iff.mp hnil with hzero | hnil
    · omega
    · exact hnil
  · refine .inr ⟨_, rfl, hnil, ?_⟩
    rw [← List.drop_drop, recv, List.length_take]
    conv_lhs => rw [← List.take_append_drop (min limit (cut received + 1)) (stream.drop received)]
    congr 1
    rcases Nat.le_total (min limit (cut received + 1)) (stream.drop received).length with hle | hle
    · rw [Nat.min_eq_left hle]
    · rw [Nat.min_eq_right hle, List.drop_of_length_le hle, List.drop_of_length_le (Nat.le_refl _)]

variable {stream cut}

theorem length_le_of_drop {received : Nat} {chunk : List UInt8} (hne : chunk ≠ [])
    (h : stream.drop received = chunk ++ stream.drop (received + chunk.length)) :
    received + chunk.length ≤ stream.length ∧ 0 < chunk.length := by
  have hlength := congrArg List.length h
  have hpos := List.length_pos_iff.mpr hne
  rw [List.length_append, List.length_drop, List.length_drop] at hlength
  omega

/-- However the reply is cut, the dashboard receives all of it. -/
theorem receiveChunks_eq (hle : stream.length ≤ maxResponse) (fuel size : Nat)
    (hfuel : stream.length < size + fuel) (hsize : size ≤ stream.length) :
    receiveChunks stream cut fuel size = .ok (stream.drop size) := by
  induction fuel generalizing size with
  | zero => omega
  | succ fuel ih =>
    rw [receiveChunks]
    have hlimit : 0 < min 8192 (maxResponse + 1 - size) := by omega
    rcases recv_cases stream cut size hlimit with ⟨hnil, hend⟩ | ⟨chunk, hchunk, hne, hrest⟩
    · rw [hnil, hend]
      rfl
    · obtain ⟨hend, hpos⟩ := length_le_of_drop hne hrest
      have hbound : ¬ size + chunk.length > maxResponse := by omega
      rw [hchunk, if_neg (by simpa using hne), if_neg hbound,
        ih (size + chunk.length) (by omega) hend, hrest]
      rfl

/-- However the reply is cut, the lease hook receives all of it. -/
theorem receiveReply_eq (hle : stream.length ≤ maxReply) (fuel size : Nat)
    (hfuel : stream.length < size + fuel) (hsize : size ≤ stream.length) :
    receiveReply stream cut fuel size = stream.drop size := by
  induction fuel generalizing size with
  | zero => omega
  | succ fuel ih =>
    rw [receiveReply, if_pos (Nat.le_trans hsize hle)]
    have hlimit : 0 < maxReply := by decide
    rcases recv_cases stream cut size hlimit with ⟨hnil, hend⟩ | ⟨chunk, hchunk, hne, hrest⟩
    · rw [hnil, hend]
      rfl
    · obtain ⟨hend, hpos⟩ := length_le_of_drop hne hrest
      simp only [hchunk]
      rw [if_neg (by simpa using hne), ih (size + chunk.length) (by omega) hend, hrest]

end Receive

-- ---------------------------------------------------------------------------
-- Decoding
-- ---------------------------------------------------------------------------

section Ascii

variable {s : List Char}

theorem utf8Encode_ascii (h : ∀ c ∈ s, c.toNat < 128) :
    s.utf8Encode = ByteArray.mk (s.map Char.toUInt8).toArray := by
  have hencode : s.flatMap String.utf8EncodeChar = s.map Char.toUInt8 := by
    rw [List.map_eq_flatMap]
    refine List.flatMap_congr fun c hc => ?_
    have hsize : c.utf8Size = 1 :=
      Char.utf8Size_eq_one_iff.mpr (UInt32.le_iff_toNat_le.mpr (Nat.le_of_lt_succ (h c hc)))
    rw [String.utf8EncodeChar_eq_singleton hsize]
    rfl
  rw [List.utf8Encode, hencode]
  exact ByteArray.ext List.data_toByteArray

theorem decodeUtf8_ascii (h : ∀ c ∈ s, c.toNat < 128) : decodeUtf8 (s.map Char.toUInt8) = some s := by
  rw [decodeUtf8, ← utf8Encode_ascii h, List.utf8Decode?_utf8Encode]
  rfl

theorem decodeAscii_ascii (h : ∀ c ∈ s, c.toNat < 128) : decodeAscii (s.map Char.toUInt8) = s := by
  rw [decodeAscii, List.map_map]
  refine (List.map_congr_left fun c hc => ?_).trans (List.map_id s)
  have hc := h c hc
  have hbyte : c.toUInt8.toNat = c.toNat := by
    rw [Char.toUInt8, UInt32.toNat_toUInt8]
    exact Nat.mod_eq_of_lt (by have : c.val.toNat = c.toNat := rfl; omega)
  have hlt : c.toUInt8 < 128 := UInt8.lt_iff_toNat_lt.mpr (by rw [hbyte]; exact hc)
  rw [Function.comp_apply, if_pos hlt, hbyte, Char.ofNat_toNat]
  rfl

end Ascii

-- ---------------------------------------------------------------------------
-- Matching
-- ---------------------------------------------------------------------------

theorem fullmatch_ok (body : List Char) :
    responsePattern.fullmatch (resultOk ++ body) = some [(1, "OK".toList), (2, body)] := by
  have hword : ∀ t d, (Regex.oneOf (.text "OK".toList) [.text "NULL".toList, .text "NOTFOUND".toList,
      .text "INVALID".toList]).Matches t d → '\n' ∉ t := by
    rintro t d (((⟨rfl, -⟩ | ⟨rfl, -⟩) | ⟨rfl, -⟩) | ⟨rfl, -⟩)
    · decide
    · decide
    · decide
    · decide
  have hiff : ∀ c, responsePattern.Matches (resultOk ++ body) c ↔ c = [(1, "OK".toList), (2, body)] := by
    intro c
    have htext : resultOk ++ body =
        "RESULT: ".toList ++ ("OK".toList ++ '\n' :: ("BODY: ".toList ++ body)) := rfl
    rw [htext, responsePattern, Regex.matches_text_cons,
      Regex.matches_group_separator hword (by decide)]
    simp only [Regex.matches_concat_singleton, Regex.matches_optional, Regex.matches_text_cons]
    constructor
    · rintro ⟨d, d', rfl, hd, ⟨_, rfl, -, -, -, rfl⟩ | ⟨hnil, -⟩⟩
      · rcases hd with ((⟨-, rfl⟩ | ⟨-, rfl⟩) | ⟨-, rfl⟩) | ⟨-, rfl⟩
        · rfl
        · rfl
        · rfl
        · rfl
      · exact absurd hnil (List.append_ne_nil_of_left_ne_nil (by decide) _)
    · rintro rfl
      exact ⟨[], _, rfl, .inl (.inl (.inl ⟨rfl, rfl⟩)), .inl ⟨[], rfl, fun _ _ => rfl,
        Nat.zero_le _, nofun, rfl⟩⟩
  exact Regex.fullmatch_of_unique ((hiff _).mpr rfl) fun d hd => (hiff d).mp hd

theorem rstripNewlines_concat {body : List Char} (h : ∀ c ∈ body, pyIsSpace c = false) :
    rstripNewlines (body ++ ['\n']) = body := by
  rw [rstripNewlines, List.rdropWhile_concat_pos _ _ _ rfl, List.rdropWhile_eq_self_iff]
  intro hne hend
  have hlast := h _ (List.getLast_mem hne)
  simp only [Bool.or_eq_true, beq_iff_eq] at hend
  rcases hend with hend | hend
  · rw [hend] at hlast
    cases hlast
  · rw [hend] at hlast
    cases hlast

theorem strip_eq_self {body : List Char} (h : ∀ c ∈ body, pyIsSpace c = false) : strip body = body := by
  have hdrop : body.dropWhile pyIsSpace = body := by
    cases body with
    | nil => rfl
    | cons c rest => rw [List.dropWhile_cons_of_neg (by rw [h c List.mem_cons_self]; decide)]
  rw [strip, hdrop, List.rdropWhile_eq_self_iff]
  intro hne
  rw [h _ (List.getLast_mem hne)]
  decide

theorem parseResponse_ok {action : Action} (haction : action ≠ .help) {body : List Char}
    (h : ∀ c ∈ body, pyIsSpace c = false) :
    parseResponse action (resultOk ++ body ++ ['\n']) = .ok ⟨"OK".toList, body⟩ := by
  rw [parseResponse, if_neg haction, List.append_assoc, fullmatch_ok]
  show Except.ok (Response.mk "OK".toList (rstripNewlines (body ++ ['\n']))) = _
  rw [rstripNewlines_concat h]

theorem parseResponse_null :
    parseResponse .tunnels resultNull = .ok ⟨"NULL".toList, []⟩ := by
  decide +kernel

/-- The remote ends at the `@`, which is no digit and no dot, and the interface at the
    line feed. -/
theorem fullmatch_lease {remote name : List Char} (hremote : ∀ c ∈ remote, isDigit c = true ∨ c = '.')
    (hname : ∀ c ∈ name, (isWord c || c == '.' || c == '-') = true) (hne : remote ≠ [])
    (hne' : name ≠ []) :
    leasePattern.fullmatch (resultOk ++ (remote ++ '@' :: name) ++ ['\n']) =
      some [(1, remote), (2, name)] := by
  have hremote' : (Regex.chars (fun c => isDigit c || c == '.') 1 none).Matches remote [] :=
    ⟨by simpa using hremote, List.length_pos_iff.mpr hne, nofun, rfl⟩
  have hname' : (Regex.chars (fun c => isWord c || c == '.' || c == '-') 1 none).Matches name [] :=
    ⟨hname, List.length_pos_iff.mpr hne', nofun, rfl⟩
  have hiff : ∀ c, leasePattern.Matches (resultOk ++ (remote ++ '@' :: name) ++ ['\n']) c ↔
      c = [(1, remote), (2, name)] := by
    intro c
    have htext : resultOk ++ (remote ++ '@' :: name) ++ ['\n'] =
        "RESULT: OK\nBODY: ".toList ++ (remote ++ '@' :: (name ++ '\n' :: [])) := by
      rw [List.append_assoc, List.append_assoc]
      rfl
    rw [htext, leasePattern, Regex.matches_text_cons, Regex.matches_chars_separator rfl hremote']
    simp only [Regex.matches_chars_separator (x := '\n') rfl hname']
    constructor
    · rintro ⟨_, rfl, _, rfl, -, rfl⟩
      rfl
    · rintro rfl
      exact ⟨_, rfl, [], rfl, rfl, rfl⟩
  exact Regex.fullmatch_of_unique ((hiff _).mpr rfl) fun d hd => (hiff d).mp hd

theorem fullmatch_name {name : List Char} (hlength : 1 ≤ name.length ∧ name.length ≤ 15)
    (hname : ∀ c ∈ name, (isAlnum c || c == '_' || c == '.' || c == '-') = true) :
    (namePattern.fullmatch name).isNone = false := by
  have hmatch : namePattern.Matches name [] :=
    ⟨hname, hlength.1, by simpa using hlength.2, rfl⟩
  rw [Regex.fullmatch_of_unique hmatch fun d hd => hd.2.2.2]
  rfl

theorem fullmatch_lease_notFound : leasePattern.fullmatch resultNotFound = none := by
  decide +kernel

-- ---------------------------------------------------------------------------
-- Queries
-- ---------------------------------------------------------------------------

/-- A text of visible ASCII characters, which is neither replaced nor stripped. -/
def Visible (s : List Char) : Prop := ∀ c ∈ s, 32 < c.toNat ∧ c.toNat < 127

section Visible

variable {s t : List Char}

theorem Visible.ascii (h : Visible s) : ∀ c ∈ s, c.toNat < 128 := by
  intro c hc
  have := h c hc
  omega

theorem Visible.solid (h : Visible s) : ∀ c ∈ s, pyIsSpace c = false := by
  intro c hc
  have hbounds := h c hc
  simp only [pyIsSpace, Bool.or_eq_false_iff, Bool.and_eq_false_iff, decide_eq_false_iff_not,
    beq_eq_false_iff_ne]
  omega

theorem Visible.append (hs : Visible s) (ht : Visible t) : Visible (s ++ t) := by
  intro c hc
  rcases List.mem_append.mp hc with hc | hc
  · exact hs c hc
  · exact ht c hc

theorem Visible.flatMap {α : Type} {l : List α} {f : α → List Char} (h : ∀ a ∈ l, Visible (f a)) :
    Visible (l.flatMap f) := by
  intro c hc
  obtain ⟨a, ha, hc⟩ := List.mem_flatMap.mp hc
  exact h a ha c hc

theorem Visible.intercalate {l : List (List Char)} (h : ∀ t ∈ l, Visible t) :
    Visible ([';'].intercalate l) := by
  induction l with
  | nil => exact fun c hc => absurd hc List.not_mem_nil
  | cons t rest ih =>
    obtain ⟨ht, hrest⟩ := List.forall_mem_cons.mp h
    cases rest with
    | nil => simpa using ht
    | cons t' rest =>
      rw [List.intercalate_cons_cons]
      exact (ht.append (by simp [Visible])).append (ih hrest)

/-- Characters in a range of visible ones. -/
theorem visible_of_le {c lo hi : Char} (h : lo ≤ c ∧ c ≤ hi) (hlo : 32 < lo.toNat)
    (hhi : hi.toNat < 127) : 32 < c.toNat ∧ c.toNat < 127 :=
  ⟨Nat.lt_of_lt_of_le hlo (UInt32.le_iff_toNat_le.mp h.1),
    Nat.lt_of_le_of_lt (UInt32.le_iff_toNat_le.mp h.2) hhi⟩

theorem visible_of_isDigit {c : Char} (h : isDigit c = true) : 32 < c.toNat ∧ c.toNat < 127 := by
  rw [isDigit, Bool.and_eq_true, decide_eq_true_eq, decide_eq_true_eq] at h
  exact visible_of_le h (by decide) (by decide)

theorem visible_of_isXdigit {c : Char} (h : isXdigit c = true) : 32 < c.toNat ∧ c.toNat < 127 := by
  simp only [isXdigit, Bool.or_eq_true, Bool.and_eq_true, decide_eq_true_eq] at h
  rcases h with (h | h) | h
  · exact visible_of_isDigit h
  · exact visible_of_le h (by decide) (by decide)
  · exact visible_of_le h (by decide) (by decide)

theorem visible_of_isAlnum {c : Char} (h : isAlnum c = true) : 32 < c.toNat ∧ c.toNat < 127 := by
  simp only [isAlnum, Bool.or_eq_true, Bool.decide_and, Bool.and_eq_true, decide_eq_true_eq] at h
  rcases h with (h | h) | h
  · exact visible_of_le h (by decide) (by decide)
  · exact visible_of_le h (by decide) (by decide)
  · exact visible_of_le h (by decide) (by decide)

theorem inetNtop_visible (a : InAddr) : Visible (inetNtop a) := by
  intro c hc
  rcases mem_inetNtop hc with hc | rfl
  · exact visible_of_isDigit hc
  · decide

theorem macText_visible (mac : Vector UInt8 6) : Visible (macText mac) := by
  intro c hc
  obtain ⟨i, hi⟩ := List.mem_iff_getElem?.mp hc
  have hshape := List.all_eq_true.mp (macText_shape mac).2 (c, i) (List.mem_zipIdx_iff_getElem?.mpr hi)
  rw [macShape] at hshape
  split at hshape
  · have hcolon : c = ':' := beq_iff_eq.mp hshape
    rw [hcolon]
    decide
  · exact visible_of_isXdigit hshape

theorem MacText.visible (h : MacText s) : Visible s := by
  obtain ⟨mac, hmac⟩ := h
  intro c hc
  have hlower := macText_visible mac (toLower c) (by rw [← hmac]; exact List.mem_map_of_mem hc)
  rw [toLower] at hlower
  split at hlower
  · next hupper =>
    rw [Bool.and_eq_true, decide_eq_true_eq, decide_eq_true_eq] at hupper
    exact visible_of_le hupper (by decide) (by decide)
  · exact hlower

end Visible

section Queries

variable {host : HostInfo} {s : Sys} {cut : CStr → Nat → Nat}

/-- The daemon answers a line. -/
theorem daemon_line {line : CStr} (hline : ∀ c ∈ line, 32 ≤ c.toNat) (hlength : line.length < 255) :
    daemon host s cut (line ++ ['\n']) =
      .replies ((capResponse (answer host s line)).map Char.toUInt8) (cut (line ++ ['\n'])) := by
  have hlf : '\n' ∉ line := fun h => absurd (hline _ h) (by decide)
  have hnul : '\x00' ∉ line := fun h => absurd (hline _ h) (by decide)
  have hwindow : (line ++ ['\n']).take (serviceMaxRequest - 1) = line ++ ['\n'] := by
    refine List.take_of_length_le ?_
    rw [List.length_append, List.length_singleton, serviceMaxRequest]
    omega
  have htake : (line ++ ['\n']).takeWhile (· != '\n') = line := takeWhile_append_cons hlf []
  rw [daemon, framed]
  simp only [hwindow, htake, hnul, List.mem_append, List.mem_singleton, or_true, if_true, if_false]

/-- A response is what a query takes apart. -/
theorem backendQuery_line {line response : CStr} {action : Action}
    (hline : ∀ c ∈ line, 32 ≤ c.toNat) (hlength : line.length < 255)
    (hanswer : answer host s line = response) (hascii : ∀ c ∈ response, c.toNat < 128)
    (hshort : response.length ≤ serviceMaxResponse) :
    backendQuery (daemon host s cut) action (line ++ ['\n']) = parseResponse action response := by
  have hcap : capResponse response = response := by
    rw [capResponse, if_neg (Nat.not_lt.mpr hshort)]
  rw [backendQuery, daemon_line hline hlength, hanswer, hcap]
  simp only
  rw [receiveChunks_eq (by rw [List.length_map]; exact hshort) _ 0 (by omega) (Nat.zero_le _),
    List.drop_zero]
  show decodeResponse action (response.map Char.toUInt8) = _
  rw [decodeResponse, decodeUtf8_ascii hascii]

theorem ascii_ok {body : CStr} (h : Visible body) : ∀ c ∈ resultOk ++ body ++ ['\n'], c.toNat < 128 := by
  have hok : ∀ c ∈ resultOk, c.toNat < 128 := forall_of_all (by decide)
  simp only [List.mem_append, List.mem_singleton]
  rintro c ((hc | hc) | rfl)
  · exact hok c hc
  · exact h.ascii c hc
  · decide

theorem ascii_notFound : ∀ c ∈ resultNotFound, c.toNat < 128 := forall_of_all (by decide)

theorem length_ok (body : CStr) : (resultOk ++ body ++ ['\n']).length = body.length + 18 := by
  have hresult : resultOk.length = 17 := rfl
  rw [List.length_append, List.length_append, List.length_singleton]
  omega

theorem backendQuery_ok {line body : CStr} {action : Action} (haction : action ≠ .help)
    (hline : ∀ c ∈ line, 32 ≤ c.toNat) (hlength : line.length < 255)
    (hanswer : answer host s line = resultOk ++ body ++ ['\n']) (hvisible : Visible body)
    (hshort : body.length + 18 ≤ serviceMaxResponse) :
    backendQuery (daemon host s cut) action (line ++ ['\n']) = .ok ⟨"OK".toList, body⟩ := by
  rw [backendQuery_line hline hlength hanswer (ascii_ok hvisible) (by rwa [length_ok]),
    parseResponse_ok haction hvisible.solid]

/-- The lease hook reads a short response. -/
theorem tunnelOf_line {mac response : CStr} (hmac : ∀ c ∈ mac, 32 ≤ c.toNat) (hlength : mac.length = 17)
    (hanswer : answer host s ("GTMC".toList ++ ' ' :: mac) = response)
    (hascii : ∀ c ∈ response, c.toNat < 128) (hshort : response.length ≤ maxReply) :
    tunnelOf (daemon host s cut) mac = (leasePattern.fullmatch response).map fun groups =>
      ((groups.lookup 1).getD [], (groups.lookup 2).getD []) := by
  have hcommand : "GTMC ".toList ++ mac ++ ['\n'] = ("GTMC".toList ++ ' ' :: mac) ++ ['\n'] := rfl
  have hline : ∀ c ∈ "GTMC".toList ++ ' ' :: mac, 32 ≤ c.toNat := by
    intro c hc
    rcases List.mem_append.mp hc with hc | hc
    · have hname : ∀ c ∈ "GTMC".toList, 32 ≤ c.toNat := forall_of_all (by decide)
      exact hname c hc
    · rcases List.mem_cons.mp hc with rfl | hc
      · decide
      · exact hmac c hc
  have hcap : capResponse response = response := by
    rw [capResponse, if_neg (Nat.not_lt.mpr (Nat.le_trans hshort (by decide)))]
  rw [tunnelOf, hcommand, daemon_line hline, hanswer, hcap]
  · simp only
    rw [receiveReply_eq (by rw [List.length_map]; exact hshort) _ 0 (by omega) (Nat.zero_le _),
      List.drop_zero, decodeAscii_ascii hascii]
  · rw [List.length_append, List.length_cons, hlength]
    decide

end Queries

end Softgre
