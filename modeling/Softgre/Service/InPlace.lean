-- SUMMARY: `service_command` on the buffers it works on, and that it answers what the model says.
import Softgre.Adapters.Roundtrip
import Softgre.Config.InPlace
import Softgre.Compat.Strbuf

/-!
# Commands in place

`service_command` copies the request into an array of fixed size, cuts it into tokens
there, and writes its answer piece by piece into a text that grows. Neither the array
nor the memory of the answer is left, however the request looks and however much the
tables hold, and the answer is the one that the functions on lists give.
-/

namespace Softgre

open Base CText

variable {m : Buffer} {p : Nat} {s : CStr}

-- ---------------------------------------------------------------------------
-- strtok_r
-- ---------------------------------------------------------------------------

/-- The end of a token is cut off, if it is not that of the text. -/
def endToken (token stop : Nat) : CM (Option Nat × Nat) := do
  if (← load stop) = '\x00' then return (some token, stop)
  else
    store stop '\x00'
    return (some token, stop + 1)

/-- `strtok_r` at `start`: where the next token stands, if there is one, and where the
    call after this one goes on. -/
def strtokAt (start : Nat) : CM (Option Nat × Nat) := do
  let token ← skip isDelim (← get).length start
  if (← load token) = '\x00' then return (none, token)
  else endToken token (← skip (!isDelim ·) (← get).length token)

/-- The loop over the tokens: the positions of the first two, and how many there are. -/
def tokenLoop : Nat → Nat → List Nat → Nat → CM (List Nat × Nat)
  | 0, _, _, _ => fun _ => none
  | fuel + 1, save, argv, argc => do
    match ← strtokAt save with
    | (none, _) => return (argv, argc)
    | (some tok, save) =>
      tokenLoop fuel save (if argc < 2 then argv ++ [tok] else argv) (argc + 1)

/-- A run of one class ends where the text behind it starts with another one. -/
theorem takeWhile_run {f : Char → Bool} {u v : CStr} (hu : ∀ c ∈ u, f c = true)
    (hv : ∀ c ∈ v.head?, f c = false) : (u ++ v).takeWhile f = u := by
  rw [List.takeWhile_append_of_pos hu]
  cases v with
  | nil => rw [List.takeWhile_nil, List.append_nil]
  | cons c v =>
    have hc : f c = false := hv c rfl
    rw [List.takeWhile_cons_of_neg (by rw [hc]; decide), List.append_nil]

/-- The scan over a gap and a token stops behind them. -/
theorem does_scan {Q : Option Nat × Nat → Buffer → Prop} {gap token t : CStr}
    (h : At m p (gap ++ (token ++ t))) (hgap : ∀ c ∈ gap, isDelim c = true) (htoken : IsToken token)
    (ht : ∀ c ∈ t.head?, isDelim c = true)
    (hend : Does (endToken (p + gap.length) (p + gap.length + token.length)) Q m) :
    Does (strtokAt p) Q m := by
  have hlt := h.lt_length
  have htail := h.tail
  have hsolid : ∀ c ∈ token, (!isDelim c) = true := fun c hc => by rw [htoken.solid c hc]; rfl
  have hhead : ∀ c ∈ (token ++ t).head?, isDelim c = false := by
    cases token with
    | nil => exact absurd rfl htoken.ne_nil
    | cons c token =>
      rintro _ ⟨⟩
      exact htoken.solid c (List.mem_cons_self ..)
  have hstop : ∀ c ∈ t.head?, (!isDelim c) = false := fun c hc => by rw [ht c hc]; rfl
  refine .bind ⟨m, m, rfl, .bind (does_skip_first h (by omega) ?_)⟩
  rw [takeWhile_run hgap hhead]
  refine .bind (does_load_first htail (.ite (fun hnul => ?_) fun _ => ?_))
  · rw [head_eq_nul_iff htail.nul] at hnul
    exact absurd (List.append_eq_nil_iff.mp hnul).1 htoken.ne_nil
  · have hlt' := htail.lt_length
    refine .bind ⟨m, m, rfl, .bind (does_skip_first htail (by omega) ?_)⟩
    rw [takeWhile_run hsolid hstop]
    exact hend

/-- A call cuts the next token off, and what follows stands where `save` points. All
    that it changes is within the text, without the terminator. -/
theorem does_strtokAt {Q : Option Nat × Nat → Buffer → Prop} (h : At m p s)
    (hnone : strtok s = [] → ∀ save, Q (none, save) m)
    (hsome : ∀ tok token save rest m', strtok s = token :: strtok rest → At m' tok token →
      At m' save rest → p ≤ tok → (tok + token.length < save ∨ rest = []) →
      save + rest.length ≤ p + s.length → rest.length < s.length → Within m p s.length m' →
      Q (some tok, save) m') :
    Does (strtokAt p) Q m := by
  have hlt := h.lt_length
  rcases strtokR_cases s with ⟨-, hblank⟩ | ⟨gap, token, rest, hcall, hgap, htoken, hs⟩
  · have hskip : s.takeWhile isDelim = s := List.takeWhile_eq_self_iff.mpr hblank
    refine .bind ⟨m, m, rfl, .bind (does_skip_first h (by omega) ?_)⟩
    rw [hskip]
    refine .bind (does_load h (Nat.le_refl _) (.ite (fun _ => .pure ?_) fun hne => ?_))
    · exact hnone (Splits.blank hblank).strtok_eq _
    · exact absurd (by simp) hne
  · have hstep : strtok s = token :: strtok rest := by rw [strtok_eq_strtokR, hcall]
    have hpos := List.length_pos_iff.mpr htoken.ne_nil
    rcases hs with ⟨rfl, rfl⟩ | ⟨sep, hsep, rfl⟩
    · -- the last token, which ends with the text
      have hscan : At m p (gap ++ (token ++ [])) := by rwa [List.append_nil]
      simp only [List.length_append] at hlt hsome
      refine does_scan hscan hgap htoken (by simp) ?_
      have hend := hscan.tail.tail
      refine .bind (does_load_first hend (.ite (fun _ => .pure ?_) fun hne => absurd rfl hne))
      exact hsome _ token _ [] m hstep h.tail hend (by omega) (.inr rfl)
        (by rw [List.length_nil]; omega) (by rw [List.length_nil]; omega) (.refl _ _ _)
    · rw [List.append_assoc] at h hlt
      simp only [List.length_append, List.length_cons] at hlt hsome
      refine does_scan h hgap htoken (by simpa using hsep) ?_
      refine .bind (does_load_first h.tail.tail (.ite (fun hnul => ?_) fun _ => ?_))
      · exact absurd hnul (fun hnul => by rw [head_eq_nul_iff h.tail.tail.nul] at hnul; cases hnul)
      · refine .bind (does_cut h.tail fun m' htok hrest hwithin => .pure ?_)
        exact hsome _ token _ rest m' hstep htok hrest (by omega) (.inl (by omega)) (by omega)
          (by omega) (hwithin.mono (by omega) (by omega))

/-- The tokens found so far stand where they were found; cutting off the next one does
    not touch them. -/
theorem does_tokenLoop (fuel : Nat) : ∀ {m p s argv found argc}, At m p s → s.length < fuel →
    argv.length = min argc 2 →
    List.Forall₂ (fun q t => At m q t ∧ (q + t.length < p ∨ s = [])) argv found →
    Does (tokenLoop fuel p argv argc) (fun out m' => out.2 = argc + (strtok s).length ∧
      List.Forall₂ (At m') out.1 ((found ++ strtok s).take 2)) m := by
  induction fuel with
  | zero => exact fun _ h => absurd h (Nat.not_lt_zero _)
  | succ fuel ih =>
    intro m p s argv found argc hs hfuel hargv hfound
    have hlength := hfound.length_eq
    rw [tokenLoop]
    refine .bind (does_strtokAt hs (fun hend save => ?_) ?_)
    · rw [hend, List.append_nil, List.take_of_length_le (by omega)]
      exact .pure ⟨rfl, hfound.imp fun _ _ h => h.1⟩
    · intro tok token save rest m' hstep htok hrest hlow hbefore hhigh hshorter hwithin
      have hmore : s ≠ [] := by
        rintro rfl
        cases hstep
      have hfound' : List.Forall₂ (fun q t => At m' q t ∧ (q + t.length < save ∨ rest = []))
          argv found := by
        refine hfound.imp fun q t h => ?_
        have hq : q + t.length < p := h.2.resolve_right hmore
        exact ⟨h.1.of_before hwithin hq, hbefore.imp (fun hlt => by omega) id⟩
      have hnew : At m' tok token ∧ (tok + token.length < save ∨ rest = []) := ⟨htok, hbefore⟩
      have hcount : argc + 1 + (strtok rest).length = argc + (strtok s).length := by
        rw [hstep, List.length_cons]
        omega
      show Does (tokenLoop fuel save (if argc < 2 then argv ++ [tok] else argv) (argc + 1)) _ m'
      by_cases hroom : argc < 2
      · have hargs : (argv ++ [tok]).length = min (argc + 1) 2 := by
          rw [List.length_append, List.length_singleton]
          omega
        have hboth : List.Forall₂ _ (argv ++ [tok]) (found ++ [token]) :=
          List.rel_append hfound' (.cons hnew .nil)
        have hall : found ++ [token] ++ strtok rest = found ++ strtok s := by
          rw [hstep, List.append_assoc, List.singleton_append]
        rw [if_pos hroom]
        refine (ih hrest (by omega) hargs hboth).mono fun out m' h => ?_
        rwa [hcount, hall] at h
      · have hfull : 2 ≤ found.length := by omega
        rw [if_neg hroom]
        refine (ih hrest (by omega) (by omega) hfound').mono fun out m' h => ?_
        rw [hcount, List.take_append_of_le_length hfull] at h
        rwa [List.take_append_of_le_length hfull]

-- ---------------------------------------------------------------------------
-- valid_mac
-- ---------------------------------------------------------------------------

/-- The loop of `valid_mac`, with `n` characters to go. -/
def normalizeLoop (text : Nat) : Nat → Nat → Buffer → CM (Option Buffer)
  | 0, _, normalized => return some normalized
  | n + 1, i, normalized => do
    let c ← load (text + i)
    if (if i % 3 == 2 then c != ':' else !isXdigit c) then return none
    else normalizeLoop text n (i + 1) (← liftM (put normalized i (toLower c)))

/-- `valid_mac`, with the array `normalized` if the text is an address. -/
def validMacAt (normalized : Buffer) (text : Nat) : CM (Option Buffer) := do
  if (← strlen text) ≠ 17 then return none
  else
    match ← normalizeLoop text 17 0 normalized with
    | none => return none
    | some normalized => return some (← liftM (put normalized 17 '\x00'))

/-- What has been tested is written; the first character that fails ends the loop. -/
theorem does_normalizeLoop {done todo rest : CStr} (h : At m p (done ++ todo))
    (hrest : todo.length ≤ rest.length) :
    Does (normalizeLoop p todo.length done.length (done.map toLower ++ rest))
      (fun out m' => m' = m ∧ out =
        if (todo.zipIdx done.length).all macShape then
          some ((done ++ todo).map toLower ++ rest.drop todo.length)
        else none) m := by
  induction todo generalizing done rest with
  | nil => exact .pure ⟨rfl, by simp⟩
  | cons c todo ih =>
    cases rest with
    | nil => exact absurd hrest (by simp)
    | cons d rest =>
      have hget : ((done ++ c :: todo)[done.length]?).getD '\x00' = c := by simp
      refine .bind (does_load h (by simp) ?_)
      rw [hget]
      have hshape : (if done.length % 3 == 2 then c != ':' else !isXdigit c) =
          !macShape (c, done.length) := by
        rw [macShape]
        split <;> rfl
      rw [hshape, List.zipIdx_cons, List.all_cons]
      refine .ite (fun hbad => .pure ⟨rfl, ?_⟩) fun hgood => ?_
      · rw [Bool.not_eq_true'] at hbad
        rw [hbad, Bool.false_and, if_neg Bool.false_ne_true]
      · rw [Bool.not_eq_true, Bool.not_eq_false'] at hgood
        have hput : put (done.map toLower ++ d :: rest) done.length (toLower c) =
            some ((done ++ [c]).map toLower ++ rest) := by
          have hput := put_append (done.map toLower) d (toLower c) rest
          rw [List.length_map] at hput
          rw [hput, List.map_append, List.append_assoc]
          rfl
        have hnext : done ++ c :: todo = done ++ [c] ++ todo := by simp
        have hlength : done.length + 1 = (done ++ [c]).length := by simp
        have hrest : todo.length ≤ rest.length := by simpa using hrest
        refine .bind (.lift hput ?_)
        rw [hgood, Bool.true_and, List.length_cons, List.drop_succ_cons, hlength, hnext]
        rw [hnext] at h
        exact ih h hrest

theorem does_validMacAt {normalized : Buffer} (h : At m p s) (hlength : normalized.length = 18) :
    Does (validMacAt normalized p) (fun out m' => m' = m ∧
      (out = none ∧ validMac s = none ∨
        ∃ mac, validMac s = some mac ∧ out = some (mac ++ ['\x00']))) m := by
  refine .bind (does_strlen h (.ite (fun hne => .pure ⟨rfl, .inl ⟨rfl, ?_⟩⟩) fun heq => ?_))
  · rw [validMac, if_neg (by simp [hne])]
  · rw [ne_eq, Decidable.not_not] at heq
    have hloop := @does_normalizeLoop m p [] s normalized h (by omega)
    rw [heq] at hloop
    refine .bind (hloop.mono fun out m' hout => ?_)
    obtain ⟨rfl, rfl⟩ := hout
    have hvalid : validMac s = if s.zipIdx.all macShape then some (s.map toLower) else none := by
      rw [validMac, heq]
      rfl
    rw [List.length_nil, hvalid]
    by_cases hshape : s.zipIdx.all macShape = true
    · rw [if_pos hshape, if_pos hshape]
      obtain ⟨d, hd⟩ := List.length_eq_one_iff.mp
        (show (normalized.drop 17).length = 1 by rw [List.length_drop, hlength])
      have hput := put_append (s.map toLower) d '\x00' []
      rw [List.length_map, heq] at hput
      rw [hd]
      exact .bind (.lift hput (.pure ⟨rfl, .inr ⟨_, rfl, rfl⟩⟩))
    · rw [if_neg hshape, if_neg hshape]
      exact .pure ⟨rfl, .inl ⟨rfl, rfl⟩⟩

-- ---------------------------------------------------------------------------
-- The answers
-- ---------------------------------------------------------------------------

/-- A string constant. -/
def literal (s : CStr) : Buffer := s ++ ['\x00']

section Answers

variable (M : Malloc) (host : HostInfo) (sys : Sys)

/-- `goto invalid`. -/
def answerInvalid (out : Strbuf) : Option Strbuf := strbufAssign M out (literal resultInvalid)

/-- `char ip[INET_ADDRSTRLEN]`, written by `inet_ntop` and printed with `%s`. -/
def printAddress (a : InAddr) : Option CStr := do
  let ip ← memcpy (M.fresh 16) 0 (literal (inetNtop a)) ((inetNtop a).length + 1)
  untilNul ip

/-- The remote and the interface, as `%s@%s` prints them. -/
def printEntry (tun : TunnelContext) : Option CStr := do
  return (← printAddress M tun.ipRemote) ++ '@' :: tun.ifgre

def macLinesIn (count : Nat) (out : Strbuf) (e : CStr × Nat) : Option Strbuf :=
  strbufAppendf M out (e.1 ++ if e.2 + 1 < count then [';'] else ['\n'])

/-- `LMIP`. -/
def listMacsIn (out : Strbuf) (arg : CStr) : Option Strbuf :=
  match inetPton arg with
  | none => answerInvalid M out
  | some addr =>
    match provisionGetTunnelByip sys addr with
    | none => strbufAppend M out (literal resultNotFound)
    | some p => do
      let out ← strbufAppend M out (literal resultOk)
      let macs := sortMacs (sys.deref p).macs.keys
      let out ← macs.zipIdx.foldlM (macLinesIn M macs.length) out
      if macs.length = 0 then strbufAppendChar M out '\n' else return out

/-- What `GTMC` answers to a normalised address. -/
def findTunnelIn (out : Strbuf) (normalized : Buffer) : Option Strbuf := do
  let mac ← untilNul normalized
  match provisionGetTunnelByMac sys mac with
  | none => strbufAppend M out (literal resultNotFound)
  | some p => strbufAppendf M out (resultOk ++ (← printEntry M (sys.deref p)) ++ ['\n'])

/-- The loop of `STUN` over the table. -/
def tunnelLinesIn : Nat → Iter → Strbuf → Option Strbuf
  | 0, _, _ => none
  | fuel + 1, iter, out =>
    match sys.tunnels.iterNext iter with
    | (none, _) => some out
    | (some (_, p), iter) => do
      let out ← strbufAppendf M out ((← printEntry M (sys.deref p)) ++ [';'])
      tunnelLinesIn fuel iter out

/-- `STUN`. -/
def listTunnelsIn (out : Strbuf) : Option Strbuf :=
  if sys.tunnels.size = 0 then strbufAppend M out (literal resultNull)
  else do
    let out ← strbufAppend M out (literal resultOk)
    let out ← tunnelLinesIn M sys (sys.tunnels.cap + 1) Table.iterInit out
    strbufAppendChar M out '\n'

/-- The commands without an argument. -/
def plainCommandIn (out : Strbuf) (cmd : CStr) : Option Strbuf :=
  if cmd = "VERS".toList then strbufAppendf M out (resultOk ++ host.packageVersion ++ ['\n'])
  else if cmd = "QUIT".toList then some out
  else if cmd = "HELP".toList then strbufAppend M out (literal helpText)
  else if cmd = "STAT".toList then strbufAppendf M out (statText host)
  else if cmd = "STUN".toList then listTunnelsIn M sys out
  else answerInvalid M out

/-- `GTMC`, whose argument stands at `arg` in the copy of the request. -/
def findTunnelAt (out : Strbuf) (arg : Nat) : CM Strbuf := do
  match ← validMacAt (M.fresh 18) arg with
  | none => answerInvalid M out
  | some normalized => findTunnelIn M sys out normalized

/-- `service_command` on the copy of the request. -/
def commandAt (out : Strbuf) : CM Strbuf := do
  let (argv, argc) ← tokenLoop ((← get).length + 1) 0 [] 0
  if argc = 0 ∨ argc > 2 then answerInvalid M out
  else
    let cmd ← text (← liftM argv[0]?)
    if cmd = "LMIP".toList ∨ cmd = "GTMC".toList then
      if argc ≠ 2 then answerInvalid M out
      else
        let arg ← liftM argv[1]?
        if cmd = "LMIP".toList then listMacsIn M sys out (← text arg)
        else findTunnelAt M sys out arg
    else if argc ≠ 1 then answerInvalid M out
    else plainCommandIn M host sys out cmd

/-- `service_command`, of a request in memory of its own. -/
def serviceCommandIn (command : Buffer) : Option Strbuf := do
  let out ← strbufNew M none
  if (← strlenOf command) ≥ serviceMaxRequest then answerInvalid M out
  else
    let copy ← strLcpy (M.fresh serviceMaxRequest) command serviceMaxRequest
    ((commandAt M host sys out).run copy).map Prod.fst

end Answers

-- ---------------------------------------------------------------------------
-- Building a text
-- ---------------------------------------------------------------------------

/-- A text that is a C string, and that `vsnprintf` can measure, is built as it should
    be, in memory that is at most twice as long. -/
def Builds (x : Option Strbuf) (t : CStr) : Prop :=
  '\x00' ∉ t → t.length ≤ intMax → ∃ b, x = some b ∧ b.Holds t t.length

section Builds

variable {M : Malloc} {host : HostInfo} {sys : Sys} {x : Option Strbuf} {f : Strbuf → Option Strbuf}
  {out : Strbuf} {t u : CStr}

theorem Builds.bind (h : Builds x t) (hf : ∀ b, b.Holds t t.length → Builds (f b) (t ++ u)) :
    Builds (x >>= f) (t ++ u) := by
  intro hnul hint
  have hle := hint
  rw [List.length_append] at hle
  obtain ⟨b, rfl, hb⟩ := h (fun hmem => hnul (List.mem_append_left _ hmem)) (by omega)
  exact hf b hb hnul hint

/-- What an operation on a text guarantees, said of all of it. -/
theorem builds_of_holds (h : '\x00' ∉ u → u.length ≤ intMax → t.length + u.length < 2 ^ 63 →
      ∃ b, x = some b ∧ b.Holds (t ++ u) (max t.length (t ++ u).length)) : Builds x (t ++ u) := by
  intro hnul hint
  have hmax : intMax < 2 ^ 63 := by decide
  have hle := hint
  rw [List.length_append] at hle
  obtain ⟨b, hx, hb⟩ := h (fun hmem => hnul (List.mem_append_right _ hmem)) (by omega) (by omega)
  rw [Nat.max_eq_right (by rw [List.length_append]; omega)] at hb
  exact ⟨b, hx, hb⟩

theorem builds_append (h : out.Holds t t.length) :
    Builds (strbufAppend M out (literal u)) (t ++ u) :=
  builds_of_holds fun hnul _ hfits => strbufAppend_holds h hnul [] hfits

theorem builds_appendf (h : out.Holds t t.length) : Builds (strbufAppendf M out u) (t ++ u) :=
  builds_of_holds fun hnul hint hfits => strbufAppendf_holds h hnul hint hfits

theorem builds_appendChar {c : Char} (h : out.Holds t t.length) :
    Builds (strbufAppendChar M out c) (t ++ [c]) := by
  refine builds_of_holds fun hnul _ hfits => strbufAppendChar_holds h ?_ hfits
  rintro rfl
  exact hnul (List.mem_singleton_self _)

theorem builds_invalid (h : out.Holds [] 0) : Builds (answerInvalid M out) resultInvalid := by
  intro hnul hint
  have hmax : intMax < 2 ^ 63 := by decide
  obtain ⟨b, hb, hholds⟩ := strbufAssign_holds (M := M) h hnul [] (by omega)
  rw [Nat.zero_max] at hholds
  exact ⟨b, hb, hholds⟩

theorem inetNtop_nul (a : InAddr) : '\x00' ∉ inetNtop a := notMem_inetNtop rfl (by decide)

/-- The array is long enough for every address. -/
theorem printAddress_eq (M : Malloc) (a : InAddr) : printAddress M a = some (inetNtop a) := by
  have hlength := length_inetNtop_le a
  have hsize : (literal (inetNtop a)).length = (inetNtop a).length + 1 := by simp [literal]
  have hcopy : memcpy (M.fresh 16) 0 (literal (inetNtop a)) ((inetNtop a).length + 1) =
      some (inetNtop a ++ '\x00' :: (M.fresh 16).drop (0 + ((inetNtop a).length + 1))) := by
    rw [memcpy, if_pos ⟨hsize.ge, by rw [Malloc.length_fresh]; omega⟩, ← hsize, List.take_length]
    simp [literal]
  rw [printAddress, hcopy]
  exact untilNul_append (inetNtop_nul a)

theorem printEntry_eq (M : Malloc) (tun : TunnelContext) : printEntry M tun = some tun.entry := by
  rw [printEntry, printAddress_eq]
  rfl

theorem builds_macLines {count : Nat} (lines : List (CStr × Nat)) :
    ∀ {out t}, out.Holds t t.length → Builds (lines.foldlM (macLinesIn M count) out)
      (t ++ lines.flatMap fun e => e.1 ++ if e.2 + 1 < count then [';'] else ['\n']) := by
  induction lines with
  | nil =>
    intro out t h _ _
    rw [List.flatMap_nil, List.append_nil]
    exact ⟨out, rfl, h⟩
  | cons e lines ih =>
    intro out t h
    rw [List.foldlM_cons, List.flatMap_cons, ← List.append_assoc]
    exact (builds_appendf h).bind fun b hb => ih hb

theorem builds_listMacs (h : out.Holds [] 0) (arg : CStr) :
    Builds (listMacsIn M sys out arg) ((listMacs arg).run sys).1 := by
  show wp (listMacs arg) (fun text _ => Builds _ text) sys
  rw [listMacs, listMacsIn]
  cases inetPton arg with
  | none => exact builds_invalid h
  | some addr =>
    simp only [wp_bind, wp_get]
    cases provisionGetTunnelByip sys addr with
    | none => exact builds_append h
    | some p =>
      show Builds _ (resultOk ++ macLines _ ++ _)
      rw [List.append_assoc]
      refine (builds_append h).bind fun b hb => ?_
      rw [← List.append_assoc]
      refine (builds_macLines _ hb).bind fun b hb => ?_
      split
      · exact builds_appendChar hb
      · rw [List.append_nil]
        exact fun _ _ => ⟨b, rfl, hb⟩

theorem builds_findTunnel (h : out.Holds [] 0) {mac : CStr} (hmac : '\x00' ∉ mac) :
    Builds (findTunnelIn M sys out (mac ++ ['\x00']))
      ((provisionGetTunnelByMac sys mac).elim resultNotFound fun p =>
        resultOk ++ (sys.deref p).entry ++ ['\n']) := by
  rw [findTunnelIn, untilNul_append hmac]
  show Builds (Option.bind (some mac) _) _
  rw [Option.bind_some]
  cases provisionGetTunnelByMac sys mac with
  | none => exact builds_append h
  | some p =>
    simp only [printEntry_eq]
    exact builds_appendf h

/-- The loop writes what is left of the table. -/
theorem builds_tunnelLines (fuel : Nat) : ∀ {iter out t}, (sys.tunnels.rest iter).length < fuel →
    out.Holds t t.length → Builds (tunnelLinesIn M sys fuel iter out)
      (t ++ (sys.tunnels.rest iter).flatMap fun e => (sys.deref e.2).entry ++ [';']) := by
  induction fuel with
  | zero => exact fun h => absurd h (Nat.not_lt_zero _)
  | succ fuel ih =>
    intro iter out t hfuel h
    rw [tunnelLinesIn]
    rcases sys.tunnels.iterNext_cases iter with ⟨hnil, _, hnone⟩ | ⟨key, p, iter', hsome, hrest, -⟩
    · rw [hnone, hnil, List.flatMap_nil, List.append_nil]
      exact fun _ _ => ⟨out, rfl, h⟩
    · rw [hrest, List.length_cons] at hfuel
      rw [hsome, hrest, List.flatMap_cons, ← List.append_assoc]
      simp only [printEntry_eq]
      exact (builds_appendf h).bind fun b hb => ih (by omega) hb

theorem builds_listTunnels (h : out.Holds [] 0) :
    Builds (listTunnelsIn M sys out) (listTunnels.run sys).1 := by
  have hfuel := sys.tunnels.length_rest_le Table.iterInit
  rw [listTunnels_run, listTunnelsIn]
  split
  · exact builds_append h
  · rw [List.append_assoc, ← Hashmap.rest_init]
    refine (builds_append h).bind fun b hb => ?_
    rw [← List.append_assoc]
    exact (builds_tunnelLines _ (by omega) hb).bind fun b hb => builds_appendChar hb

theorem builds_plainCommand (h : out.Holds [] 0) (cmd : CStr) :
    Builds (plainCommandIn M host sys out cmd) ((plainCommand host cmd).run sys).1 := by
  rw [plainCommand, plainCommandIn]
  split
  · generalize resultOk ++ host.packageVersion ++ ['\n'] = text
    exact builds_appendf h
  split
  · exact fun _ _ => ⟨out, rfl, h⟩
  split
  · generalize helpText = text
    exact builds_append h
  split
  · generalize statText host = text
    exact builds_appendf h
  split
  · exact builds_listTunnels h
  · exact builds_invalid h

end Builds

-- ---------------------------------------------------------------------------
-- The whole command
-- ---------------------------------------------------------------------------

section Command

variable {M : Malloc} {host : HostInfo} {sys : Sys} {x : Option Strbuf} {out : Strbuf} {t : CStr}

theorem Builds.does (h : Builds x t) (hnul : '\x00' ∉ t) (hint : t.length ≤ intMax) :
    Does (liftM x : CM Strbuf) (fun b _ => b.Holds t t.length) m := by
  obtain ⟨b, hx, hb⟩ := h hnul hint
  exact .lift hx hb

theorem toLower_ne_nul {c : Char} (h : c ≠ '\x00') : toLower c ≠ '\x00' := by
  rw [toLower]
  split
  · next hupper =>
    rw [Bool.and_eq_true, decide_eq_true_eq, decide_eq_true_eq] at hupper
    have hlow : 65 ≤ c.toNat := UInt32.le_iff_toNat_le.mp hupper.1
    have hhigh : c.toNat ≤ 90 := UInt32.le_iff_toNat_le.mp hupper.2
    have hlower : ∀ n, 65 ≤ n → n ≤ 90 → Char.ofNat (n + 32) ≠ '\x00' := by
      intro n hn hn'
      interval_cases n <;> decide
    exact hlower _ hlow hhigh
  · exact h

theorem findTunnel_run (arg : CStr) :
    ((findTunnel arg).run sys).1 = (validMac arg).elim resultInvalid fun mac =>
      (provisionGetTunnelByMac sys mac).elim resultNotFound fun p =>
        resultOk ++ (sys.deref p).entry ++ ['\n'] := by
  show wp (findTunnel arg) (fun text _ => text = _) sys
  rw [findTunnel]
  cases validMac arg with
  | none => rfl
  | some mac =>
    simp only [wp_bind, wp_get, Option.elim_some]
    cases provisionGetTunnelByMac sys mac with
    | none => rfl
    | some p => rfl

theorem does_findTunnel {q : Nat} {arg : CStr} (h : At m q arg) (hout : out.Holds [] 0)
    (ht : t = ((findTunnel arg).run sys).1) (hnul : '\x00' ∉ t) (hint : t.length ≤ intMax) :
    Does (findTunnelAt M sys out q) (fun b _ => b.Holds t t.length) m := by
  rw [findTunnel_run] at ht
  refine .bind ((does_validMacAt h (M.length_fresh 18)).mono fun normalized m' hmac => ?_)
  rcases hmac with ⟨-, ⟨rfl, hnone⟩ | ⟨mac, hsome, rfl⟩⟩
  · rw [hnone] at ht
    subst ht
    exact (builds_invalid hout).does hnul hint
  · have hmac : '\x00' ∉ mac := by
      rw [(validMac_iff.mp hsome).2]
      intro hmem
      obtain ⟨c, hc, hzero⟩ := List.mem_map.mp hmem
      exact toLower_ne_nul (fun heq => h.nul (heq ▸ hc)) hzero
    rw [hsome] at ht
    subst ht
    exact (builds_findTunnel hout hmac).does hnul hint

theorem does_commandAt {command : CStr} (h : At m 0 command)
    (hlength : command.length < serviceMaxRequest) (hout : out.Holds [] 0)
    (ht : t = answer host sys command) (hnul : '\x00' ∉ t) (hint : t.length ≤ intMax) :
    Does (commandAt M host sys out) (fun b _ => b.Holds t t.length) m := by
  have hlt := h.lt_length
  rw [answer, serviceCommand, if_neg (Nat.not_le.mpr hlength)] at ht
  have hloop := @does_tokenLoop (m.length + 1) m 0 command [] [] 0 h (by omega) rfl .nil
  refine .bind ⟨m, m, rfl, .bind (hloop.mono ?_)⟩
  rintro ⟨argv, argc⟩ m' ⟨hcount, hargv⟩
  have hargc : argc = (strtok command).length := by simpa using hcount
  have hargv : List.Forall₂ (At m') argv ((strtok command).take 2) := hargv
  have hinvalid : t = resultInvalid → Does (liftM (answerInvalid M out) : CM Strbuf)
      (fun b _ => b.Holds t t.length) m' := by
    rintro rfl
    exact (builds_invalid hout).does hnul hint
  cases htokens : strtok command with
  | nil =>
    rw [htokens] at ht hargc
    exact .ite (fun _ => hinvalid ht) fun hmore => absurd (.inl hargc) hmore
  | cons cmd rest =>
    rw [htokens] at ht hargc hargv
    obtain ⟨argv₀, argv', hcmd, hargv', rfl⟩ := List.forall₂_cons_right_iff.mp hargv
    rw [List.length_cons] at hargc
    refine .ite (fun hmany => hinvalid ?_) fun hfew => .bind (.lift rfl (.bind (does_text hcmd ?_)))
    · -- more than two tokens
      rcases rest with _ | ⟨arg, _ | ⟨arg', rest⟩⟩
      · exact absurd hmany (by simp [hargc])
      · exact absurd hmany (by simp [hargc])
      · exact ht
    cases rest with
    | nil =>
      rw [List.length_nil, Nat.zero_add] at hargc
      subst hargc
      refine .ite (fun hpair => .ite (fun _ => hinvalid ?_) fun hne => absurd (by decide) hne)
        fun hplain => .ite (fun hne => absurd rfl hne) fun _ => ?_
      · have hif : (cmd = "LMIP".toList || cmd = "GTMC".toList) = true := by simpa using hpair
        simp only [hif, if_true] at ht
        exact ht
      · have hif : ¬ (cmd = "LMIP".toList || cmd = "GTMC".toList) = true := by simpa using hplain
        simp only at ht
        rw [if_neg hif] at ht
        subst ht
        exact (builds_plainCommand hout cmd).does hnul hint
    | cons arg rest =>
      obtain ⟨argv₁, argv', harg, -, rfl⟩ := List.forall₂_cons_right_iff.mp hargv'
      obtain rfl : rest = [] := by
        cases rest with
        | nil => rfl
        | cons arg' rest =>
          simp only [List.length_cons] at hargc
          omega
      rw [List.length_singleton] at hargc
      subst hargc
      simp only at ht
      refine .ite (fun hpair => .ite (fun hne => absurd rfl hne) fun _ => ?_)
        fun hplain => .ite (fun _ => hinvalid ?_) fun hne => absurd (by decide) hne
      · refine .bind (.lift rfl (.ite (fun hlmip => .bind (does_text harg ?_)) fun hgtmc => ?_))
        · rw [if_pos hlmip] at ht
          subst ht
          exact (builds_listMacs hout arg).does hnul hint
        · rw [if_neg hgtmc, if_pos (hpair.resolve_left hgtmc)] at ht
          exact does_findTunnel harg hout ht hnul hint
      · rw [not_or] at hplain
        rw [if_neg hplain.1, if_neg hplain.2] at ht
        exact ht

/-- The copy takes the request as a whole, with its terminator. -/
theorem strLcpy_eq {dst : Buffer} {command : CStr} (hcommand : '\x00' ∉ command) (rest : Buffer)
    (hsize : dst.length = serviceMaxRequest) (hlength : command.length < serviceMaxRequest) :
    ∃ copy, strLcpy dst (command ++ '\x00' :: rest) serviceMaxRequest = some copy ∧
      At copy 0 command := by
  have hcopy : memcpy dst 0 (command ++ '\x00' :: rest) command.length =
      some (command ++ dst.drop command.length) := by
    rw [memcpy, if_pos ⟨by simp, by omega⟩, List.take_left, Nat.zero_add]
    rfl
  have hmin : (if command.length < serviceMaxRequest - 1 then command.length
      else serviceMaxRequest - 1) = command.length := by
    split <;> omega
  obtain ⟨c, behind, hdrop⟩ : ∃ c behind, dst.drop command.length = c :: behind :=
    List.exists_cons_of_length_pos (by rw [List.length_drop]; omega)
  refine ⟨command ++ '\x00' :: behind, ?_, ⟨hcommand, [], behind, rfl, rfl⟩⟩
  rw [strLcpy, strlenOf_append hcommand]
  simp only [Option.bind_eq_bind, Option.bind_some, show ¬ serviceMaxRequest = 0 by decide,
    if_false, hmin, hcopy, hdrop]
  exact put_append _ _ _ _

theorem serviceCommandIn_eq {command : CStr} (hcommand : '\x00' ∉ command) (rest : Buffer)
    (ht : t = answer host sys command) (hnul : '\x00' ∉ t) (hint : t.length ≤ intMax) :
    ∃ b, serviceCommandIn M host sys (command ++ '\x00' :: rest) = some b ∧ b.Holds t t.length := by
  obtain ⟨out, hnew, hout⟩ := strbufNew_holds M
  rw [serviceCommandIn, hnew, strlenOf_append hcommand]
  show ∃ b, (if command.length ≥ serviceMaxRequest then _ else _) = some b ∧ _
  by_cases hlength : command.length ≥ serviceMaxRequest
  · rw [answer, serviceCommand, if_pos hlength] at ht
    subst ht
    rw [if_pos hlength]
    exact builds_invalid hout hnul hint
  · obtain ⟨copy, hcopy, hstands⟩ := strLcpy_eq hcommand rest (M.length_fresh serviceMaxRequest)
      (Nat.lt_of_not_ge hlength)
    obtain ⟨b, m', hrun, hb⟩ :=
      does_commandAt (M := M) hstands (Nat.lt_of_not_ge hlength) hout ht hnul hint
    refine ⟨b, ?_, hb⟩
    rw [if_neg hlength, hcopy]
    show ((commandAt M host sys out).run copy).map Prod.fst = _
    rw [hrun]
    rfl

end Command

-- ---------------------------------------------------------------------------
-- Reachable states
-- ---------------------------------------------------------------------------

/-- The texts of the host are C strings. -/
structure HostInfo.IsText (host : HostInfo) : Prop where
  sysname : '\x00' ∉ host.sysname
  release : '\x00' ∉ host.release
  version : '\x00' ∉ host.version
  machine : '\x00' ∉ host.machine

section Reachable

variable {host : HostInfo} {sys : Sys}

theorem Visible.nul {t : CStr} (h : Visible t) : '\x00' ∉ t :=
  fun hmem => absurd (h _ hmem).1 (by decide)

theorem decInt_nul (n : Int) : '\x00' ∉ decInt n := by
  have hdec : '\x00' ∉ dec n.natAbs := fun hmem => absurd (isDigit_of_mem_dec hmem) (by decide)
  rw [decInt]
  split
  · rw [List.mem_cons, not_or]
    exact ⟨by decide, hdec⟩
  · exact hdec

theorem ok_nul {body : CStr} (h : '\x00' ∉ body) : '\x00' ∉ resultOk ++ body ++ ['\n'] := by
  have hok : '\x00' ∉ resultOk := by decide
  simp [hok, h]

theorem HostInfo.IsText.statText_nul (h : host.IsText) (hfits : host.Fits) :
    '\x00' ∉ statText host := by
  have hok : '\x00' ∉ resultOk := by decide
  have hpackage : '\x00' ∉ Softgre.packageVersion := by decide
  have huptime := decInt_nul host.uptime
  have hstarted := decInt_nul host.startedTime
  simp [statText, hok, h.sysname, h.release, h.version, h.machine, huptime, hstarted,
    hfits.packageVersion_eq, hpackage]

theorem listTunnels_nul (hcon : sys.Consistent) (hprint : sys.Printable) :
    '\x00' ∉ (listTunnels.run sys).1 := by
  rw [listTunnels_run]
  split
  · decide
  · refine ok_nul (Visible.flatMap fun e he => ?_).nul
    exact (entry_text hcon hprint he).2.2.1.append (by simp [Visible])

theorem listMacs_nul (hcon : sys.Consistent) (hprint : sys.Printable) (arg : CStr) :
    '\x00' ∉ ((listMacs arg).run sys).1 := by
  show wp (listMacs arg) (fun text _ => '\x00' ∉ text) sys
  rw [listMacs]
  cases inetPton arg with
  | none => exact show '\x00' ∉ resultInvalid by decide
  | some addr =>
    simp only [wp_bind, wp_get]
    cases hlookup : provisionGetTunnelByip sys addr with
    | none => exact show '\x00' ∉ resultNotFound by decide
    | some p =>
      obtain ⟨tun, hp, -⟩ := hcon.remote_eq addr p hlookup
      show '\x00' ∉ resultOk ++ macLines (sortMacs (sys.deref p).macs.keys) ++ _
      rw [List.append_assoc, macLines_append, ← List.append_assoc, deref_of_some hp]
      refine ok_nul (Visible.intercalate fun mac hmem => ?_).nul
      obtain ⟨bytes, rfl⟩ := hprint.mac hp (mem_keys_iff.mp (mem_sortMacs.mp hmem))
      exact macText_visible bytes

theorem findTunnel_nul (hcon : sys.Consistent) (hprint : sys.Printable) (arg : CStr) :
    '\x00' ∉ ((findTunnel arg).run sys).1 := by
  rw [findTunnel_run]
  cases validMac arg with
  | none => exact show '\x00' ∉ resultInvalid by decide
  | some mac =>
    rw [Option.elim_some]
    cases hfound : provisionGetTunnelByMac sys mac with
    | none => exact show '\x00' ∉ resultNotFound by decide
    | some p =>
      obtain ⟨remote, tun, hin, -⟩ := (hcon.mac_iff mac p).mp hfound
      exact ok_nul (entry_text hcon hprint (Hashmap.mem_entries_iff_lookup.mpr hin.lookup)).2.2.1.nul

theorem plainCommand_nul (hhost : host.IsText) (hfits : host.Fits) (hcon : sys.Consistent)
    (hprint : sys.Printable) (cmd : CStr) : '\x00' ∉ ((plainCommand host cmd).run sys).1 := by
  rw [plainCommand]
  split
  · show '\x00' ∉ resultOk ++ host.packageVersion ++ ['\n']
    rw [hfits.packageVersion_eq]
    decide
  split
  · exact List.not_mem_nil
  split
  · have hhelp : '\x00' ∉ helpText := by decide +kernel
    generalize helpText = text at hhelp ⊢
    exact hhelp
  split
  · exact hhost.statText_nul hfits
  split
  · exact listTunnels_nul hcon hprint
  · exact show '\x00' ∉ resultInvalid by decide

/-- Every answer is a C string. -/
theorem answer_nul (hhost : host.IsText) (hfits : host.Fits) (hcon : sys.Consistent)
    (hprint : sys.Printable) (request : CStr) : '\x00' ∉ answer host sys request := by
  have hinvalid : '\x00' ∉ resultInvalid := by decide
  rw [answer, serviceCommand]
  split
  · exact hinvalid
  split
  · split
    · exact hinvalid
    · exact plainCommand_nul hhost hfits hcon hprint _
  · split
    · exact listMacs_nul hcon hprint _
    split
    · exact findTunnel_nul hcon hprint _
    · exact hinvalid
  · exact hinvalid

end Reachable

/-- In every state that the main loop reaches, and for every request, whatever stands
    behind it in its memory and whatever the allocator hands out: `service_command`
    leaves none of its buffers, and its answer is the text that the model gives, with a
    terminator, in memory that is a power of two and at most twice as long. -/
theorem service_command_in_place (M : Malloc) (host : HostInfo) (hhost : host.IsText)
    (hfits : host.Fits) (cfg : SoftgredConfig) (env : Env) (w : World) (calls : List Call)
    (hloop : ∀ call ∈ calls, call.fromLoop = true) (command : CStr) (hcommand : '\x00' ∉ command)
    (rest : Buffer) :
    let sys := run cfg env calls (provisionInit w)
    let text := answer host sys command
    ∃ b, serviceCommandIn M host sys (command ++ '\x00' :: rest) = some b ∧
      b.Holds text text.length := by
  intro sys text
  have hcon := run_consistent cfg env w calls
  have hlength := length_answer_le hfits hcon (run_short cfg env w hloop) command
  exact serviceCommandIn_eq hcommand rest rfl
    (answer_nul hhost hfits hcon (run_printable cfg env w hloop) command)
    (hlength.trans (by decide))

/-- Memory that nobody has cleared. -/
def Sample.malloc : Malloc where
  fresh n := List.replicate n 'x'
  length_fresh _ := List.length_replicate

theorem Sample.longFields_isText : longFields.IsText where
  sysname := by decide
  release := by decide
  version := by decide
  machine := by decide

/-- The request is followed by what an earlier one has left in the memory. -/
theorem service_command_in_place_stale :
    let sys := run Sample.config Sample.obliging [.packet Sample.packet, .wait 3]
      (Sample.start Sample.obliging)
    let text := answer Sample.longFields sys "GTMC 02:00:00:00:00:01".toList
    ∃ b, serviceCommandIn Sample.malloc Sample.longFields sys
        ("GTMC 02:00:00:00:00:01".toList ++ '\x00' :: "LMIP".toList) = some b ∧
      b.Holds text text.length :=
  service_command_in_place Sample.malloc Sample.longFields Sample.longFields_isText
    Sample.longFields_fits Sample.config Sample.obliging _ [.packet Sample.packet, .wait 3]
    (by simp [Call.fromLoop]) _ (by decide) _

end Softgre
