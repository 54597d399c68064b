-- SUMMARY: From every state the daemon reaches, the adapters recover its tunnels and addresses.
import Softgre.Adapters.Decode
import Softgre.Service.Sizes

/-!
# Round trip

Names are made of the configured beginning and a number, and addresses are
printed by the daemon itself. Both consist of characters that the patterns of the
adapters admit, whatever the operator chose.
-/

namespace Softgre

-- ---------------------------------------------------------------------------
-- What the tables hold
-- ---------------------------------------------------------------------------

/-- A name that both adapters take for an interface. -/
structure NameText (name : CStr) : Prop where
  ne_nil : name ≠ []
  length_le : name.length ≤ 15
  chars : ∀ c ∈ name, (isAlnum c || c == '_' || c == '.' || c == '-') = true

structure Sys.Printable (s : Sys) : Prop where
  mac : ∀ {p tun mac}, s.heap p = some tun → tun.macs.contains mac = true →
    ∃ bytes, mac = macText bytes
  name : ∀ {p tun}, s.heap p = some tun → NameText tun.ifgre

theorem NameText.visible {name : CStr} (h : NameText name) : Visible name := by
  intro c hc
  have hchar := h.chars c hc
  simp only [Bool.or_eq_true, beq_iff_eq] at hchar
  rcases hchar with ((hchar | rfl) | rfl) | rfl
  · exact visible_of_isAlnum hchar
  · decide
  · decide
  · decide

theorem tunnelName_nameText (cfg : SoftgredConfig) {id : Nat} (hid : id < maxSlots) :
    NameText (tunnelName cfg id) where
  ne_nil := by
    rw [tunnelName_eq cfg hid]
    exact List.append_ne_nil_of_right_ne_nil _ (dec_ne_nil id)
  length_le := Nat.le_trans (length_tunnelName_le cfg hid) (by decide)
  chars c hc := by
    rw [tunnelName_eq cfg hid] at hc
    rcases List.mem_append.mp hc with hc | hc
    · have hvalid := cfg.prefix_valid
      simp only [configValidIfname, Bool.and_eq_true, List.all_eq_true] at hvalid
      have hchar := hvalid.2 c hc
      simp only [Bool.or_eq_true] at hchar ⊢
      tauto
    · have hdigit := isDigit_of_mem_dec hc
      rw [isDigit, Bool.and_eq_true, decide_eq_true_eq, decide_eq_true_eq] at hdigit
      simp [isAlnum, hdigit]

theorem run_printable (cfg : SoftgredConfig) (env : Env) (w : World) {calls : List Call}
    (hloop : ∀ call ∈ calls, call.fromLoop = true) :
    (run cfg env calls (provisionInit w)).Printable where
  mac hp hmac :=
    (run_macs cfg env w hloop _ _ (heap_abs_of_some hp)).2 _ (Hashmap.mem_keySet.mpr hmac)
  name {p tun} hp := by
    have htables := (run_tables cfg env calls ⟨provisionInit_tables cfg w, provisionInit_idle w⟩).1
    have hname : tun.ifgre = tunnelName cfg tun.id := htables.ifgre_eq (heap_abs_of_some hp)
    rw [hname]
    exact tunnelName_nameText cfg (htables.id_lt (heap_abs_of_some hp))

-- ---------------------------------------------------------------------------
-- Entries
-- ---------------------------------------------------------------------------

theorem splitEntries_terminated (entries : List CStr) (h : ∀ e ∈ entries, e ≠ [] ∧ ';' ∉ e) :
    splitEntries (entries.flatMap fun e => e ++ [';']) = entries := by
  rw [splitEntries, splitOn_terminated entries fun e he => (h e he).2, List.filter_append]
  have hself : entries.filter (!·.isEmpty) = entries := by
    rw [List.filter_eq_self]
    intro e he
    simpa using (h e he).1
  rw [hself]
  exact List.append_nil entries

theorem splitEntries_separated (entries : List CStr) (h : ∀ e ∈ entries, e ≠ [] ∧ ';' ∉ e) :
    splitEntries ([';'].intercalate entries) = entries := by
  cases entries with
  | nil => rfl
  | cons e rest =>
    rw [splitEntries, List.splitOn_intercalate _ (fun e he => (h e he).2) (List.cons_ne_nil e rest),
      List.filter_eq_self]
    intro e he
    simpa using (h e he).1

theorem mapM_eq_ok {ε α β γ : Type} {l : List α} {f : α → β} {g : β → Except ε γ} {h : α → γ}
    (hg : ∀ a ∈ l, g (f a) = .ok (h a)) : (l.map f).mapM g = .ok (l.map h) := by
  induction l with
  | nil => rfl
  | cons a rest ih =>
    obtain ⟨ha, hrest⟩ := List.forall_mem_cons.mp hg
    rw [List.map_cons, List.mapM_cons, ha, ih hrest]
    rfl

-- ---------------------------------------------------------------------------
-- The answers, decoded
-- ---------------------------------------------------------------------------

/-- What the dashboard shows of a tunnel. -/
def TunnelContext.view (tun : TunnelContext) : TunnelView :=
  ⟨inetNtop tun.ipRemote, tun.ifgre, sortMacs tun.macs.keys⟩

section Decoded

variable (host : HostInfo) {s : Sys} (cut : CStr → Nat → Nat)
  (hcon : s.Consistent) (hprint : s.Printable)

include hcon hprint

theorem entry_text {key : UInt32} {p : Ptr} (he : (key, p) ∈ s.tunnels.entries) :
    (s.deref p).entry ≠ [] ∧ ';' ∉ (s.deref p).entry ∧ Visible (s.deref p).entry ∧
      (s.deref p).entry.length ≤ 31 := by
  obtain ⟨tun, hin, -⟩ := hcon.entry he
  have hname := hprint.name hin.record
  have hremote := length_inetNtop_le tun.ipRemote
  have hlength := hname.length_le
  rw [deref_of_some hin.record, TunnelContext.entry]
  refine ⟨by simp, ?_, ?_, ?_⟩
  · rw [List.mem_append, List.mem_cons, not_or, not_or]
    refine ⟨notMem_inetNtop rfl (by decide), by decide, fun hmem => ?_⟩
    exact absurd (hname.chars _ hmem) (by decide)
  · exact (inetNtop_visible _).append fun c hc => by
      rcases List.mem_cons.mp hc with rfl | hc
      · decide
      · exact hname.visible c hc
  · rw [List.length_append, List.length_cons]
    omega

/-- The listing holds one entry for each tunnel. -/
theorem backendQuery_stun (hcount : s.tunnels.size ≤ 64) :
    ∃ listing, backendQuery (daemon host s cut) .tunnels "STUN\n".toList = .ok listing ∧
      (listing.status = "OK".toList ∨ listing.status = "NULL".toList) ∧
      splitEntries (strip listing.body) = s.tunnels.entries.map fun e => (s.deref e.2).entry := by
  have hcommand : "STUN\n".toList = "STUN".toList ++ ['\n'] := rfl
  have hline : ∀ c ∈ "STUN".toList, 32 ≤ c.toNat := forall_of_all (by decide)
  rw [hcommand]
  rw [Hashmap.size_eq_length] at hcount
  by_cases hempty : s.tunnels.size = 0
  · refine ⟨⟨"NULL".toList, []⟩, ?_, .inr rfl, ?_⟩
    · rw [backendQuery_line hline (by decide) (answer_stun.trans (if_pos hempty))
        (forall_of_all (by decide)) (by decide), parseResponse_null]
    · rw [Hashmap.size_eq_length] at hempty
      rw [List.length_eq_zero_iff.mp hempty]
      rfl
  · have hvisible : Visible (s.tunnels.entries.flatMap fun e => (s.deref e.2).entry ++ [';']) := by
      refine Visible.flatMap fun e he => ?_
      exact (entry_text hcon hprint he).2.2.1.append (by simp [Visible])
    have hlength : (s.tunnels.entries.flatMap fun e => (s.deref e.2).entry ++ [';']).length ≤
        32 * s.tunnels.entries.length := by
      refine length_flatMap_le fun e he => ?_
      have := (entry_text hcon hprint he).2.2.2
      rw [List.length_append, List.length_singleton]
      omega
    refine ⟨⟨"OK".toList, s.tunnels.entries.flatMap fun e => (s.deref e.2).entry ++ [';']⟩, ?_,
      .inl rfl, ?_⟩
    · refine backendQuery_ok (by decide) hline (by decide) (answer_stun.trans (if_neg hempty))
        hvisible ?_
      have hmax : serviceMaxResponse = 1048576 := rfl
      omega
    · have hlines : (s.tunnels.entries.flatMap fun e => (s.deref e.2).entry ++ [';']) =
          (s.tunnels.entries.map fun e => (s.deref e.2).entry).flatMap fun t => t ++ [';'] := by
        rw [List.flatMap_map]
      rw [strip_eq_self hvisible.solid, hlines]
      refine splitEntries_terminated _ ?_
      simp only [List.mem_map]
      rintro _ ⟨e, he, rfl⟩
      exact ⟨(entry_text hcon hprint he).1, (entry_text hcon hprint he).2.1⟩

/-- The addresses of a tunnel, in the order of the daemon. -/
theorem backendQuery_lmip {a : InAddr} {p : Ptr} {tun : TunnelContext} (hin : s.InTable a p tun) :
    ∃ reply, backendQuery (daemon host s cut) .ues ("LMIP ".toList ++ inetNtop a ++ ['\n']) =
        .ok reply ∧ splitEntries reply.body = sortMacs tun.macs.keys := by
  have hcommand : "LMIP ".toList ++ inetNtop a ++ ['\n'] =
      ("LMIP".toList ++ ' ' :: inetNtop a) ++ ['\n'] := rfl
  have hline : ∀ c ∈ "LMIP".toList ++ ' ' :: inetNtop a, 32 ≤ c.toNat := by
    intro c hc
    rcases List.mem_append.mp hc with hc | hc
    · have hname : ∀ c ∈ "LMIP".toList, 32 ≤ c.toNat := forall_of_all (by decide)
      exact hname c hc
    · rcases List.mem_cons.mp hc with rfl | hc
      · decide
      · exact Nat.le_of_lt (inetNtop_visible a c hc).1
  have hanswer : answer host s ("LMIP".toList ++ ' ' :: inetNtop a) =
      resultOk ++ [';'].intercalate (sortMacs tun.macs.keys) ++ ['\n'] := by
    rw [answer_lmip, show provisionGetTunnelByip s a = some p from hin.lookup]
    simp only [deref_of_some hin.record]
  have hmac : ∀ mac ∈ sortMacs tun.macs.keys, ∃ bytes, mac = macText bytes := by
    intro mac hmem
    rw [mem_sortMacs, mem_keys_iff] at hmem
    exact hprint.mac hin.record hmem
  have hvisible : Visible ([';'].intercalate (sortMacs tun.macs.keys)) := by
    refine Visible.intercalate fun mac hmem => ?_
    obtain ⟨bytes, rfl⟩ := hmac mac hmem
    exact macText_visible bytes
  have hlength : ([';'].intercalate (sortMacs tun.macs.keys)).length ≤ 18 * tun.macs.size := by
    refine length_macs_le fun mac hmem => ?_
    obtain ⟨bytes, rfl⟩ := hmac mac (mem_sortMacs.mpr hmem)
    exact (macText_shape bytes).1.le
  refine ⟨⟨"OK".toList, [';'].intercalate (sortMacs tun.macs.keys)⟩, ?_, ?_⟩
  · rw [hcommand]
    refine backendQuery_ok (by decide) hline ?_ hanswer hvisible ?_
    · have hremote := length_inetNtop_le a
      have hname : "LMIP".toList.length = 4 := rfl
      rw [List.length_append, List.length_cons]
      omega
    · have hmax : serviceMaxResponse = 1048576 := rfl
      have hclients : maxClients = 1024 := rfl
      have hmacs := hcon.macs_le a p tun hin
      omega
  · refine splitEntries_separated _ fun mac hmem => ?_
    obtain ⟨bytes, rfl⟩ := hmac mac hmem
    exact macText_legible bytes

/-- One entry of the listing, with the addresses queried for it. -/
theorem viewTunnel_entry {key : UInt32} {p : Ptr} (he : (key, p) ∈ s.tunnels.entries) :
    viewTunnel (daemon host s cut) (s.deref p).entry = .ok (s.deref p).view := by
  obtain ⟨tun, hin, hremote⟩ := hcon.entry he
  have hname := hprint.name hin.record
  have hpartition : partition tun.entry '@' = (inetNtop tun.ipRemote, true, tun.ifgre) := by
    rw [partition, TunnelContext.entry, strchr_append (notMem_inetNtop rfl (by decide))]
    rfl
  have hipv4 : ipv4 (inetNtop tun.ipRemote) = some (inetNtop tun.ipRemote) := by
    rw [ipv4, inetPton_inetNtop]
    rfl
  obtain ⟨reply, hreply, hmacs⟩ := backendQuery_lmip host cut hcon hprint hin
  rw [← hremote] at hreply
  rw [deref_of_some hin.record, viewTunnel, hpartition]
  simp only [hipv4, hreply]
  rw [fullmatch_name ⟨List.length_pos_iff.mpr hname.ne_nil, hname.length_le⟩ hname.chars]
  show Except.ok (TunnelView.mk _ _ (splitEntries reply.body)) = _
  rw [hmacs]
  rfl

theorem overview_eq (hcount : s.tunnels.size ≤ 64) {status : Response}
    (hstat : backendQuery (daemon host s cut) .status "STAT\n".toList = .ok status)
    (hok : status.status = "OK".toList) :
    overview (daemon host s cut) =
      .ok ⟨status.body, s.tunnels.entries.map fun e => (s.deref e.2).view,
        s.tunnels.size, false⟩ := by
  obtain ⟨listing, hlisting, hresult, hentries⟩ :=
    backendQuery_stun host cut hcon hprint hcount
  have hcheck : (status.status != "OK".toList ||
      !(listing.status == "OK".toList || listing.status == "NULL".toList)) = false := by
    rcases hresult with hresult | hresult
    · simp [hok, hresult]
    · simp [hok, hresult]
  have hviews : (s.tunnels.entries.map fun e => (s.deref e.2).entry).mapM
      (viewTunnel (daemon host s cut)) = .ok (s.tunnels.entries.map fun e => (s.deref e.2).view) :=
    mapM_eq_ok fun e he => viewTunnel_entry host cut hcon hprint he
  rw [Hashmap.size_eq_length] at hcount ⊢
  have hall : (s.tunnels.entries.map fun e => (s.deref e.2).entry).take 64 =
      s.tunnels.entries.map fun e => (s.deref e.2).entry :=
    List.take_of_length_le (by rwa [List.length_map])
  simp only [overview, hstat, hlisting, bind, Except.bind, hcheck, hentries, hall, hviews,
    List.length_map, Nat.not_lt.mpr hcount]
  rfl

/-- The hook names the tunnel that holds the address, if there is one. -/
theorem tunnelOf_eq {m : CStr} (hm : MacText m) :
    tunnelOf (daemon host s cut) m =
      (provisionGetTunnelByMac s (m.map toLower)).map fun p => (s.deref p).pair := by
  obtain ⟨hvalid, hlength, htoken⟩ := hm.validMac
  have hline : ∀ c ∈ m, 32 ≤ c.toNat := fun c hc => Nat.le_of_lt (hm.visible c hc).1
  have hanswer : answer host s ("GTMC".toList ++ ' ' :: m) = _ := answer_gtmc htoken hlength hvalid
  cases hfound : provisionGetTunnelByMac s (m.map toLower) with
  | none =>
    rw [hfound] at hanswer
    rw [tunnelOf_line hline hlength hanswer ascii_notFound
      (show resultNotFound.length ≤ maxReply by decide), fullmatch_lease_notFound]
    rfl
  | some p =>
    obtain ⟨remote, tun, hin, -⟩ := (hcon.mac_iff _ p).mp hfound
    obtain ⟨-, -, hvisible, hshort⟩ := entry_text hcon hprint
      (Hashmap.mem_entries_iff_lookup.mpr hin.lookup)
    have hname := hprint.name hin.record
    rw [hfound] at hanswer
    simp only [deref_of_some hin.record] at hanswer hvisible hshort
    rw [tunnelOf_line hline hlength hanswer (ascii_ok hvisible) ?_, TunnelContext.entry,
      fullmatch_lease (fun c hc => mem_inetNtop hc) ?_ (inetNtop_isToken _).ne_nil hname.ne_nil,
      Option.map_some, Option.map_some, deref_of_some hin.record]
    · rfl
    · intro c hc
      simpa [isWord] using hname.chars c hc
    · rw [length_ok, maxReply]
      omega

end Decoded

-- ---------------------------------------------------------------------------
-- Reachable states
-- ---------------------------------------------------------------------------

/-- What the dashboard shows, with the addresses as a set. -/
def TunnelView.content (t : TunnelView) : CStr × CStr × Finset CStr :=
  (t.remote, t.interface, t.macs.toFinset)

/-- Both adapters recover the tables. -/
structure Sys.DecodedBy (s : Sys) (backend : Backend) : Prop where
  /-- The dashboard shows every tunnel once, with its addresses, and nothing else. -/
  overview : ∃ o, overview backend = .ok o ∧ (o.tunnels.map TunnelView.remote).Nodup ∧
    ∀ v, v ∈ o.tunnels.map TunnelView.content ↔
      ∃ a p tun, s.InTable a p tun ∧ v = (inetNtop a, tun.ifgre, tun.macs.keySet)
  /-- The lease hook finds the tunnel that learned an address, and nothing for an
      address that no tunnel learned. -/
  learned : ∀ a p tun m, s.InTable a p tun → MacText m → tun.macs.contains (m.map toLower) = true →
    tunnelOf backend m = some (inetNtop a, tun.ifgre)
  unlearned : ∀ m, MacText m →
    (∀ a p tun, s.InTable a p tun → tun.macs.contains (m.map toLower) = false) →
    tunnelOf backend m = none

section Reachable

variable {host : HostInfo} {s : Sys} {cut : CStr → Nat → Nat}

theorem decodedBy_daemon (hcon : s.Consistent) (hprint : s.Printable) (hcount : s.tunnels.size ≤ 64)
    {status : Response} (hstat : backendQuery (daemon host s cut) .status "STAT\n".toList = .ok status)
    (hok : status.status = "OK".toList) : s.DecodedBy (daemon host s cut) where
  overview := by
    refine ⟨_, overview_eq host cut hcon hprint hcount hstat hok, ?_, fun v => ?_⟩
    · have hremotes : (s.tunnels.entries.map fun e => (s.deref e.2).view).map TunnelView.remote =
          s.tunnels.keys.map fun key => inetNtop ⟨key⟩ := by
        rw [List.map_map, show s.tunnels.keys = s.tunnels.entries.map _ from rfl, List.map_map]
        refine List.map_congr_left fun e he => ?_
        obtain ⟨tun, hin, hremote⟩ := hcon.entry he
        simp only [Function.comp_apply]
        rw [deref_of_some hin.record, TunnelContext.view, hremote]
      rw [hremotes]
      refine List.Nodup.map (fun key key' heq => ?_) (Hashmap.nodup_keys _)
      exact congrArg InAddr.sAddr (inetNtop_injective heq)
    · have hmacs : ∀ tun : TunnelContext, (sortMacs tun.macs.keys).toFinset = tun.macs.keySet := by
        intro tun
        ext mac
        rw [List.mem_toFinset, mem_sortMacs, Hashmap.keySet, List.mem_toFinset]
      rw [List.map_map, List.mem_map]
      constructor
      · rintro ⟨⟨key, p⟩, he, rfl⟩
        obtain ⟨tun, hin, hremote⟩ := hcon.entry he
        refine ⟨⟨key⟩, p, tun, hin, ?_⟩
        simp only [Function.comp_apply]
        rw [deref_of_some hin.record, TunnelContext.view, TunnelView.content, hmacs, hremote]
      · rintro ⟨⟨key⟩, p, tun, hin, rfl⟩
        refine ⟨(key, p), Hashmap.mem_entries_iff_lookup.mpr hin.lookup, ?_⟩
        simp only [Function.comp_apply]
        rw [deref_of_some hin.record, TunnelContext.view, TunnelView.content, hmacs, hcon.remote hin]
  learned a p tun m hin hm hmac := by
    have hfound := (hcon.mac_iff _ p).mpr ⟨a, tun, hin, hmac⟩
    rw [tunnelOf_eq host cut hcon hprint hm, hfound, Option.map_some, deref_of_some hin.record,
      TunnelContext.pair, hcon.remote hin]
  unlearned m hm hnone := by
    rw [tunnelOf_eq host cut hcon hprint hm, Option.map_eq_none_iff]
    by_contra hsome
    obtain ⟨p, hfound⟩ := Option.ne_none_iff_exists'.mp hsome
    obtain ⟨a, tun, hin, hmac⟩ := (hcon.mac_iff _ p).mp hfound
    rw [hnone a p tun hin] at hmac
    cases hmac

end Reachable

/-- After every run of the main loop, whatever failed in it and however the replies
    are cut, the dashboard and the lease hook read the tables out of the daemon's
    answers. -/
theorem adapters_decode_tables (host : HostInfo) (cfg : SoftgredConfig) (env : Env) (w : World)
    (calls : List Call) (hloop : ∀ call ∈ calls, call.fromLoop = true) (cut : CStr → Nat → Nat)
    (hcount : (run cfg env calls (provisionInit w)).tunnels.size ≤ 64)
    (hstat : ∃ body, backendQuery (daemon host (run cfg env calls (provisionInit w)) cut) .status
      "STAT\n".toList = .ok ⟨"OK".toList, body⟩) :
    (run cfg env calls (provisionInit w)).DecodedBy
      (daemon host (run cfg env calls (provisionInit w)) cut) := by
  obtain ⟨body, hstat⟩ := hstat
  exact decodedBy_daemon (run_consistent cfg env w calls) (run_printable cfg env w hloop) hcount
    hstat rfl

/-- A host with a blank in its version. -/
def Sample.hostInfo : HostInfo where
  sysname := "Linux".toList
  release := "6.1.0".toList
  version := "#1 SMP".toList
  machine := "x86_64".toList
  uptime := 42
  packageVersion := "1.0".toList
  startedTime := 1700000000

theorem answer_stat (host : HostInfo) (s : Sys) : answer host s "STAT".toList = statText host := by
  have hplain : serviceCommand host "STAT".toList = plainCommand host "STAT".toList := by
    rw [serviceCommand, if_neg (by decide), strtok_token (.of_all (by decide) (by decide))]
    simp only
    rw [if_neg (by decide)]
  rw [answer, hplain, plainCommand, if_neg (by decide), if_neg (by decide), if_neg (by decide),
    if_pos rfl]
  rfl

theorem Sample.stat_reply (s : Sys) (cut : CStr → Nat → Nat) :
    ∃ body, backendQuery (daemon Sample.hostInfo s cut) .status "STAT\n".toList =
      .ok ⟨"OK".toList, body⟩ := by
  have hquery : backendQuery (daemon Sample.hostInfo s cut) .status ("STAT".toList ++ ['\n']) =
      parseResponse .status (statText Sample.hostInfo) :=
    backendQuery_line (forall_of_all (by decide)) (by decide) (answer_stat _ _)
      (forall_of_all (by decide)) (by decide)
  exact ⟨"Linux 6.1.0;#1 SMP;x86_64;42;1.0;1700000000".toList, hquery.trans (by decide +kernel)⟩

/-- The replies come in segments of three bytes; the hook finds the remote all the
    same. -/
theorem adapters_decode_tables_segments :
    tunnelOf (daemon Sample.hostInfo (run Sample.config Sample.obliging [.packet Sample.packet, .wait 3]
        (Sample.start Sample.obliging)) fun _ _ => 2) "02:00:00:00:00:01".toList =
      some (inetNtop (InAddr.ofBytes 10 0 0 2), "gre0".toList) := by
  have hcon := run_consistent Sample.config Sample.obliging
    ((ifaceEbtablesInit Sample.obliging).run ⟨Sample.kernel, [], 0, 0, false⟩).2
    [.packet Sample.packet, .wait 3]
  obtain ⟨tun, hp, -⟩ := hcon.remote_eq (InAddr.ofBytes 10 0 0 2) 0 (by decide +kernel)
  have hin : Sys.InTable _ (InAddr.ofBytes 10 0 0 2) 0 tun := ⟨by decide +kernel, hp⟩
  have htun := deref_of_some hp
  have hname : tun.ifgre = "gre0".toList := by
    rw [← htun]
    decide +kernel
  rw [← hname]
  refine (adapters_decode_tables Sample.hostInfo Sample.config Sample.obliging _
    [.packet Sample.packet, .wait 3] (by simp [Call.fromLoop]) (fun _ _ => 2) (by decide +kernel)
    (Sample.stat_reply _ _)).learned _ 0 tun _ hin ⟨Sample.packet.mac, by decide +kernel⟩ ?_
  rw [← htun]
  decide +kernel

end Softgre
