-- SUMMARY: How long an answer can get: never so long that the server would replace it.
import Softgre.Service.Framing
import Softgre.Service.Requests

/-!
# Sizes

`service_dispatch` replaces a response of more than 1 MiB. The tables are bounded
and so are the names and addresses in them, so that no command gets there, not
with all slots taken and not with all addresses learned.
-/

namespace Softgre

-- ---------------------------------------------------------------------------
-- Lengths
-- ---------------------------------------------------------------------------

theorem length_intercalate_le {l : List CStr} {k : Nat} (h : ∀ t ∈ l, t.length ≤ k) :
    ([';'].intercalate l).length ≤ (k + 1) * l.length := by
  induction l with
  | nil => exact Nat.zero_le _
  | cons t rest ih =>
    obtain ⟨ht, hrest⟩ := List.forall_mem_cons.mp h
    cases rest with
    | nil =>
      simp
      omega
    | cons t' rest =>
      have hlength := ih hrest
      have hcount : (k + 1) * (t :: t' :: rest).length = (k + 1) * (t' :: rest).length + (k + 1) :=
        Nat.mul_succ _ _
      rw [List.intercalate_cons_cons, List.length_append, List.length_append, List.length_singleton,
        hcount]
      omega

theorem length_flatMap_le {α : Type} {l : List α} {f : α → CStr} {k : Nat}
    (h : ∀ a ∈ l, (f a).length ≤ k) : (l.flatMap f).length ≤ k * l.length := by
  induction l with
  | nil => exact Nat.zero_le _
  | cons a rest ih =>
    obtain ⟨ha, hrest⟩ := List.forall_mem_cons.mp h
    have hlength := ih hrest
    rw [List.flatMap_cons, List.length_append, List.length_cons, Nat.mul_add]
    omega

/-- Distinct numbers below a bound. -/
theorem length_le_of_nodup {l : List Nat} {n : Nat} (hnodup : l.Nodup) (h : ∀ i ∈ l, i < n) :
    l.length ≤ n := by
  have hsub := (hnodup.subperm fun i hi => List.mem_range.mpr (h i hi)).length_le
  rwa [List.length_range] at hsub

/-- A number of the type `long`. -/
structure IsLong (n : Int) : Prop where
  ge : -2 ^ 63 ≤ n
  lt : n < 2 ^ 63

theorem IsLong.length_decInt_le {n : Int} (h : IsLong n) : (decInt n).length ≤ 20 := by
  obtain ⟨hge, hlt⟩ := h
  have hdec : (dec n.natAbs).length ≤ 19 := length_dec_le (by decide) (by omega)
  rw [decInt]
  split
  · rw [List.length_cons]
    omega
  · omega

-- ---------------------------------------------------------------------------
-- The host
-- ---------------------------------------------------------------------------

/-- `PACKAGE_VERSION`, which the build takes from the file `VERSION`. -/
def packageVersion : CStr := "2.0.4".toList

/-- What a field of `struct utsname` holds at most. -/
def utsMax : Nat := 64

/-- The host as the kernel and the build describe it. -/
structure HostInfo.Fits (host : HostInfo) : Prop where
  sysname : host.sysname.length ≤ utsMax
  release : host.release.length ≤ utsMax
  version : host.version.length ≤ utsMax
  machine : host.machine.length ≤ utsMax
  uptime : IsLong host.uptime
  packageVersion_eq : host.packageVersion = Softgre.packageVersion
  startedTime : IsLong host.startedTime

theorem HostInfo.Fits.length_statText_le {host : HostInfo} (h : host.Fits) :
    (statText host).length ≤ 400 := by
  have hok : resultOk.length = 17 := rfl
  have hpackage : Softgre.packageVersion.length = 5 := rfl
  have huptime := h.uptime.length_decInt_le
  have hstarted := h.startedTime.length_decInt_le
  obtain ⟨hsysname, hrelease, hversion, hmachine, -, hversion', -⟩ := h
  rw [utsMax] at hsysname hrelease hversion hmachine
  simp only [statText, List.length_append, List.length_singleton, hversion']
  omega

-- ---------------------------------------------------------------------------
-- The tables
-- ---------------------------------------------------------------------------

/-- What the texts in the tables take at most. -/
structure Sys.Short (s : Sys) : Prop where
  name : ∀ {p tun}, s.heap p = some tun → tun.ifgre.length ≤ 10
  mac : ∀ {p tun mac}, s.heap p = some tun → tun.macs.contains mac = true → mac.length = 17

theorem run_short (cfg : SoftgredConfig) (env : Env) (w : World) {calls : List Call}
    (hloop : ∀ call ∈ calls, call.fromLoop = true) :
    (run cfg env calls (provisionInit w)).Short where
  name {p tun} hp := by
    have htables := (run_tables cfg env calls ⟨provisionInit_tables cfg w, provisionInit_idle w⟩).1
    have hname : tun.ifgre = tunnelName cfg tun.id := htables.ifgre_eq (heap_abs_of_some hp)
    rw [hname]
    exact length_tunnelName_le cfg (htables.id_lt (heap_abs_of_some hp))
  mac hp hmac := by
    obtain ⟨bytes, rfl⟩ := (run_macs cfg env w hloop _ _ (heap_abs_of_some hp)).2 _
      (Hashmap.mem_keySet.mpr hmac)
    exact (macText_shape bytes).1

/-- Every tunnel in the table has a slot of its own. -/
theorem Sys.Consistent.tunnels_le {s : Sys} (hcon : s.Consistent) : s.tunnels.size ≤ maxSlots := by
  have hids : (s.tunnels.entries.map fun e => (s.deref e.2).id).Nodup := by
    rw [List.Nodup, List.pairwise_map]
    have hkeys := Hashmap.nodup_keys s.tunnels
    rw [show s.tunnels.keys = s.tunnels.entries.map _ from rfl, List.Nodup, List.pairwise_map]
      at hkeys
    refine hkeys.imp_of_mem fun {e e'} he he' hne heq => hne ?_
    obtain ⟨tun, hin, -⟩ := hcon.entry he
    obtain ⟨tun', hin', -⟩ := hcon.entry he'
    rw [deref_of_some hin.record, deref_of_some hin'.record] at heq
    exact congrArg InAddr.sAddr (hcon.id_inj _ _ _ _ _ _ hin hin' heq)
  have hlength := length_le_of_nodup hids fun id hid => by
    obtain ⟨e, he, rfl⟩ := List.mem_map.mp hid
    obtain ⟨tun, hin, -⟩ := hcon.entry he
    rw [deref_of_some hin.record]
    exact hcon.id_lt _ _ _ hin
  rwa [List.length_map, ← Hashmap.size_eq_length] at hlength

-- ---------------------------------------------------------------------------
-- The commands
-- ---------------------------------------------------------------------------

section Commands

open Base

variable {host : HostInfo} {s : Sys}

theorem Sys.Short.length_entry_le (h : s.Short) {p : Ptr} {tun : TunnelContext}
    (hp : s.heap p = some tun) : tun.entry.length ≤ 26 := by
  have hremote := length_inetNtop_le tun.ipRemote
  have hname := h.name hp
  rw [TunnelContext.entry, List.length_append, List.length_cons]
  omega

theorem length_ok_le {body : CStr} {k : Nat} (h : body.length ≤ k) :
    (resultOk ++ body ++ ['\n']).length ≤ k + 18 := by
  have hok : resultOk.length = 17 := rfl
  rw [List.length_append, List.length_append, List.length_singleton]
  omega

/-- A record per slot. -/
theorem length_listTunnels_le (hcon : s.Consistent) (hshort : s.Short) :
    (listTunnels.run s).1.length ≤ 27 * maxSlots + 18 := by
  rw [listTunnels_run]
  split
  · exact (show resultNull.length ≤ 13 by decide).trans (by decide)
  · refine length_ok_le ?_
    have hlines : (s.tunnels.entries.flatMap fun e => (s.deref e.2).entry ++ [';']).length ≤
        27 * s.tunnels.entries.length := by
      refine length_flatMap_le fun e he => ?_
      obtain ⟨tun, hin, -⟩ := hcon.entry he
      have hentry := hshort.length_entry_le hin.record
      rw [deref_of_some hin.record, List.length_append, List.length_singleton]
      omega
    have hcount := hcon.tunnels_le
    rw [Hashmap.size_eq_length] at hcount
    omega

/-- The addresses of one tunnel, with a separator for each. -/
theorem length_macs_le {tun : TunnelContext} (h : ∀ mac ∈ tun.macs.keys, mac.length ≤ 17) :
    ([';'].intercalate (sortMacs tun.macs.keys)).length ≤ 18 * tun.macs.size := by
  have hcount : (sortMacs tun.macs.keys).length = tun.macs.size := by
    rw [sortMacs, List.length_mergeSort, Hashmap.size_eq_length]
    exact List.length_map _
  rw [← hcount]
  exact length_intercalate_le fun mac hmem => h mac (mem_sortMacs.mp hmem)

theorem length_listMacs_le (hcon : s.Consistent) (hshort : s.Short) (arg : CStr) :
    ((listMacs arg).run s).1.length ≤ 18 * maxClients + 18 := by
  show wp (listMacs arg) (fun out _ => out.length ≤ 18 * maxClients + 18) s
  rw [listMacs]
  split
  · exact (show resultInvalid.length ≤ 60 by decide).trans (by decide)
  next addr _ =>
  simp only [wp_bind, wp_get]
  cases hlookup : provisionGetTunnelByip s addr with
  | none => exact (show resultNotFound.length ≤ 17 by decide).trans (by decide)
  | some p =>
    obtain ⟨tun, hp, -⟩ := hcon.remote_eq addr p hlookup
    have hmacs := hcon.macs_le addr p tun ⟨hlookup, hp⟩
    show (resultOk ++ macLines (sortMacs (s.deref p).macs.keys) ++ _).length ≤ _
    rw [List.append_assoc, macLines_append, ← List.append_assoc]
    refine length_ok_le ?_
    have hlines := length_macs_le fun mac hmem => (hshort.mac hp (mem_keys_iff.mp hmem)).le
    rw [deref_of_some hp]
    omega

theorem length_findTunnel_le (hcon : s.Consistent) (hshort : s.Short) (arg : CStr) :
    ((findTunnel arg).run s).1.length ≤ 60 := by
  show wp (findTunnel arg) (fun out _ => out.length ≤ 60) s
  rw [findTunnel]
  split
  · exact show resultInvalid.length ≤ 60 by decide
  next mac _ =>
  simp only [wp_bind, wp_get]
  cases hfound : provisionGetTunnelByMac s mac with
  | none => exact show resultNotFound.length ≤ 60 by decide
  | some p =>
    obtain ⟨remote, tun, hin, -⟩ := (hcon.mac_iff mac p).mp hfound
    show (resultOk ++ (s.deref p).entry ++ ['\n']).length ≤ 60
    rw [deref_of_some hin.record]
    exact (length_ok_le (hshort.length_entry_le hin.record)).trans (by decide)

theorem length_plainCommand_le (hhost : host.Fits) (hcon : s.Consistent) (hshort : s.Short)
    (cmd : CStr) : ((plainCommand host cmd).run s).1.length ≤ 27 * maxSlots + 18 := by
  have hbound : 27 * maxSlots + 18 = 110610 := rfl
  rw [hbound, plainCommand]
  split
  · show (resultOk ++ host.packageVersion ++ ['\n']).length ≤ 110610
    rw [hhost.packageVersion_eq]
    decide
  split
  · exact Nat.zero_le _
  split
  · have hhelp : helpText.length ≤ 400 := by decide +kernel
    generalize helpText = text at hhelp ⊢
    exact hhelp.trans (by decide)
  split
  · exact hhost.length_statText_le.trans (by decide)
  split
  · exact hbound ▸ length_listTunnels_le hcon hshort
  · exact (show resultInvalid.length ≤ 60 by decide).trans (by decide)

/-- Every answer, to whatever request. -/
theorem length_answer_le (hhost : host.Fits) (hcon : s.Consistent) (hshort : s.Short)
    (request : CStr) : (answer host s request).length ≤ 27 * maxSlots + 18 := by
  have hinvalid : resultInvalid.length ≤ 27 * maxSlots + 18 :=
    (show resultInvalid.length ≤ 60 by decide).trans (by decide)
  rw [answer, serviceCommand]
  split
  · exact hinvalid
  split
  · split
    · exact hinvalid
    · exact length_plainCommand_le hhost hcon hshort _
  · split
    · exact (length_listMacs_le hcon hshort _).trans (by decide)
    split
    · exact (length_findTunnel_le hcon hshort _).trans (by decide)
    · exact hinvalid
  · exact hinvalid

end Commands

/-- After every run of the main loop, every request is answered with less than the
    limit: the server takes the answer as it is, with all tunnels and all addresses
    in it. -/
theorem response_cap_never_hit (host : HostInfo) (hhost : host.Fits) (cfg : SoftgredConfig)
    (env : Env) (w : World) (calls : List Call) (hloop : ∀ call ∈ calls, call.fromLoop = true) :
    let s := run cfg env calls (provisionInit w)
    (∀ request, (answer host s request).length ≤ serviceMaxResponse) ∧
      (∀ input, respond (answer host s) input =
        if !input.contains '\n' && input.length == serviceMaxRequest - 1 then requestTooLarge
        else answer host s (input.takeWhile (· != '\n'))) ∧
      respond (answer host s) "STUN\n".toList =
        (if s.tunnels.size = 0 then resultNull
        else resultOk ++ (s.tunnels.entries.flatMap fun e => (s.deref e.2).entry ++ [';']) ++
          ['\n']) ∧
      ∀ a p tun, s.InTable a p tun →
        respond (answer host s) ("LMIP".toList ++ ' ' :: inetNtop a ++ ['\n']) =
          resultOk ++ [';'].intercalate (sortMacs tun.macs.keys) ++ ['\n'] := by
  intro s
  have hlength : ∀ request, (answer host s request).length ≤ serviceMaxResponse := fun request =>
    (length_answer_le hhost (run_consistent cfg env w calls) (run_short cfg env w hloop)
      request).trans (by decide)
  have hcap : ∀ request, capResponse (answer host s request) = answer host s request :=
    fun request => if_neg (Nat.not_lt.mpr (hlength request))
  refine ⟨hlength, fun input => ?_, ?_, fun a p tun hin => ?_⟩
  · rw [respond]
    split
    · exact capResponse_requestTooLarge
    · exact hcap _
  · rw [respond_line (by decide), hcap, show "STUN\n".toList.takeWhile (· != '\n') = "STUN".toList
      by decide]
    exact answer_stun
  · have hline : '\n' ∉ "LMIP".toList ++ ' ' :: inetNtop a := by
      rw [List.mem_append, List.mem_cons, not_or, not_or]
      exact ⟨by decide, by decide, notMem_inetNtop rfl (by decide)⟩
    rw [respond_line (by simp), hcap, takeWhile_append_cons hline, answer_lmip,
      show provisionGetTunnelByip s a = some p from hin.lookup]
    simp only [deref_of_some hin.record]

/-- A host with fields of full length. -/
def Sample.longFields : HostInfo where
  sysname := List.replicate 64 'L'
  release := List.replicate 64 '6'
  version := List.replicate 64 '#'
  machine := List.replicate 64 'x'
  uptime := 2 ^ 63 - 1
  packageVersion := packageVersion
  startedTime := -2 ^ 63

theorem Sample.longFields_fits : longFields.Fits where
  sysname := by decide
  release := by decide
  version := by decide
  machine := by decide
  uptime := ⟨by decide, by decide⟩
  packageVersion_eq := rfl
  startedTime := ⟨by decide, by decide⟩

theorem response_cap_never_hit_long :
    (answer Sample.longFields (run Sample.config Sample.obliging [.packet Sample.packet, .wait 3]
      (Sample.start Sample.obliging)) "STAT".toList).length ≤ serviceMaxResponse :=
  (response_cap_never_hit Sample.longFields Sample.longFields_fits Sample.config Sample.obliging _
    [.packet Sample.packet, .wait 3] (by simp [Call.fromLoop])).1 _

end Softgre
