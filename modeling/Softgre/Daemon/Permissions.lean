-- SUMMARY: After every run of the main loop the accept rules mirror ownership, if every undo worked.
import Softgre.Daemon.Tables
import Softgre.Ledger.Rules

/-!
# Permissions after a run
-/

namespace Softgre

open Base

variable {cfg : SoftgredConfig} {env : Env} {host : Kernel} {s : Sys}

/-- The main loop revokes no single address. -/
theorem Call.Labels.not_revoke {call : Call} (hloop : call.fromLoop = true) (remote : InAddr)
    (mac : CStr) : ¬ call.Labels (.revoke remote mac) := by
  cases call with
  | packet =>
    rintro (((h | h) | h | h) | h) <;> cases h
  | delall => rintro (h | h) <;> cases h
  | wait => exact nofun
  | add | allowMac | del => cases hloop

theorem exec_listed {call : Call} (hloop : call.fromLoop = true) (htables : s.Tables cfg)
    (hleaks : ¬ s.world.Leaks (exec cfg env s call).world) (hlisted : s.abs.Listed) :
    (exec cfg env s call).abs.Listed :=
  Core.trail_listed (Call.Labels.not_revoke hloop) (exec_trail cfg env call htables.1 htables.2)
    htables.1 hleaks hlisted

variable (cfg env) in
theorem run_perms {calls : List Call} (hloop : ∀ call ∈ calls, call.fromLoop = true)
    (htables : s.Tables cfg) (hlisted : s.abs.Listed) :
    (run cfg env calls s).world.AllUndone → (run cfg env calls s).abs.Perms := by
  have hinv : (run cfg env calls s).Tables cfg ∧
      ((run cfg env calls s).world.AllUndone → (run cfg env calls s).abs.Listed) := by
    refine run_invariant (I := fun s => s.Tables cfg ∧ (s.world.AllUndone → s.abs.Listed))
      (fun call s hcall hs => ⟨exec_tables cfg env call hs.1, fun hundone => ?_⟩) hloop
      ⟨htables, fun _ => hlisted⟩
    refine exec_listed hcall hs.1 hundone.not_leaks (hs.2 (hundone.of_suffix ?_))
    exact Core.trail_suffix (exec_trail cfg env call hs.1.1 hs.1.2)
  exact fun hundone => (hinv.2 hundone).perms

theorem Started.listed (h : Started env host s) : s.abs.Listed := by
  obtain ⟨errno, clock, rfl, hok⟩ := h.boot
  obtain ⟨-, -, happly⟩ := ifaceEbtablesInit_spec env _ hok
  obtain ⟨-, -, hdefaults, -⟩ := Kernel.chains_of_init happly
  rw [abs_provisionInit]
  exact fun _ => .of_rests hdefaults.1 hdefaults.2 fun _ _ ⟨_, _, ht, _⟩ => nomatch ht

/-! ## Rules for interface names -/

/-- The chain exists and holds the rule. -/
def Kernel.HasRule (k : Kernel) (t : EbTable) (c : Chain) (r : Rule) : Prop :=
  ∃ rules, k.chain t c = some rules ∧ r ∈ rules

/-- `name` is the interface of a tunnel in the table that owns `mac`. -/
def Sys.Owns (s : Sys) (name mac : CStr) : Prop :=
  ∃ remote p tun, s.InTable remote p tun ∧ tun.ifgre = name ∧ tun.macs.contains mac = true

/-- In both chains, an address is accepted exactly on the interface of its owner. -/
def Sys.MirrorsOwnership (s : Sys) : Prop :=
  ∀ name mac, name.length < ifNamSiz →
    (s.world.kernel.HasRule .nat .softgreIn (acceptIn name mac) ↔ s.Owns name mac) ∧
    (s.world.kernel.HasRule .filter .softgreOut (acceptOut name mac) ↔ s.Owns name mac)

theorem owns_iff_permits (hst : s.abs.store.Inv cfg) {name mac : CStr} :
    s.Owns name mac ↔ s.abs.store.Permits name mac := by
  constructor
  · rintro ⟨_, p, tun, hin, hname, hmac⟩
    exact ⟨p, tun.abs, heap_abs_of_some hin.record, hname, Hashmap.mem_keySet.mpr hmac⟩
  · rintro ⟨p, t, ht, hname, hmac⟩
    obtain ⟨tun, hp, rfl⟩ := heap_of_abs ht
    exact ⟨_, p, tun, inTable_of_heap hst hp, hname, Hashmap.mem_keySet.mp hmac⟩

/-- A rule for a name that fits an interface is for that name only. -/
theorem Kernel.Mirrors.hasRule_iff {k : Kernel} {t : EbTable} {c : Chain}
    {accept : CStr → CStr → Rule} {tail : List Rule} (hst : s.abs.store.Inv cfg)
    (h : k.Mirrors t c accept tail s.abs.store.Permits) (htail : ∀ name mac, accept name mac ∉ tail)
    (hinj : ∀ {name mac name' mac'}, accept name mac = accept name' mac' →
      vlanPattern name = vlanPattern name' ∧ mac = mac')
    {name mac : CStr} (hname : name.length < ifNamSiz) :
    k.HasRule t c (accept name mac) ↔ s.Owns name mac := by
  rw [owns_iff_permits hst]
  obtain ⟨rules, hrules, hmem⟩ := h
  constructor
  · rintro ⟨rules', hrules', hr⟩
    cases hrules.symm.trans hrules'
    have hr := (List.mem_append.mp hr).resolve_right (htail name mac)
    obtain ⟨name', mac', hpermits, heq⟩ := (hmem _).mp hr
    obtain ⟨hpat, rfl⟩ := hinj heq
    obtain ⟨p, u, hu, rfl, -⟩ := id hpermits
    have hlen : u.ifgre.length < ifNamSiz := by
      rw [hst.ifgre_eq hu]
      exact Nat.lt_of_le_of_lt (length_tunnelName_le cfg (hst.id_lt hu)) (by decide)
    exact vlanPattern_injective hname hlen hpat ▸ hpermits
  · intro hpermits
    exact ⟨_, hrules, List.mem_append_left _ ((hmem _).mpr ⟨name, mac, hpermits, rfl⟩)⟩

theorem PermsInv.mirrorsOwnership (hst : s.abs.store.Inv cfg)
    (h : PermsInv s.abs.store s.world.kernel) : s.MirrorsOwnership := by
  intro name mac hname
  exact ⟨h.ingress.hasRule_iff hst acceptIn_notMem_tail acceptIn_inj hname,
    h.egress.hasRule_iff hst acceptOut_notMem_tail acceptOut_inj hname⟩

/-- After every run of the main loop in which no deletion of an ingress rule was
    refused, and outside a pending cleanup, an address is accepted exactly on the
    interface of its owner. -/
theorem permissions_mirror_ownership (cfg : SoftgredConfig) (env : Env) (host : Kernel) (s : Sys)
    (calls : List Call) (hstart : Started env host s)
    (hloop : ∀ call ∈ calls, call.fromLoop = true)
    (hundone : (run cfg env calls s).world.AllUndone)
    (hidle : (run cfg env calls s).cleanupPending = false) :
    (run cfg env calls s).MirrorsOwnership := by
  have hinv := hstart.inv cfg
  have hperms := run_perms cfg env hloop ⟨hinv.tables, hinv.idle⟩ hstart.listed
  exact (hperms hundone hidle).mirrorsOwnership
    (run_tables cfg env calls ⟨hinv.tables, hinv.idle⟩).1

namespace Sample

/-- Refuses the first egress rule of every address. -/
def reluctant : Env
  | .insert .filter .softgreOut _, 0 => ⟨false, none, 0⟩
  | _, _ => ⟨true, none, 0⟩

/-- Refuses egress rules, and to take the ingress rule back. -/
def leaky : Env
  | .insert .filter .softgreOut _, _ => ⟨false, none, 0⟩
  | .delete .nat .softgreIn _, _ => ⟨false, none, 0⟩
  | _, _ => ⟨true, none, 0⟩

end Sample

/-- The address is learned in the second attempt. -/
theorem permissions_mirror_ownership_reluctant :
    provisionGetTunnelByMac (run Sample.config Sample.reluctant
      [.packet Sample.packet, .wait 1000000, .packet Sample.packet] (Sample.start Sample.reluctant))
      (macText Sample.packet.mac) = some 0 ∧
    (run Sample.config Sample.reluctant
      [.packet Sample.packet, .wait 1000000, .packet Sample.packet]
      (Sample.start Sample.reluctant)).MirrorsOwnership :=
  ⟨by decide +kernel, permissions_mirror_ownership Sample.config Sample.reluctant Sample.kernel _ _
    (Sample.started (by decide +kernel)) (by decide)
    (by unfold World.AllUndone; decide +kernel) (by decide +kernel)⟩

/-- The egress rule of an address fails and so does the undo: the address is accepted
    on the ingress of a tunnel that does not own it. -/
theorem not_permissions_mirror_ownership :
    ¬ ((run Sample.config Sample.leaky [.packet Sample.packet]
        (Sample.start Sample.leaky)).cleanupPending = false →
      (run Sample.config Sample.leaky [.packet Sample.packet]
        (Sample.start Sample.leaky)).MirrorsOwnership) := by
  intro h
  have hmirrors :=
    (h (by decide +kernel) ['g', 'r', 'e', '0'] (macText Sample.packet.mac) (by decide)).1
  obtain ⟨remote, p, tun, hin, -, hmac⟩ := hmirrors.mp
    ⟨[acceptIn ['g', 'r', 'e', '0'] (macText Sample.packet.mac), dropRule], by decide +kernel,
      List.mem_cons_self⟩
  have hst := (run_tables Sample.config Sample.leaky [.packet Sample.packet]
    (Sample.start_tables Sample.leaky)).1
  have howner := (hst.consistent.mac_iff _ _).mpr ⟨remote, tun, hin, hmac⟩
  have hnone : provisionGetTunnelByMac (run Sample.config Sample.leaky [.packet Sample.packet]
      (Sample.start Sample.leaky)) (macText Sample.packet.mac) = none := by decide +kernel
  cases hnone.symm.trans howner

end Softgre
