-- SUMMARY: The state in which the main loop starts, and the ledger invariant along every run.
import Softgre.Daemon.Calls

/-!
# Startup

`main` enters its loop after `iface_ebtables_init` succeeded and `provision_init`
ran, on a host whose kernel holds nothing of the daemon's yet.
-/

namespace Softgre

open Base

variable {cfg : SoftgredConfig} {env : Env} {host : Kernel} {s : Sys}

/-- A kernel before the daemon starts: all links are foreign, and links sit on links and
    rules lead to chains that exist. -/
structure Kernel.Pristine (host : Kernel) : Prop where
  foreign : ∀ l ∈ host.links, l.kind.owned = false
  stacked : host.Stacked
  targets : ∀ t c rules, host.chain t c = some rules → ∀ r ∈ rules, host.targetExists t r = true

/-- The state in which the main loop starts. -/
structure Started (env : Env) (host : Kernel) (s : Sys) : Prop where
  pristine : host.Pristine
  boot : ∃ errno clock, s = provisionInit
    ((ifaceEbtablesInit env).run ⟨host, [], errno, clock, false⟩).2 ∧
    ((ifaceEbtablesInit env).run ⟨host, [], errno, clock, false⟩).1 = .ok

/-! ## Creating the chains -/

def defaultCmds : List Cmd :=
  [.append .filter .softgreOut multicastRule, .append .nat .softgreIn dropRule,
   .append .filter .softgreOut dropRule]

def initCmds : List Cmd := [.newChain .nat .softgreIn, .newChain .filter .softgreOut] ++ defaultCmds

/-- `w'` is reached from `w` by firewall commands that leave the links alone. -/
def World.OnlyChains (w w' : World) : Prop :=
  w'.kernel.links = w.kernel.links ∧ w.Only (fun ev => ev.kernel.links = w.kernel.links) w'

theorem World.OnlyChains.refl (w : World) : w.OnlyChains w := ⟨rfl, World.Only.refl w⟩

theorem World.OnlyChains.trans {w w₁ w' : World} (h : w.OnlyChains w₁) (h' : w₁.OnlyChains w') :
    w.OnlyChains w' :=
  ⟨h'.1.trans h.1, h.2.trans (h'.2.mono fun _ hev => hev.trans h.1)⟩

theorem World.OnlyChains.record {w : World} {ev : Event} (h : ev.kernel.links = w.kernel.links) :
    w.OnlyChains (w.record ev) :=
  ⟨h, World.Only.record h⟩

theorem execAll_chains (env : Env) {cmds : List Cmd} (hcmds : ∀ c ∈ cmds, c.edits.isSome = true) :
    ∀ w : World, wp (execAll env cmds) (fun ret w' => w.OnlyChains w' ∧
      w'.initialized = w.initialized ∧
      (ret = .ok → w.kernel.applyAll cmds = some w'.kernel)) w := by
  induction cmds with
  | nil => exact fun w => ⟨World.OnlyChains.refl w, rfl, fun _ => rfl⟩
  | cons cmd rest ih =>
    intro w
    obtain ⟨hcmd, hrest⟩ := List.forall_mem_cons.mp hcmds
    rw [execAll, wp_bind]
    refine wp_mono (perform_spec env none cmd w) fun ret w₁ hperform => ?_
    obtain ⟨ev, hw, -, h⟩ := hperform
    subst hw
    rcases h with ⟨rfl, -, hdone⟩ | ⟨rfl, -, hrefused, -⟩
    · refine wp_mono (ih hrest _) fun ret w' hw' => ?_
      obtain ⟨hchains, hinit, hret⟩ := hw'
      refine ⟨?_, hinit, fun hok => ?_⟩
      · exact (World.OnlyChains.record (hdone.links hcmd)).trans hchains
      · rw [Kernel.applyAll, hdone.apply]
        exact hret hok
    · refine ⟨World.OnlyChains.record (congrArg Kernel.links hrefused.kernel), rfl, fun h => ?_⟩
      cases h

theorem chainDefaults_eq (env : Env) : chainDefaults env = execAll env defaultCmds := by
  simp only [chainDefaults]
  rw [← execAll_singleton env (.append .filter .softgreOut dropRule)]
  rfl

/-- When initialisation succeeds, all its commands took effect. -/
theorem ifaceEbtablesInit_spec (env : Env) (w : World) :
    wp (ifaceEbtablesInit env) (fun ret w' => ret = .ok → w.OnlyChains w' ∧
      w'.initialized = true ∧ w.kernel.applyAll initCmds = some w'.kernel) w := by
  rw [ifaceEbtablesInit, wp_bind]
  refine wp_mono (perform_spec env none _ w) fun ret w₁ ⟨ev, hw, _, h⟩ => ?_
  subst hw
  rcases h with ⟨rfl, -, hdone⟩ | ⟨rfl, -, -, -⟩
  swap
  · exact nofun
  rw [wp_bind]
  refine wp_mono (perform_spec env none _ _) fun ret w₂ ⟨ev', hw, _, h⟩ => ?_
  subst hw
  rcases h with ⟨rfl, -, hdone'⟩ | ⟨rfl, -, -, -⟩
  swap
  · exact nofun
  have hboth := (World.OnlyChains.record (w := w) (hdone.links rfl)).trans
    (World.OnlyChains.record (hdone'.links rfl))
  simp only [wp_bind, wp_modify, chainDefaults_eq]
  refine wp_mono (execAll_chains env (by decide) _) fun ret w₃ ⟨hchains, hinit, hret⟩ => ?_
  cases ret with
  | fail => exact nofun
  | ok =>
    refine fun _ => ⟨hboth.trans hchains, hinit, ?_⟩
    rw [initCmds, List.cons_append, Kernel.applyAll, hdone.apply, Option.bind_some, List.cons_append,
      Kernel.applyAll, show ev.kernel.apply _ = some ev'.kernel from hdone'.apply]
    exact hret rfl

/-- What initialisation makes of the chains. -/
theorem Kernel.chains_of_init {k k' : Kernel} (h : k.applyAll initCmds = some k') :
    k.chain .nat .softgreIn = none ∧ k.chain .filter .softgreOut = none ∧ k'.Defaults ∧
      ∀ t c, c.builtin = true → k'.chain t c = k.chain t c := by
  simp only [initCmds, defaultCmds, List.cons_append, List.nil_append, applyAll,
    Option.bind_eq_some_iff, Option.some.injEq, apply_newChain_iff, apply_append_iff] at h
  obtain ⟨_, ⟨hin, rfl⟩, _, ⟨hout, rfl⟩, _, ⟨-, out₁, hout₁, rfl⟩, _, ⟨-, in₁, hin₁, rfl⟩, _,
    ⟨-, out₂, hout₂, rfl⟩, rfl⟩ := h
  simp only [chain_setChain, reduceCtorEq, and_self, if_true, if_false, Option.some.injEq]
    at hout hout₁ hin₁ hout₂
  subst hout₁ hin₁ hout₂
  refine ⟨hin, hout, ⟨rfl, rfl⟩, fun t c hc => ?_⟩
  have hne : ∀ {t' c'}, c'.builtin = false → ¬ (t = t' ∧ c = c') := by
    rintro t' c' hc' ⟨-, rfl⟩
    rw [hc] at hc'
    cases hc'
  simp only [chain_setChain, if_neg (hne (show Chain.softgreIn.builtin = false from rfl)),
    if_neg (hne (show Chain.softgreOut.builtin = false from rfl))]

/-! ## The invariant holds at the start and along every run -/

theorem Kernel.failClosed_of_foreign {k : Kernel} (h : ∀ l ∈ k.links, l.kind.owned = false) :
    k.FailClosed := by
  intro l hl name vid hkind
  have howned := h l hl
  rw [hkind] at howned
  cases howned

theorem LinksInv.of_foreign {st : Store} {k : Kernel} (h : ∀ l ∈ k.links, l.kind.owned = false)
    (hempty : ∀ p, st.heap p = none) : LinksInv cfg st k := by
  have hvlan : ∀ {l name vid}, l ∈ k.links → l.kind = .vlan name vid → False := by
    intro l name vid hl hkind
    have howned := h l hl
    rw [hkind] at howned
    cases howned
  refine ⟨fun {l} hl hkind => ?_, fun hl hk => (hvlan hl hk).elim, fun hl hk => (hvlan hl hk).elim,
    fun hl hk => (hvlan hl hk).elim, fun _ ht => ?_⟩
  · have howned := h l hl
    cases hk : l.kind with
    | gretap => rw [hk] at howned; cases howned
    | vlan | foreign => rw [hk] at hkind; cases hkind
  · cases (hempty _).symm.trans ht

theorem abs_provisionInit (w : World) : (provisionInit w).abs =
    ⟨⟨fun _ => none, fun _ => none, fun _ => none, fun _ => false, 0⟩, false, w⟩ := by
  simp only [Sys.abs, provisionInit, Hashmap.lookup_new]
  rfl

theorem provisionInit_tables (cfg : SoftgredConfig) (w : World) :
    (provisionInit w).abs.store.Inv cfg := by
  rw [abs_provisionInit]
  exact Store.Inv.clear (provisionInit w).abs.store

theorem provisionInit_idle (w : World) : (provisionInit w).abs.Idle := by
  rw [abs_provisionInit]
  exact fun _ _ _ h => nomatch h

theorem Started.inv (cfg : SoftgredConfig) (h : Started env host s) :
    s.abs.Inv cfg host := by
  obtain ⟨errno, clock, rfl, hok⟩ := h.boot
  obtain ⟨⟨hlinks, evs, htrace, hevs⟩, -, happly⟩ := ifaceEbtablesInit_spec env _ hok
  obtain ⟨-, -, hdefaults, hbuiltin⟩ := Kernel.chains_of_init happly
  have htables := provisionInit_tables cfg
    ((ifaceEbtablesInit env).run ⟨host, [], errno, clock, false⟩).2
  have hidle := provisionInit_idle ((ifaceEbtablesInit env).run ⟨host, [], errno, clock, false⟩).2
  rw [abs_provisionInit] at htables hidle ⊢
  have hforeign := h.pristine.foreign
  refine
    { tables := htables
      idle := hidle
      jumps := fun t c hc => ⟨[], ?_, fun _ => rfl, List.nodup_nil, fun r => ⟨nofun, ?_⟩⟩
      links := fun _ => LinksInv.of_foreign (fun l hl => hforeign l (hlinks ▸ hl)) fun _ => rfl
      chains := ⟨?_, ?_, .inl ⟨⟨[], ?_⟩, ⟨[], ?_⟩⟩⟩
      closed := fun _ ev hev => ?_ }
  · have hsame := hbuiltin t c hc
    show (_ : World).kernel.chain t c = _
    rw [hsame]
    cases host.chain t c <;> rfl
  · rintro ⟨_, _, _, _, _, _, ⟨_, _, hheap, _⟩, _⟩
    cases hheap
  · exact (congrArg Option.isSome hdefaults.1)
  · exact (congrArg Option.isSome hdefaults.2)
  · exact hdefaults.1
  · exact hdefaults.2
  · rw [htrace, List.append_nil] at hev
    refine Kernel.failClosed_of_foreign fun l hl => hforeign l ?_
    rw [← hevs ev hev]
    exact hl

theorem Started.initialized (h : Started env host s) : s.world.initialized = true := by
  obtain ⟨errno, clock, rfl, hok⟩ := h.boot
  exact (ifaceEbtablesInit_spec env _ hok).2.1

variable (cfg env) in
theorem run_inv (calls : List Call) (h : s.abs.Inv cfg host) :
    (run cfg env calls s).abs.Inv cfg host :=
  run_invariant (P := fun _ => True) (I := fun s => s.abs.Inv cfg host)
    (fun call _ _ hs => Core.Inv.trail (exec_trail cfg env call hs.tables hs.idle) hs)
    (fun _ _ => trivial) h

/-! ## A small host -/

namespace Sample

/-- One bridge, VLAN 100. -/
def config : SoftgredConfig where
  ifname := ['e', 't', 'h', '0']
  tunnelPrefix := ['g', 'r', 'e']
  bridge := [⟨['b', 'r', '0'], 100⟩]
  allow := []
  localAddr := InAddr.ofBytes 10 0 0 1
  ifname_valid := by decide
  prefix_valid := by decide
  prefix_length := by decide
  bridge_pos := by decide
  bridge_le := by decide
  bridge_valid := by decide
  bridge_distinct := by decide
  allow_le := by decide

def kernel : Kernel where
  links := [⟨['e', 't', 'h', '0'], .foreign [], none⟩, ⟨['b', 'r', '0'], .foreign [], none⟩]
  chain
    | .filter, .forward => some [⟨none, none, .foreign 0⟩]
    | _, .softgreIn | _, .softgreOut => none
    | _, _ => some []

/-- Carries out every command at once. -/
def obliging : Env := fun _ _ => ⟨true, none, 0⟩

def start (env : Env) : Sys :=
  provisionInit ((ifaceEbtablesInit env).run ⟨kernel, [], 0, 0, false⟩).2

/-- A client behind `10.0.0.2`. -/
def packet : PayloadPacket :=
  ⟨InAddr.ofBytes 10 0 0 2, InAddr.ofBytes 10 0 0 1, #v[2, 0, 0, 0, 0, 1], 100⟩

theorem kernel_pristine : kernel.Pristine where
  foreign := by decide
  stacked := ⟨by decide, by decide⟩
  targets t c rules h r hr := by
    cases t <;> cases c <;> cases h <;> simp at hr
    subst hr
    rfl

theorem started {env : Env} (h : ((ifaceEbtablesInit env).run ⟨kernel, [], 0, 0, false⟩).1 = .ok) :
    Started env kernel (start env) :=
  ⟨kernel_pristine, 0, 0, rfl, h⟩

theorem start_tables (env : Env) : (start env).Tables config :=
  ⟨provisionInit_tables _ _, provisionInit_idle _⟩

end Sample

end Softgre
