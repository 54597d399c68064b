-- SUMMARY: The jumps in the built-in chains are exactly the set bits of the tracked hook words.
import Softgre.Ledger.Links

/-!
# Jumps are accounted for

A built-in chain is the chain the host had before, with one jump in front for
every hook bit that is set. Nothing else the daemon does touches these chains.
-/

namespace Softgre

open Base

variable {cfg : SoftgredConfig} {host : Kernel} {st st' : Store} {k k' : Kernel}

def Chain.builtin : Chain → Bool
  | .softgreIn | .softgreOut => false
  | _ => true

/-- The tracked tunnel `name` has bit `i` of its hook word set. -/
def Store.Installed (st : Store) (name : CStr) (i : Nat) : Prop :=
  st.Has name (·.getLsbD i = true)

/-- `r` is the jump of a set bit, in its chain. -/
def Store.Jump (st : Store) (t : EbTable) (c : Chain) (r : Rule) : Prop :=
  ∃ name i h, hooks[i]? = some h ∧ h.table = t ∧ h.chain = c ∧ st.Installed name i ∧
    r = h.jump name

def JumpsInv (host : Kernel) (st : Store) (k : Kernel) : Prop :=
  ∀ t c, c.builtin = true → ∃ jumps, k.chain t c = (host.chain t c).map (jumps ++ ·) ∧
    (k.chain t c = none → jumps = []) ∧ jumps.Nodup ∧ ∀ r, r ∈ jumps ↔ st.Jump t c r

theorem builtin_of_hooks {i : Nat} {h : Hook} (hi : hooks[i]? = some h) :
    h.chain.builtin = true := by
  have hmem := List.mem_of_getElem? hi
  simp only [hooks, List.mem_cons, List.not_mem_nil, or_false] at hmem
  rcases hmem with rfl | rfl | rfl <;> rfl

/-- Different hooks lead out of different chains. -/
theorem hook_inj {i j : Nat} {h h' : Hook} (hi : hooks[i]? = some h) (hj : hooks[j]? = some h')
    (hchain : h.chain = h'.chain) : i = j := by
  have hi3 := lt_of_hooks hi
  have hj3 := lt_of_hooks hj
  interval_cases i <;> interval_cases j <;> cases hi <;> cases hj <;> first | rfl | cases hchain

/-- Jumps of one hook determine the tunnel. -/
theorem Store.Has.jump_inj (hst : st.Inv cfg) {name name' : CStr} {P Q : BitVec 32 → Prop} {h : Hook}
    (hname : st.Has name P) (hname' : st.Has name' Q) (heq : h.jump name = h.jump name') :
    name = name' := by
  obtain ⟨p, t, ht, rfl, -⟩ := hname
  obtain ⟨q, u, hu, rfl, -⟩ := hname'
  have hpat : vlanPattern t.ifgre = vlanPattern u.ifgre := by
    simp only [Hook.jump, Rule.mk.injEq, Option.some.injEq, Prod.mk.injEq] at heq
    exact heq.1.2
  rw [hst.ifgre_eq ht, hst.ifgre_eq hu] at hpat ⊢
  exact vlanPattern_tunnelName_injective cfg (hst.id_lt ht) (hst.id_lt hu) hpat

/-! ## What a step does to the set bits -/

theorem Store.installed_write_iff (hst : st.Inv cfg) {p : Ptr} {t u : Tunnel}
    (hp : st.heap p = some t) (hifgre : u.ifgre = t.ifgre) {name : CStr} {i : Nat} :
    (st.write p u).Installed name i ↔
      (name = t.ifgre ∧ u.hooks.getLsbD i = true) ∨ (name ≠ t.ifgre ∧ st.Installed name i) := by
  constructor
  · rintro ⟨q, v, hv, rfl, hbit⟩
    rcases heap_write_cases hv with ⟨rfl, rfl⟩ | ⟨hq, hv⟩
    · exact .inl ⟨hifgre, hbit⟩
    · exact .inr ⟨fun heq => hq (hst.ifgre_inj hv hp heq), q, v, hv, rfl, hbit⟩
  · rintro (⟨rfl, hbit⟩ | ⟨hne, q, v, hv, rfl, hbit⟩)
    · exact ⟨p, u, by rw [heap_write, if_pos rfl], hifgre, hbit⟩
    · refine ⟨q, v, ?_, rfl, hbit⟩
      rw [heap_write, if_neg, hv]
      rintro rfl
      cases hp.symm.trans hv
      exact hne rfl

/-- The bits of a tracked tunnel are read off its record. -/
theorem Store.installed_iff (hst : st.Inv cfg) {p : Ptr} {t : Tunnel} (hp : st.heap p = some t)
    {i : Nat} : st.Installed t.ifgre i ↔ t.hooks.getLsbD i = true := by
  refine ⟨?_, fun hbit => ⟨p, t, hp, rfl, hbit⟩⟩
  rintro ⟨q, v, hv, hname, hbit⟩
  cases hst.ifgre_inj hv hp hname
  cases hv.symm.trans hp
  exact hbit

theorem Store.installed_write_same (hst : st.Inv cfg) {p : Ptr} {t u : Tunnel}
    (hp : st.heap p = some t) (hifgre : u.ifgre = t.ifgre) (hhooks : u.hooks = t.hooks)
    {name : CStr} {i : Nat} : (st.write p u).Installed name i ↔ st.Installed name i := by
  rw [installed_write_iff hst hp hifgre, hhooks]
  by_cases hname : name = t.ifgre
  · subst hname
    simp [installed_iff hst hp]
  · simp [hname]

theorem Store.installed_track (hnext : st.heap st.next = none) {t : Tunnel} (hhooks : t.hooks = 0)
    {name : CStr} {i : Nat} : (st.track t).Installed name i ↔ st.Installed name i := by
  refine ⟨?_, fun h => h.track hnext⟩
  rintro ⟨q, v, hv, hname, hbit⟩
  rcases (heap_track_iff hnext).mp hv with ⟨-, rfl⟩ | hv
  · rw [hhooks] at hbit
    simp at hbit
  · exact ⟨q, v, hv, hname, hbit⟩

theorem Store.installed_untrack {p : Ptr} {t : Tunnel} (hp : st.heap p = some t)
    (hhooks : t.hooks = 0) {name : CStr} {i : Nat} :
    (st.untrack p t).Installed name i ↔ st.Installed name i := by
  constructor
  · rintro ⟨q, v, hv, hname, hbit⟩
    exact ⟨q, v, (heap_untrack_iff.mp hv).2, hname, hbit⟩
  · rintro ⟨q, v, hv, hname, hbit⟩
    refine ⟨q, v, heap_untrack_iff.mpr ⟨?_, hv⟩, hname, hbit⟩
    rintro rfl
    cases hp.symm.trans hv
    rw [hhooks] at hbit
    simp at hbit

theorem Store.installed_hook (hst : st.Inv cfg) {p : Ptr} {t : Tunnel} (hp : st.heap p = some t)
    {i : Nat} (hi : i < 32) {name : CStr} {j : Nat} :
    (st.write p { t with hooks := t.hooks ||| bit i }).Installed name j ↔
      st.Installed name j ∨ (name = t.ifgre ∧ j = i) := by
  rw [installed_write_iff (u := { t with hooks := t.hooks ||| bit i }) hst hp rfl,
    getLsbD_or_bit _ hi]
  by_cases hname : name = t.ifgre
  · subst hname
    simp [installed_iff hst hp, @eq_comm _ j i]
  · simp [hname]

theorem Store.installed_unhook (hst : st.Inv cfg) {p : Ptr} {t : Tunnel} (hp : st.heap p = some t)
    {i : Nat} (hi : i < 32) {name : CStr} {j : Nat} (hj : j < 32) :
    (st.write p { t with hooks := t.hooks &&& ~~~ bit i }).Installed name j ↔
      st.Installed name j ∧ ¬ (name = t.ifgre ∧ j = i) := by
  rw [installed_write_iff (u := { t with hooks := t.hooks &&& ~~~ bit i }) hst hp rfl,
    getLsbD_and_not_bit _ hi hj]
  by_cases hname : name = t.ifgre
  · subst hname
    simp [installed_iff hst hp, @eq_comm _ j i]
  · simp [hname]

/-! ## Preservation -/

namespace JumpsInv

theorem store (h : JumpsInv host st k)
    (hsame : ∀ {name i}, st'.Installed name i ↔ st.Installed name i) : JumpsInv host st' k := by
  intro t c hc
  obtain ⟨jumps, hchain, hnone, hnodup, hmem⟩ := h t c hc
  refine ⟨jumps, hchain, hnone, hnodup, fun r => (hmem r).trans ?_⟩
  simp only [Store.Jump, hsame]

theorem congr (h : JumpsInv host st k)
    (hchains : ∀ {t c}, c.builtin = true → k'.chain t c = k.chain t c) : JumpsInv host st k' := by
  intro t c hc
  obtain ⟨jumps, hchain, hnone, hrest⟩ := h t c hc
  exact ⟨jumps, (hchains hc).trans hchain, hchains hc ▸ hnone, hrest⟩

/-- A command on one of the daemon's own chains leaves the built-in ones alone. -/
theorem done (h : JumpsInv host st k) {ev : Event} {cmd : Cmd} (hev : ev.Done k cmd)
    (hedits : ∀ {t c}, cmd.edits = some (t, c) → c.builtin = false) : JumpsInv host st ev.kernel := by
  refine h.congr fun hc => hev.chain fun heq => ?_
  rw [hedits heq] at hc
  cases hc

theorem hook (h : JumpsInv host st k) (hst : st.Inv cfg) {p : Ptr} {t : Tunnel}
    (hp : st.heap p = some t) {i : Nat} {hook : Hook} (hi : hooks[i]? = some hook)
    (hbit : t.hooks.getLsbD i = false) {ev : Event}
    (hev : ev.Done k (.insert hook.table hook.chain (hook.jump t.ifgre))) :
    JumpsInv host (st.write p { t with hooks := t.hooks ||| bit i }) ev.kernel := by
  have hi32 : i < 32 := Nat.lt_of_lt_of_le (lt_of_hooks hi) (by decide)
  intro tb c hc
  obtain ⟨jumps, hchain, hnone, hnodup, hmem⟩ := h tb c hc
  by_cases hhere : hook.table = tb ∧ hook.chain = c
  · obtain ⟨rfl, rfl⟩ := hhere
    obtain ⟨-, rules, hrules, hk⟩ := Kernel.apply_insert_iff.mp hev.apply
    refine ⟨hook.jump t.ifgre :: jumps, ?_, by simp [hk], List.nodup_cons.mpr ⟨?_, hnodup⟩, fun r => ?_⟩
    · rw [hk, Kernel.chain_setChain_self]
      rw [hrules] at hchain
      obtain ⟨base, hbase, rfl⟩ := Option.map_eq_some_iff.mp hchain.symm
      rw [hbase]
      rfl
    · -- the bit was not set, so the jump is not there yet
      rw [hmem]
      rintro ⟨name, j, h', hj, htable, hchain', hinst, heq⟩
      cases hook_inj hi hj hchain'.symm
      cases hi.symm.trans hj
      have hself : st.Has t.ifgre fun _ => True := ⟨p, t, hp, rfl, trivial⟩
      cases hself.jump_inj hst hinst heq
      have := (Store.installed_iff hst hp).mp hinst
      rw [hbit] at this
      cases this
    · rw [List.mem_cons, hmem]
      constructor
      · rintro (rfl | ⟨name, j, h', hj, htable, hchain', hinst, rfl⟩)
        · refine ⟨_, i, hook, hi, rfl, rfl, ?_, rfl⟩
          exact (Store.installed_hook hst hp hi32).mpr (.inr ⟨rfl, rfl⟩)
        · refine ⟨name, j, h', hj, htable, hchain', ?_, rfl⟩
          exact (Store.installed_hook hst hp hi32).mpr (.inl hinst)
      · rintro ⟨name, j, h', hj, htable, hchain', hinst, rfl⟩
        rcases (Store.installed_hook hst hp hi32).mp hinst with hinst | ⟨rfl, rfl⟩
        · exact .inr ⟨name, j, h', hj, htable, hchain', hinst, rfl⟩
        · cases hi.symm.trans hj
          exact .inl rfl
  · have hsame : ev.kernel.chain tb c = k.chain tb c := hev.chain fun heq => by
      cases heq
      exact hhere ⟨rfl, rfl⟩
    refine ⟨jumps, hsame.trans hchain, hsame ▸ hnone, hnodup, fun r => (hmem r).trans ?_⟩
    · -- the new bit belongs to another chain
      simp only [Store.Jump, Store.installed_hook hst hp hi32]
      refine exists_congr fun name => exists_congr fun j => exists_congr fun h' => ?_
      constructor
      · rintro ⟨hj, htable, hchain', hinst, rfl⟩
        exact ⟨hj, htable, hchain', .inl hinst, rfl⟩
      · rintro ⟨hj, htable, hchain', hinst | ⟨rfl, rfl⟩, rfl⟩
        · exact ⟨hj, htable, hchain', hinst, rfl⟩
        · cases hi.symm.trans hj
          exact absurd ⟨htable, hchain'⟩ hhere

theorem unhook (h : JumpsInv host st k) (hst : st.Inv cfg) {p : Ptr} {t : Tunnel}
    (hp : st.heap p = some t) {i : Nat} {hook : Hook} (hi : hooks[i]? = some hook)
    (hbit : t.hooks.getLsbD i = true) {ev : Event}
    (hev : ev.Done k (.delete hook.table hook.chain (hook.jump t.ifgre))) :
    JumpsInv host (st.write p { t with hooks := t.hooks &&& ~~~ bit i }) ev.kernel := by
  have h32 : ∀ {j h'}, hooks[j]? = some h' → j < 32 := fun hj =>
    Nat.lt_of_lt_of_le (lt_of_hooks hj) (by decide)
  have hinst : st.Installed t.ifgre i := (Store.installed_iff hst hp).mpr hbit
  intro tb c hc
  obtain ⟨jumps, hchain, hnone, hnodup, hmem⟩ := h tb c hc
  by_cases hhere : hook.table = tb ∧ hook.chain = c
  · obtain ⟨rfl, rfl⟩ := hhere
    obtain ⟨rules, hrules, -, hk⟩ := Kernel.apply_delete_iff.mp hev.apply
    have hjump : hook.jump t.ifgre ∈ jumps := (hmem _).mpr ⟨_, i, hook, hi, rfl, rfl, hinst, rfl⟩
    refine ⟨jumps.erase (hook.jump t.ifgre), ?_, by simp [hk], hnodup.erase _, fun r => ?_⟩
    · rw [hk, Kernel.chain_setChain_self]
      rw [hrules] at hchain
      obtain ⟨base, hbase, rfl⟩ := Option.map_eq_some_iff.mp hchain.symm
      rw [hbase, List.erase_append_left _ hjump]
      rfl
    · rw [hnodup.mem_erase_iff, hmem]
      constructor
      · rintro ⟨hne, name, j, h', hj, htable, hchain', hold, rfl⟩
        refine ⟨name, j, h', hj, htable, hchain', ?_, rfl⟩
        refine (Store.installed_unhook hst hp (h32 hi) (h32 hj)).mpr ⟨hold, ?_⟩
        rintro ⟨rfl, rfl⟩
        cases hi.symm.trans hj
        exact hne rfl
      · rintro ⟨name, j, h', hj, htable, hchain', hnew, rfl⟩
        obtain ⟨hold, hne⟩ := (Store.installed_unhook hst hp (h32 hi) (h32 hj)).mp hnew
        refine ⟨fun heq => hne ?_, name, j, h', hj, htable, hchain', hold, rfl⟩
        cases hook_inj hj hi hchain'
        cases hi.symm.trans hj
        exact ⟨Store.Has.jump_inj hst hold hinst heq, rfl⟩
  · have hsame : ev.kernel.chain tb c = k.chain tb c := hev.chain fun heq => by
      cases heq
      exact hhere ⟨rfl, rfl⟩
    refine ⟨jumps, hsame.trans hchain, hsame ▸ hnone, hnodup, fun r => (hmem r).trans ?_⟩
    · constructor
      · rintro ⟨name, j, h', hj, htable, hchain', hold, rfl⟩
        refine ⟨name, j, h', hj, htable, hchain', ?_, rfl⟩
        refine (Store.installed_unhook hst hp (h32 hi) (h32 hj)).mpr ⟨hold, ?_⟩
        rintro ⟨rfl, rfl⟩
        cases hi.symm.trans hj
        exact hhere ⟨htable, hchain'⟩
      · rintro ⟨name, j, h', hj, htable, hchain', hnew, rfl⟩
        obtain ⟨hold, -⟩ := (Store.installed_unhook hst hp (h32 hi) (h32 hj)).mp hnew
        exact ⟨name, j, h', hj, htable, hchain', hold, rfl⟩

/-- The jump of a set bit is in its chain. -/
theorem mem_chain (h : JumpsInv host st k) {name : CStr} {i : Nat} {hook : Hook}
    (hi : hooks[i]? = some hook) (hinst : st.Installed name i) :
    ∃ rules, k.chain hook.table hook.chain = some rules ∧ hook.jump name ∈ rules := by
  obtain ⟨jumps, hchain, hnone, -, hmem⟩ := h _ _ (builtin_of_hooks hi)
  have hjump : hook.jump name ∈ jumps := (hmem _).mpr ⟨name, i, hook, hi, rfl, rfl, hinst, rfl⟩
  cases hrules : k.chain hook.table hook.chain with
  | none =>
    rw [hnone hrules] at hjump
    cases hjump
  | some rules =>
    rw [hrules] at hchain
    obtain ⟨base, -, rfl⟩ := Option.map_eq_some_iff.mp hchain.symm
    exact ⟨_, rfl, List.mem_append_left _ hjump⟩

end JumpsInv

theorem Step.jumps {l : Label} {c c' : Core} (h : Step cfg l c c') (hst : c.store.Inv cfg)
    (hinv : JumpsInv host c.store c.kernel) : JumpsInv host c'.store c'.kernel := by
  have hnext := hst.fresh (Nat.le_refl _)
  cases h with
  | errno | full | wait | pend => exact hinv
  | refused hev =>
    rw [Core.kernel_record, hev.kernel]
    exact hinv
  | skip => exact hinv.store Iff.rfl
  | track _ _ _ _ hev =>
    exact (hinv.done hev nofun).store (Store.installed_track hnext rfl)
  | hook _ hp hi hbit hev => exact hinv.hook hst hp hi hbit hev
  | vlan _ _ _ _ hev => exact hinv.done hev nofun
  | master _ _ _ hev => exact hinv.done hev nofun
  | @ready c p t _ hp =>
    exact hinv.store (Store.installed_write_same (u := { t with ready := true }) hst hp rfl rfl)
  | @learn c evIn evOut p t mac hp _ _ _ hin hout =>
    refine ((hinv.done hin ?_).done hout ?_).store ?_
    · rintro _ _ ⟨⟩; rfl
    · rintro _ _ ⟨⟩; rfl
    · exact Store.installed_write_same (u := { t with macs := insert mac t.macs }) hst hp rfl rfl
  | undone hp hin hout hundo =>
    refine (hinv.done hin ?_).done hundo ?_
    · rintro _ _ ⟨⟩; rfl
    · rintro _ _ ⟨⟩; rfl
  | leak hp hin hout hundo =>
    rw [Core.kernel_record, hundo.kernel]
    refine hinv.done hin ?_
    rintro _ _ ⟨⟩; rfl
  | unlink hp hev => exact hinv.done hev nofun
  | unhook hp hi hbit _ hev => exact hinv.unhook hst hp hi hbit hev
  | revoke hp hm hcmd hev =>
    refine hinv.done hev ?_
    rcases hcmd with rfl | rfl <;> rintro _ _ ⟨⟩ <;> rfl
  | @unlearn c p t mac hp hm =>
    exact hinv.store
      (Store.installed_write_same (u := { t with macs := t.macs.erase mac }) hst hp rfl rfl)
  | untrack hp _ hhooks => exact hinv.store (Store.installed_untrack hp hhooks)
  | @unready c p t _ hp =>
    exact hinv.store (Store.installed_write_same (u := { t with ready := false }) hst hp rfl rfl)
  | reset _ _ hcmd hev =>
    refine hinv.done hev fun heq => ?_
    rcases edits_of_mem_resetCmds hcmd with hedits | hedits <;> rw [hedits] at heq <;> cases heq <;> rfl
  | clear _ hgone =>
    refine hinv.store ⟨?_, ?_⟩
    · rintro ⟨_, _, hv, -⟩
      cases hv
    · rintro ⟨q, v, hv, -, hbit⟩
      rw [(hgone q v hv).2] at hbit
      simp at hbit

end Softgre
