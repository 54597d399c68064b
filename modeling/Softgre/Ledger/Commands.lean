-- SUMMARY: The loops of the interface functions as trails of ledger steps.
import Softgre.Ledger.Invariant
import Softgre.Provision.Program

/-!
# Command sequences as trails

The interface functions know nothing of the tables. Run next to the record of a
tunnel they are trails of the ledger, with the hook word they return written back
into the record.
-/

namespace Softgre

open Base

variable {cfg : SoftgredConfig} {host : Kernel} {c : Core} {p : Ptr} {t : Tunnel}

/-- The labels of steps that no claim has to count. -/
def Quiet (l : Label) : Prop := l = .internal

theorem Store.write_self {st : Store} (h : st.heap p = some t) : st.write p t = st := by
  rw [Store.write, ← h, Function.update_eq_self]

theorem Store.write_write (st : Store) (p : Ptr) (t u : Tunnel) :
    (st.write p t).write p u = st.write p u := by
  simp only [Store.write, Function.update_idem]

theorem Store.heap_write_self (st : Store) (p : Ptr) (t : Tunnel) :
    (st.write p t).heap p = some t := by
  rw [Store.heap_write, if_pos rfl]

/-- `c` with the hook word of `t` replaced, after some commands. -/
def Core.withHooks (c : Core) (p : Ptr) (t : Tunnel) (x : BitVec 32) (w : World) : Core :=
  ⟨c.store.write p { t with hooks := x }, c.pending, w⟩

theorem Core.withHooks_self (hp : c.store.heap p = some t) :
    c.withHooks p t t.hooks c.world = c := by
  rw [withHooks, Store.write_self hp]

/-- A refused command can be blamed when the ledger says that it should work. -/
theorem Core.Blames.refused {ev : Event} (hev : ev.Refused c.kernel)
    (happly : c.Inv cfg host → ∃ k, c.kernel.apply ev.cmd = some k) :
    c.Blames cfg host (c.world.record ev) := by
  refine ⟨ev, World.New.record _ _, hev.ok, fun hinv => ?_⟩
  obtain ⟨k, hk⟩ := happly hinv
  exact hev.unwilling hk

/-! ## Hooks -/

variable (cfg : SoftgredConfig) (host : Kernel) (env : Env)

/-- What deleting the jumps from number `i` on does to a hook word: bits that are
    still set then can be blamed on a refused command. -/
theorem delHooks_spec (hs : List Hook) : ∀ {i : Nat} {c : Core} {t : Tunnel}, hooks.drop i = hs →
    c.store.heap p = some t → c.Gone t →
    wp (delHooks env t.ifgre hs i t.hooks) (fun x w =>
      Trail (Step cfg) Quiet c (c.withHooks p t x w) ∧
      w.kernel.links = c.kernel.links ∧ (∀ j < i, x.getLsbD j = t.hooks.getLsbD j) ∧
      ∀ j, i ≤ j → j < 3 → x.getLsbD j = true → c.Blames cfg host w) c.world := by
  induction hs with
  | nil =>
    intro i c t hdrop hp hgone
    have hlen := List.drop_eq_nil_iff.mp hdrop
    refine ⟨Trail.of_eq (Core.withHooks_self hp).symm, rfl, fun _ _ => rfl, fun j hij hj => ?_⟩
    exact absurd (Nat.lt_of_lt_of_le hj hlen) (Nat.not_lt_of_le hij)
  | cons h rest ih =>
    intro i c t hdrop hp hgone
    have hi : hooks[i]? = some h := by
      rw [← List.head?_drop, hdrop]
      rfl
    have hrest : hooks.drop (i + 1) = rest := by
      rw [← List.tail_drop, hdrop]
      rfl
    have hlt : i < 32 := Nat.lt_of_lt_of_le (lt_of_hooks hi) (by decide)
    rw [delHooks]
    refine wp_ite (fun hset => ?_) (fun hset => ?_)
    · have hbit : t.hooks.getLsbD i = true := (and_bit_ne_zero_iff hlt).mp hset
      rw [wp_bind]
      refine wp_mono (perform_spec env none _ c.world) fun ret w ⟨ev, hw, hcmd, hout⟩ => ?_
      subst hw
      rcases hout with ⟨rfl, -, hdone⟩ | ⟨rfl, -, hrefused, -⟩
      · have hlinks := hdone.links rfl
        refine wp_mono (ih (c := (c.record ev).withStore (c.store.write p
          { t with hooks := t.hooks &&& ~~~ bit i })) (t := { t with hooks := t.hooks &&& ~~~ bit i })
          hrest (Store.heap_write_self _ _ _) ?_) fun x w' ⟨htrail, hsame, hlow, hhigh⟩ => ?_
        · exact hgone.of_suffix (List.suffix_cons _ _) hlinks rfl
        · have hstep : Step cfg .internal c _ := Step.unhook hp hi hbit hgone hdone
          have htrail' := (Trail.single (P := Quiet) rfl hstep).trans htrail
          rw [Core.withHooks, Core.store_withStore, Store.write_write] at htrail'
          refine ⟨htrail', hsame.trans hlinks, fun j hj => ?_, fun j hij hj hx => ?_⟩
          · rw [hlow j (by omega), getLsbD_and_not_bit _ hlt (by omega), decide_eq_false (by omega)]
            simp
          · by_cases hji : j = i
            · subst hji
              rw [hlow j (by omega), getLsbD_and_not_bit _ hlt hlt] at hx
              simp at hx
            · exact (hhigh j (by omega) hj hx).of_trail (Trail.single (P := Quiet) rfl hstep)
      · refine wp_mono (ih (c := c.record ev) hrest hp ?_) fun x w' ⟨htrail, hsame, hlow, hhigh⟩ => ?_
        · exact hgone.of_suffix (List.suffix_cons _ _) (congrArg Kernel.links hrefused.kernel) rfl
        · have hstep : Step cfg .internal c _ := Step.refused hrefused
          refine ⟨(Trail.single (P := Quiet) rfl hstep).trans htrail, ?_, fun j hj => ?_,
            fun j hij hj hx => ?_⟩
          · exact hsame.trans (congrArg Kernel.links hrefused.kernel)
          · exact hlow j (by omega)
          · by_cases hji : j = i
            · subst hji
              refine (Core.Blames.refused hrefused fun hinv => ?_).extend (Core.trail_suffix htrail)
              obtain ⟨rules, hrules, hmem⟩ := hinv.jumps.mem_chain hi ⟨p, t, hp, rfl, hbit⟩
              exact ⟨_, hcmd ▸ Kernel.apply_delete_iff.mpr ⟨rules, hrules, hmem, rfl⟩⟩
            · exact (hhigh j (by omega) hj hx).of_trail (Trail.single (P := Quiet) rfl hstep)
    · refine wp_mono (ih hrest hp hgone) fun x w' ⟨htrail, hsame, hlow, hhigh⟩ => ?_
      refine ⟨htrail, hsame, fun j hj => hlow j (by omega), fun j hij hj hx => ?_⟩
      by_cases hji : j = i
      · subst hji
        rw [hlow j (by omega)] at hx
        exact absurd ((and_bit_ne_zero_iff hlt).mpr hx) hset
      · exact hhigh j (by omega) hj hx

/-- A failure leaves some bit set, whose jump could not be deleted. -/
theorem ifaceEbtablesDelTunnel_spec (hst : c.store.Inv cfg) (hp : c.store.heap p = some t)
    (hgone : c.Gone t) :
    wp (ifaceEbtablesDelTunnel env t.ifgre t.hooks) (fun out w =>
      Trail (Step cfg) Quiet c (c.withHooks p t out.2 w) ∧ w.kernel.links = c.kernel.links ∧
      ((out.1 = .ok ∧ out.2 = 0) ∨ (out.1 = .fail ∧ c.Blames cfg host w))) c.world := by
  simp only [ifaceEbtablesDelTunnel, wp_bind, wp_pure]
  refine wp_mono (delHooks_spec cfg host env hooks (i := 0) rfl hp hgone)
    fun x w ⟨htrail, hlinks, _, hbits⟩ => ⟨htrail, hlinks, ?_⟩
  by_cases hx : x = 0
  · exact .inl ⟨if_neg (not_not.mpr hx), hx⟩
  · refine .inr ⟨if_pos hx, ?_⟩
    have hinv := htrail.invariant (I := fun c => c.store.Inv cfg) (fun _ _ _ _ h => h.tables) hst
    have hlt : x.toNat < 8 := hinv.hooks_lt (Store.heap_write_self _ _ _)
    by_contra hno
    refine hx (hookWord_ext hlt (by decide) fun i h hi => ?_)
    rw [show (0 : BitVec 32).getLsbD i = false by simp]
    by_contra hbit
    exact hno (hbits i (Nat.zero_le i) (lt_of_hooks hi) (Bool.of_not_eq_false hbit))

/-- Installing the jumps from number `i` on, when the earlier ones are there. -/
theorem addHooks_spec (hs : List Hook) : ∀ {i : Nat} {c : Core} {t : Tunnel}, hooks.drop i = hs →
    c.pending = false → c.store.heap p = some t → (∀ j < i, t.hooks.getLsbD j = true) →
    wp (addHooks env t.ifgre hs i t.hooks) (fun out w =>
      Trail (Step cfg) Quiet c (c.withHooks p t out.2 w) ∧
      ((out.1 = .ok ∧ ∀ j < 3, out.2.getLsbD j = true) ∨
      (out.1 = .fail ∧ c.world.Thwarts w))) c.world := by
  induction hs with
  | nil =>
    intro i c t hdrop hidle hp hlow
    have hlen := List.drop_eq_nil_iff.mp hdrop
    refine ⟨Trail.of_eq (Core.withHooks_self hp).symm, .inl ⟨rfl, fun j hj => hlow j ?_⟩⟩
    exact Nat.lt_of_lt_of_le hj hlen
  | cons h rest ih =>
    intro i c t hdrop hidle hp hlow
    have hi : hooks[i]? = some h := by
      rw [← List.head?_drop, hdrop]
      rfl
    have hrest : hooks.drop (i + 1) = rest := by
      rw [← List.tail_drop, hdrop]
      rfl
    have hlt : i < 32 := Nat.lt_of_lt_of_le (lt_of_hooks hi) (by decide)
    rw [addHooks]
    refine wp_ite (fun hset => ?_) (fun hset => ?_)
    · refine ih hrest hidle hp fun j hj => ?_
      rcases Nat.lt_succ_iff_lt_or_eq.mp hj with hj | rfl
      · exact hlow j hj
      · exact (and_bit_ne_zero_iff hlt).mp hset
    · have hbit : t.hooks.getLsbD i = false := by
        by_contra hne
        exact hset ((and_bit_ne_zero_iff hlt).mpr (Bool.of_not_eq_false hne))
      rw [wp_bind]
      refine wp_mono (perform_spec env none _ c.world) fun ret w ⟨ev, hw, hcmd, hout⟩ => ?_
      subst hw
      rcases hout with ⟨rfl, -, hdone⟩ | ⟨rfl, -, hrefused, -⟩
      · have hstep : Step cfg .internal c _ := Step.hook hidle hp hi hbit hdone
        refine wp_mono (ih (c := (c.record ev).withStore (c.store.write p
          { t with hooks := t.hooks ||| bit i })) (t := { t with hooks := t.hooks ||| bit i })
          hrest hidle (Store.heap_write_self _ _ _) ?_) fun out w' ⟨htrail, hout⟩ => ?_
        · intro j hj
          rw [getLsbD_or_bit _ hlt]
          rcases Nat.lt_succ_iff_lt_or_eq.mp hj with hj | rfl
          · rw [hlow j hj, Bool.true_or]
          · simp
        · have htrail' := (Trail.single (P := Quiet) rfl hstep).trans htrail
          rw [Core.withHooks, Core.store_withStore, Store.write_write] at htrail'
          refine ⟨htrail', hout.imp_right fun ⟨hret, hfails⟩ => ⟨hret, hfails.of_suffix ?_⟩⟩
          exact hstep.suffix
      · have hstep : Step cfg .internal c _ := Step.refused hrefused
        refine ⟨?_, .inr ⟨rfl, hrefused.thwarts (Event.not_vain_of_builds hcmd rfl)⟩⟩
        have heq : c.withHooks p t t.hooks (c.world.record ev) = c.record ev := by
          rw [Core.withHooks, Store.write_self hp]
          rfl
        exact heq ▸ Trail.single rfl hstep

/-- All jumps are in, or a command failed. -/
theorem ifaceEbtablesAddTunnel_spec (hst : c.store.Inv cfg) (hidle : c.pending = false)
    (hp : c.store.heap p = some t) :
    wp (ifaceEbtablesAddTunnel env t.ifgre t.hooks) (fun out w =>
      Trail (Step cfg) Quiet c (c.withHooks p t out.2 w) ∧
      ((out.1 = .ok ∧ out.2 = allHooks) ∨
      (out.1 = .fail ∧ c.world.Thwarts w))) c.world := by
  refine wp_mono (addHooks_spec cfg env hooks (i := 0) rfl hidle hp nofun)
    fun out w ⟨htrail, hout⟩ => ⟨htrail, hout.imp_left fun ⟨hret, hbits⟩ => ⟨hret, ?_⟩⟩
  have hinv := htrail.invariant (I := fun c => c.store.Inv cfg) (fun _ _ _ _ h => h.tables) hst
  have hlt : out.2.toNat < 8 := hinv.hooks_lt (Store.heap_write_self _ _ _)
  refine hookWord_ext hlt (by decide) fun i h hi => ?_
  have hi3 := lt_of_hooks hi
  rw [hbits i hi3]
  interval_cases i <;> rfl

/-! ## Bridges -/

def Core.withWorld (c : Core) (w : World) : Core := { c with world := w }

theorem attachBridges_spec {bs : List TunnelBridge} (hbs : bs ⊆ cfg.bridge) :
    ∀ {c : Core}, c.pending = false → c.store.heap p = some t → t.hooks = allHooks →
    wp (attachBridges env t.ifgre bs) (fun ret w =>
      Trail (Step cfg) Quiet c (c.withWorld w) ∧
      (ret = .fail → c.world.Thwarts w)) c.world := by
  induction bs with
  | nil => exact fun _ _ _ => ⟨Trail.refl, nofun⟩
  | cons b rest ih =>
    intro c hidle hp hhooks
    have hb : b ∈ cfg.bridge := hbs List.mem_cons_self
    rw [attachBridges, wp_bind]
    refine wp_mono (ifaceBridgeAttach_spec env _ _ _ c.world) fun ret w ⟨ev, h⟩ => ?_
    rcases h with ⟨rfl, rfl, hrefused, hvain⟩ | ⟨hdone, ev', rfl, h⟩
    · exact ⟨Trail.single rfl (Step.refused hrefused), fun _ => hrefused.thwarts hvain⟩
    · have hvlan : Trail (Step cfg) Quiet c (c.record ev) :=
        Trail.single rfl (Step.vlan hidle hp hhooks hb hdone)
      rcases h with ⟨rfl, hrefused, hvain⟩ | ⟨rfl, hdone'⟩
      · refine ⟨hvlan.tail rfl (Step.refused (c := c.record ev) hrefused), fun _ => ?_⟩
        have hthwarts : (c.world.record ev).Thwarts ((c.world.record ev).record ev') :=
          hrefused.thwarts hvain
        exact hthwarts.of_suffix (List.suffix_cons _ _)
      · have hmaster := hvlan.tail rfl (Step.master (c := c.record ev) hidle hp hb hdone')
        refine wp_mono (ih (fun _ h => hbs (List.mem_cons_of_mem _ h))
          (c := (c.record ev).record ev') hidle hp hhooks) fun ret w' ⟨htrail, hfail⟩ => ?_
        exact ⟨hmaster.trans htrail, fun hret => (hfail hret).of_suffix (Core.trail_suffix hmaster)⟩

/-! ## Permissions -/

/-- Both rules are in, or the attempt failed: without a trace, or with the
    ingress rule left behind. -/
theorem ifaceEbtablesAllow_spec {mac : CStr} (hp : c.store.heap p = some t) :
    wp (ifaceEbtablesAllow env t.ifgre mac) (fun ret w =>
      (ret = .ok ∧ ∃ evIn evOut, evIn.Done c.kernel (allowIn t.ifgre mac) ∧
        evOut.Done evIn.kernel (allowOut t.ifgre mac) ∧
        w = (c.world.record evIn).record evOut) ∨
      (ret = .fail ∧ c.world.Thwarts w ∧
        (Trail (Step cfg) Quiet c (c.withWorld w) ∨
        Step cfg (.leak t.remote mac) c (c.withWorld w)))) c.world := by
  rw [ifaceEbtablesAllow, wp_bind]
  refine wp_mono (perform_spec env none _ c.world) fun ret w ⟨evIn, hw, hcmdIn, hout⟩ => ?_
  subst hw
  rcases hout with ⟨rfl, -, hin⟩ | ⟨rfl, -, hrefused, -⟩
  · rw [wp_bind]
    refine wp_mono (perform_spec env none _ _) fun ret w ⟨evOut, hw, hcmdOut, hout⟩ => ?_
    subst hw
    rcases hout with ⟨rfl, -, hout⟩ | ⟨rfl, -, hrefused, -⟩
    · exact .inl ⟨rfl, evIn, evOut, hin, hout, rfl⟩
    · rw [wp_bind]
      refine wp_mono (perform_spec env none _ _) fun ret w ⟨evUndo, hw, hcmd, hundo⟩ => ?_
      subst hw
      have hthwarts : (c.world.record evIn).Thwarts
          ((c.world.record evIn).record evOut) :=
        hrefused.thwarts (Event.not_vain_of_builds hcmdOut rfl)
      have hout : evOut.kernel = evIn.kernel := hrefused.kernel
      refine .inr ⟨rfl, (hthwarts.of_suffix (List.suffix_cons _ _)).extend (List.suffix_cons _ _), ?_⟩
      rcases hundo with ⟨-, -, hundo⟩ | ⟨-, -, hundo, -⟩
      · refine .inl (Trail.single rfl (Step.undone hp hin hrefused ?_))
        exact ⟨hundo.cmd, hundo.ok, hout ▸ hundo.apply⟩
      · exact .inr (Step.leak hp hin hrefused ⟨hundo.ok, hundo.kernel.trans hout⟩ hcmd)
  · exact .inr ⟨rfl, hrefused.thwarts (Event.not_vain_of_builds hcmdIn rfl),
      .inl (Trail.single rfl (Step.refused hrefused))⟩

/-- The two deletions of a revocation, which succeeds when both take effect. -/
structure World.Revokes (w : World) (name mac : CStr) (evIn evOut : Event) (ret : Ret) (w' : World) :
    Prop where
  world : w' = (w.record evIn).record evOut
  cmdIn : evIn.cmd = revokeIn name mac
  cmdOut : evOut.cmd = revokeOut name mac
  ingress : evIn.Done w.kernel (revokeIn name mac) ∨ evIn.Refused w.kernel
  egress : evOut.Done evIn.kernel (revokeOut name mac) ∨ evOut.Refused evIn.kernel
  ret_ok : ret = .ok ↔ evIn.ok = true ∧ evOut.ok = true

theorem ifaceEbtablesRevoke_revokes (name mac : CStr) (w : World) :
    wp (ifaceEbtablesRevoke env name mac) (fun ret w' =>
      ∃ evIn evOut, w.Revokes name mac evIn evOut ret w') w := by
  -- how a deletion returns is read off its event
  have hdelete : ∀ (w : World) cmd, wp (helperExec env cmd) (fun ret w' => ∃ ev,
      w' = w.record ev ∧ ev.cmd = cmd ∧ (ev.Done w.kernel cmd ∨ ev.Refused w.kernel) ∧
      (ret = .ok ↔ ev.ok = true)) w := by
    intro w cmd
    refine wp_mono (perform_spec env none cmd w) fun ret w' ⟨ev, hw, hcmd, hout⟩ => ⟨ev, hw, hcmd, ?_⟩
    rcases hout with ⟨rfl, -, hdone⟩ | ⟨rfl, -, hrefused, -⟩
    · exact ⟨.inl hdone, iff_of_true rfl hdone.ok⟩
    · exact ⟨.inr hrefused, iff_of_false nofun (by rw [hrefused.ok]; exact nofun)⟩
  rw [ifaceEbtablesRevoke, wp_bind]
  refine wp_mono (hdelete w _) fun a w₁ ⟨evIn, hw₁, hcmdIn, hin, ha⟩ => ?_
  rw [wp_bind]
  refine wp_mono (hdelete w₁ _) fun b w₂ ⟨evOut, hw₂, hcmdOut, hout, hb⟩ => ?_
  subst hw₁
  rw [wp_pure]
  refine ⟨evIn, evOut, hw₂, hcmdIn, hcmdOut, hin, hout, ?_⟩
  rw [← ha, ← hb]
  cases a <;> cases b <;> simp

namespace World.Revokes

variable {w w' : World} {name mac : CStr} {evIn evOut : Event} {ret : Ret}
  (h : w.Revokes name mac evIn evOut ret w')

include h

theorem links : w'.kernel.links = w.kernel.links := by
  have hin : evIn.kernel.links = w.kernel.links :=
    h.ingress.elim (·.links rfl) fun hev => congrArg Kernel.links hev.kernel
  have hout : evOut.kernel.links = evIn.kernel.links :=
    h.egress.elim (·.links rfl) fun hev => congrArg Kernel.links hev.kernel
  rw [h.world]
  exact hout.trans hin

theorem newIn : w.New w' evIn := by
  rw [h.world]
  exact (World.New.record w evIn).extend (List.suffix_cons _ _)

theorem newOut : w.New w' evOut := by
  rw [h.world]
  exact (World.New.record _ evOut).of_suffix (List.suffix_cons _ _)

/-- A revocation that fails has an event to show for it. -/
theorem failure (hret : ret = .fail) : ∃ ev, w.New w' ev ∧ ev.ok = false ∧
    (ev.cmd = revokeIn name mac ∨ ev.cmd = revokeOut name mac) := by
  by_cases hin : evIn.ok = true
  · refine ⟨evOut, h.newOut, Bool.eq_false_iff.mpr fun hout => ?_, .inr h.cmdOut⟩
    rw [h.ret_ok.mpr ⟨hin, hout⟩] at hret
    cases hret
  · exact ⟨evIn, h.newIn, Bool.of_not_eq_true hin, .inl h.cmdIn⟩

theorem trail {c : Core} (hworld : c.world = w) (hp : c.store.heap p = some t)
    (hname : t.ifgre = name) (hm : mac ∈ t.macs) :
    Trail (Step cfg) (fun l => Quiet l ∨ l = .revoke t.remote mac) c (c.withWorld w') := by
  subst hworld hname
  have hfirst : Trail (Step cfg) (fun l => Quiet l ∨ l = .revoke t.remote mac) c
      (c.record evIn) := by
    rcases h.ingress with hdone | hrefused
    · exact Trail.single (.inr rfl) (Step.revoke hp hm (.inl rfl) hdone)
    · exact Trail.single (.inl rfl) (Step.refused hrefused)
  rw [h.world]
  refine hfirst.trans ?_
  rcases h.egress with hdone | hrefused
  · exact Trail.single (.inr rfl) (Step.revoke (c := c.record evIn) hp hm (.inr rfl) hdone)
  · exact Trail.single (.inl rfl) (Step.refused (c := c.record evIn) hrefused)

end World.Revokes

/-! ## Reset -/

/-- Run commands up to the first that fails. -/
def execAll : List Cmd → WorldM Ret
  | [] => return .ok
  | cmd :: rest => do
    match ← helperExec env cmd with
    | .fail => return .fail
    | .ok => execAll rest

theorem execAll_singleton (cmd : Cmd) : execAll env [cmd] = helperExec env cmd := by
  funext w
  show ((helperExec env cmd >>= _ : WorldM Ret) w) = helperExec env cmd w
  simp only [bind, StateT.bind]
  cases h : helperExec env cmd w with
  | mk ret w' => cases ret <;> rfl

theorem ifaceEbtablesReset_eq : ifaceEbtablesReset env = execAll env resetCmds := by
  simp only [ifaceEbtablesReset, chainDefaults]
  rw [← execAll_singleton env (.append .filter .softgreOut dropRule)]
  rfl

/-- The effect of commands that all take effect. -/
def Kernel.applyAll (k : Kernel) : List Cmd → Option Kernel
  | [] => some k
  | cmd :: rest => (k.apply cmd).bind (·.applyAll rest)

/-- A cleanup is pending and no link of a tracked tunnel is left. -/
def Core.Flushable (c : Core) : Prop :=
  c.pending = true ∧ ∀ p t, c.store.heap p = some t → c.Gone t

theorem Core.Flushable.record {ev : Event} (hc : c.Flushable)
    (hlinks : ev.kernel.links = c.kernel.links) : (c.record ev).Flushable :=
  ⟨hc.1, fun p t ht => (hc.2 p t ht).of_suffix (List.suffix_cons _ _) hlinks rfl⟩

/-- As long as the daemon's chains exist, nothing keeps the reset from working. -/
theorem ChainsInv.apply_reset {sound : Prop} {pending : Bool} {k : Kernel} {cmd : Cmd}
    (h : ChainsInv sound pending k) (hcmd : cmd ∈ resetCmds) : ∃ k', k.apply cmd = some k' := by
  obtain ⟨rulesIn, hin⟩ := Option.isSome_iff_exists.mp h.isSomeIn
  obtain ⟨rulesOut, hout⟩ := Option.isSome_iff_exists.mp h.isSomeOut
  simp only [resetCmds, List.mem_cons, List.not_mem_nil, or_false] at hcmd
  rcases hcmd with rfl | rfl | rfl | rfl | rfl
  · exact ⟨_, Kernel.apply_flush_iff.mpr ⟨h.isSomeIn, rfl⟩⟩
  · exact ⟨_, Kernel.apply_flush_iff.mpr ⟨h.isSomeOut, rfl⟩⟩
  · exact ⟨_, Kernel.apply_append_iff.mpr ⟨rfl, rulesOut, hout, rfl⟩⟩
  · exact ⟨_, Kernel.apply_append_iff.mpr ⟨rfl, rulesIn, hin, rfl⟩⟩
  · exact ⟨_, Kernel.apply_append_iff.mpr ⟨rfl, rulesOut, hout, rfl⟩⟩

theorem execAll_spec {cmds : List Cmd} (hcmds : cmds ⊆ resetCmds) :
    ∀ {c : Core}, c.Flushable → wp (execAll env cmds) (fun ret w =>
      Trail (Step cfg) Quiet c (c.withWorld w) ∧ w.kernel.links = c.kernel.links ∧
      ((ret = .ok ∧ c.kernel.applyAll cmds = some w.kernel) ∨
      (ret = .fail ∧ c.Blames cfg host w))) c.world := by
  induction cmds with
  | nil => exact fun _ => ⟨Trail.refl, rfl, .inl ⟨rfl, rfl⟩⟩
  | cons cmd rest ih =>
    intro c hc
    have hcmd : cmd ∈ resetCmds := hcmds List.mem_cons_self
    rw [execAll, wp_bind]
    refine wp_mono (perform_spec env none _ c.world) fun ret w ⟨ev, hw, hev, hout⟩ => ?_
    subst hw
    rcases hout with ⟨rfl, -, hdone⟩ | ⟨rfl, -, hrefused, -⟩
    · have hlinks : ev.kernel.links = c.kernel.links :=
        hdone.links (by rcases edits_of_mem_resetCmds hcmd with h | h <;> rw [h] <;> rfl)
      have hstep : Trail (Step cfg) Quiet c (c.record ev) :=
        Trail.single rfl (Step.reset hc.1 hc.2 hcmd hdone)
      refine wp_mono (ih (fun _ h => hcmds (List.mem_cons_of_mem _ h)) (hc.record hlinks))
        fun ret w ⟨htrail, hlinks', hout⟩ => ⟨hstep.trans htrail, hlinks'.trans hlinks, ?_⟩
      refine hout.imp (fun ⟨hret, happly⟩ => ⟨hret, ?_⟩) fun ⟨hret, h⟩ => ⟨hret, h.of_trail hstep⟩
      rw [Kernel.applyAll, show c.kernel.apply cmd = some ev.kernel from hdone.apply]
      exact happly
    · refine ⟨Trail.single rfl (Step.refused hrefused), congrArg Kernel.links hrefused.kernel,
        .inr ⟨rfl, Core.Blames.refused hrefused fun hinv => ?_⟩⟩
      exact hev ▸ hinv.chains.apply_reset hcmd

/-- Both chains hold exactly their default rules. -/
def Kernel.Defaults (k : Kernel) : Prop :=
  k.chain .nat .softgreIn = some [dropRule] ∧
    k.chain .filter .softgreOut = some [multicastRule, dropRule]

theorem Kernel.defaults_of_reset {k k' : Kernel} (h : k.applyAll resetCmds = some k') :
    k'.Defaults := by
  simp only [resetCmds, applyAll, Option.bind_eq_some_iff, Option.some.injEq, apply_flush_iff,
    apply_append_iff] at h
  obtain ⟨_, ⟨-, rfl⟩, _, ⟨-, rfl⟩, _, ⟨-, out₁, hout₁, rfl⟩, _, ⟨-, in₁, hin₁, rfl⟩, _,
    ⟨-, out₂, hout₂, rfl⟩, rfl⟩ := h
  simp only [chain_setChain, reduceCtorEq, and_self, if_true, if_false, Option.some.injEq]
    at hout₁ hin₁ hout₂
  subst hout₁ hin₁ hout₂
  exact ⟨rfl, rfl⟩

theorem ifaceEbtablesReset_spec (hc : c.Flushable) :
    wp (ifaceEbtablesReset env) (fun ret w =>
      Trail (Step cfg) Quiet c (c.withWorld w) ∧ w.kernel.links = c.kernel.links ∧
      ((ret = .ok ∧ w.kernel.Defaults) ∨ (ret = .fail ∧ c.Blames cfg host w))) c.world := by
  rw [ifaceEbtablesReset_eq]
  refine wp_mono (execAll_spec cfg host env (List.Subset.refl _) hc)
    fun ret w ⟨htrail, hlinks, hout⟩ => ⟨htrail, hlinks, ?_⟩
  exact hout.imp_left fun ⟨hret, happly⟩ => ⟨hret, Kernel.defaults_of_reset happly⟩

end Softgre
