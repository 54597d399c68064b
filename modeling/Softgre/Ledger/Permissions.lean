-- SUMMARY: The addresses the tables permit, and how the accept rules of both chains can agree with them.
import Softgre.Ledger.Invariant

/-!
# Permissions

The daemon keeps no record of single accept rules. They agree with the tables
because a rule is added together with the address it is for, and because an
address whose egress rule failed has its ingress rule taken back at once. Whether
that worked is not looked at, so the agreement depends on it.
-/

namespace Softgre

open Base

variable {cfg : SoftgredConfig} {st st' : Store} {k k' : Kernel}

/-- The tracked tunnel `name` owns `mac`. -/
def Store.Permits (st : Store) (name mac : CStr) : Prop :=
  ∃ p t, st.heap p = some t ∧ t.ifgre = name ∧ mac ∈ t.macs

/-- Above its tail the chain holds the accept rules of the pairs in `P`, and nothing
    else. -/
def Kernel.Mirrors (k : Kernel) (t : EbTable) (ch : Chain) (accept : CStr → CStr → Rule)
    (tail : List Rule) (P : CStr → CStr → Prop) : Prop :=
  ∃ rules, k.chain t ch = some (rules ++ tail) ∧
    ∀ r, r ∈ rules ↔ ∃ name mac, P name mac ∧ r = accept name mac

structure PermsInv (st : Store) (k : Kernel) : Prop where
  ingress : k.Mirrors .nat .softgreIn acceptIn [dropRule] st.Permits
  egress : k.Mirrors .filter .softgreOut acceptOut [multicastRule, dropRule] st.Permits

/-- Above `rest` the chain holds the accept rules of the pairs in `P`, each once, and
    nothing else. -/
def Kernel.Lists (k : Kernel) (t : EbTable) (ch : Chain) (accept : CStr → CStr → Rule)
    (rest : List Rule) (P : CStr → CStr → Prop) : Prop :=
  ∃ rules, k.chain t ch = some (rules ++ rest) ∧ rules.Nodup ∧
    ∀ r, r ∈ rules ↔ ∃ name mac, P name mac ∧ r = accept name mac

/-- Both chains list the owned addresses, above what is left of their tails. -/
structure ListsInv (restIn restOut : List Rule) (st : Store) (k : Kernel) : Prop where
  ingress : k.Lists .nat .softgreIn acceptIn restIn st.Permits
  egress : k.Lists .filter .softgreOut acceptOut restOut st.Permits

/-- The chain holds the accept rules of the pairs in `P`, next to whatever else. -/
def Kernel.Covers (k : Kernel) (t : EbTable) (ch : Chain) (accept : CStr → CStr → Rule)
    (P : CStr → CStr → Prop) : Prop :=
  ∃ rules, k.chain t ch = some rules ∧ ∀ name mac, P name mac → accept name mac ∈ rules

structure CoversInv (st : Store) (k : Kernel) : Prop where
  ingress : k.Covers .nat .softgreIn acceptIn st.Permits
  egress : k.Covers .filter .softgreOut acceptOut st.Permits

/-- Takes a rule out of `SOFTGRE_IN`. -/
def Cmd.undoes : Cmd → Bool
  | .delete .nat .softgreIn _ => true
  | _ => false

/-- No deletion of an ingress rule has failed. -/
def World.AllUndone (w : World) : Prop := ∀ ev ∈ w.trace, ev.cmd.undoes = true → ev.ok = true

def Core.Perms (c : Core) : Prop := c.pending = false → PermsInv c.store c.kernel

/-- An ingress rule that was to be deleted stays where it is. -/
def Event.Leaves (ev : Event) : Prop := ev.cmd.undoes = true ∧ ev.Unwilling

/-! ## Unchanged permissions -/

theorem Kernel.Lists.congr {t : EbTable} {ch : Chain} {accept : CStr → CStr → Rule}
    {rest : List Rule} {P Q : CStr → CStr → Prop} (h : k.Lists t ch accept rest P)
    (hchain : k'.chain t ch = k.chain t ch) (hPQ : ∀ name mac, Q name mac ↔ P name mac) :
    k'.Lists t ch accept rest Q := by
  obtain ⟨rules, hrules, hnodup, hmem⟩ := h
  refine ⟨rules, hchain.trans hrules, hnodup, fun r => (hmem r).trans ?_⟩
  simp only [hPQ]

theorem Kernel.Covers.congr {t : EbTable} {ch : Chain} {accept : CStr → CStr → Rule}
    {P Q : CStr → CStr → Prop} (h : k.Covers t ch accept P) (hchain : k'.chain t ch = k.chain t ch)
    (hPQ : ∀ name mac, Q name mac ↔ P name mac) : k'.Covers t ch accept Q := by
  obtain ⟨rules, hrules, hmem⟩ := h
  exact ⟨rules, hchain.trans hrules, fun name mac hQ => hmem name mac ((hPQ name mac).mp hQ)⟩

theorem Kernel.Lists.mirrors {t : EbTable} {ch : Chain} {accept : CStr → CStr → Rule}
    {rest : List Rule} {P : CStr → CStr → Prop} (h : k.Lists t ch accept rest P) :
    k.Mirrors t ch accept rest P := by
  obtain ⟨rules, hrules, -, hmem⟩ := h
  exact ⟨rules, hrules, hmem⟩

theorem Store.permits_write {p : Ptr} {t u : Tunnel} (hp : st.heap p = some t)
    (hifgre : u.ifgre = t.ifgre) (hmacs : u.macs = t.macs) (name mac : CStr) :
    (st.write p u).Permits name mac ↔ st.Permits name mac := by
  constructor
  · rintro ⟨q, v, hv, hname, hmac⟩
    rcases heap_write_cases hv with ⟨rfl, rfl⟩ | ⟨-, hv⟩
    · exact ⟨q, t, hp, hifgre ▸ hname, hmacs ▸ hmac⟩
    · exact ⟨q, v, hv, hname, hmac⟩
  · rintro ⟨q, v, hv, hname, hmac⟩
    by_cases hq : q = p
    · subst hq
      cases hp.symm.trans hv
      exact ⟨q, u, by rw [heap_write, if_pos rfl], hifgre.trans hname, hmacs ▸ hmac⟩
    · exact ⟨q, v, by rw [heap_write, if_neg hq, hv], hname, hmac⟩

theorem Store.permits_track {remote : InAddr} {id : Nat} (hnext : st.heap st.next = none)
    (name mac : CStr) :
    (st.track (.fresh cfg remote id)).Permits name mac ↔ st.Permits name mac := by
  constructor
  · rintro ⟨q, v, hv, hname, hmac⟩
    rcases (heap_track_iff hnext).mp hv with ⟨-, rfl⟩ | hv
    · cases hmac
    · exact ⟨q, v, hv, hname, hmac⟩
  · rintro ⟨q, v, hv, hname, hmac⟩
    exact ⟨q, v, (heap_track_iff hnext).mpr (.inr hv), hname, hmac⟩

theorem Store.permits_untrack {p : Ptr} {t : Tunnel} (hp : st.heap p = some t) (hmacs : t.macs = ∅)
    (name mac : CStr) : (st.untrack p t).Permits name mac ↔ st.Permits name mac := by
  constructor
  · rintro ⟨q, v, hv, hname, hmac⟩
    exact ⟨q, v, (heap_untrack_iff.mp hv).2, hname, hmac⟩
  · rintro ⟨q, v, hv, hname, hmac⟩
    refine ⟨q, v, heap_untrack_iff.mpr ⟨?_, hv⟩, hname, hmac⟩
    rintro rfl
    cases hp.symm.trans hv
    rw [hmacs] at hmac
    cases hmac

theorem Store.not_permits_clear {name mac : CStr} : ¬ st.clear.Permits name mac :=
  fun ⟨_, _, ht, _⟩ => nomatch ht

/-! ## One more pair, and one less -/

/-- The rules for one chain tell tunnels and addresses apart. -/
theorem acceptIn_inj {name mac name' mac' : CStr} (h : acceptIn name mac = acceptIn name' mac') :
    vlanPattern name = vlanPattern name' ∧ mac = mac' := by
  simp only [acceptIn, Rule.mk.injEq, Option.some.injEq, Prod.mk.injEq, MacMatch.src.injEq] at h
  exact ⟨h.1.2, h.2.1⟩

theorem acceptOut_inj {name mac name' mac' : CStr} (h : acceptOut name mac = acceptOut name' mac') :
    vlanPattern name = vlanPattern name' ∧ mac = mac' := by
  simp only [acceptOut, Rule.mk.injEq, Option.some.injEq, Prod.mk.injEq, MacMatch.dst.injEq] at h
  exact ⟨h.1.2, h.2.1⟩

/-- A rule that an owner and a tracked tunnel share is for that tunnel. -/
theorem Store.Permits.eq_of_pattern (hst : st.Inv cfg) {p : Ptr} {t : Tunnel} {name mac : CStr}
    (h : st.Permits name mac) (hp : st.heap p = some t)
    (hpattern : vlanPattern name = vlanPattern t.ifgre) : name = t.ifgre := by
  obtain ⟨q, u, hu, rfl, -⟩ := h
  rw [hst.ifgre_eq hu, hst.ifgre_eq hp] at hpattern ⊢
  exact vlanPattern_tunnelName_injective cfg (hst.id_lt hu) (hst.id_lt hp) hpattern

theorem Store.permits_learn {p : Ptr} {t : Tunnel} {mac : CStr} (hp : st.heap p = some t)
    (name mac' : CStr) : (st.learn p t mac).Permits name mac' ↔
      (name = t.ifgre ∧ mac' = mac) ∨ st.Permits name mac' := by
  have hheap : ∀ q, (st.learn p t mac).heap q =
      if q = p then some { t with macs := insert mac t.macs } else st.heap q :=
    fun q => heap_write st p { t with macs := insert mac t.macs } q
  constructor
  · rintro ⟨q, v, hv, hname, hmac⟩
    rw [hheap] at hv
    split at hv
    · cases hv
      rcases Finset.mem_insert.mp hmac with rfl | hmac
      · exact .inl ⟨hname.symm, rfl⟩
      · exact .inr ⟨p, t, hp, hname, hmac⟩
    · exact .inr ⟨q, v, hv, hname, hmac⟩
  · rintro (⟨rfl, rfl⟩ | ⟨q, v, hv, hname, hmac⟩)
    · exact ⟨p, _, (hheap p).trans (if_pos rfl), rfl, Finset.mem_insert_self _ _⟩
    · by_cases hq : q = p
      · subst hq
        cases hp.symm.trans hv
        exact ⟨q, _, (hheap q).trans (if_pos rfl), hname, Finset.mem_insert_of_mem hmac⟩
      · exact ⟨q, v, (hheap q).trans ((if_neg hq).trans hv), hname, hmac⟩

theorem Store.permits_unlearn (hst : st.Inv cfg) {p : Ptr} {t : Tunnel} {mac : CStr}
    (hp : st.heap p = some t) (name mac' : CStr) : (st.unlearn p t mac).Permits name mac' ↔
      st.Permits name mac' ∧ ¬ (name = t.ifgre ∧ mac' = mac) := by
  have hheap : ∀ q, (st.unlearn p t mac).heap q =
      if q = p then some { t with macs := t.macs.erase mac } else st.heap q :=
    fun q => heap_write st p { t with macs := t.macs.erase mac } q
  constructor
  · rintro ⟨q, v, hv, rfl, hmac⟩
    rw [hheap] at hv
    split at hv
    · cases hv
      obtain ⟨hne, hmac⟩ := Finset.mem_erase.mp hmac
      exact ⟨⟨p, t, hp, rfl, hmac⟩, fun heq => hne heq.2⟩
    · next hq => exact ⟨⟨q, v, hv, rfl, hmac⟩, fun heq => hq (hst.ifgre_inj hv hp heq.1)⟩
  · rintro ⟨⟨q, v, hv, rfl, hmac⟩, hne⟩
    by_cases hq : q = p
    · subst hq
      cases hp.symm.trans hv
      refine ⟨q, _, (hheap q).trans (if_pos rfl), rfl, Finset.mem_erase.mpr ⟨?_, hmac⟩⟩
      exact fun heq => hne ⟨rfl, heq⟩
    · exact ⟨q, v, (hheap q).trans ((if_neg hq).trans hv), rfl, hmac⟩

section Pairs

variable {t : EbTable} {ch : Chain} {accept : CStr → CStr → Rule} {rest : List Rule}
  {P Q : CStr → CStr → Prop} {name mac : CStr}

/-- A rule for one more pair in front. -/
theorem Kernel.Lists.insert (h : k.Lists t ch accept rest P)
    (happly : k.apply (.insert t ch (accept name mac)) = some k')
    (hfresh : ∀ n m, P n m → accept n m ≠ accept name mac)
    (hQ : ∀ n m, Q n m ↔ (n = name ∧ m = mac) ∨ P n m) : k'.Lists t ch accept rest Q := by
  obtain ⟨rules, hrules, hnodup, hmem⟩ := h
  obtain ⟨-, rules', hrules', rfl⟩ := Kernel.apply_insert_iff.mp happly
  cases hrules.symm.trans hrules'
  refine ⟨accept name mac :: rules, Kernel.chain_setChain_self _ _ _ _,
    List.nodup_cons.mpr ⟨fun hold => ?_, hnodup⟩, fun r => ?_⟩
  · obtain ⟨n, m, hP, heq⟩ := (hmem _).mp hold
    exact hfresh n m hP heq.symm
  · rw [List.mem_cons, hmem]
    constructor
    · rintro (rfl | ⟨n, m, hP, rfl⟩)
      · exact ⟨name, mac, (hQ _ _).mpr (.inl ⟨rfl, rfl⟩), rfl⟩
      · exact ⟨n, m, (hQ _ _).mpr (.inr hP), rfl⟩
    · rintro ⟨n, m, hq, rfl⟩
      rcases (hQ n m).mp hq with ⟨rfl, rfl⟩ | hP
      · exact .inl rfl
      · exact .inr ⟨n, m, hP, rfl⟩

/-- A rule in front leaves the rules behind it where they are. -/
theorem Kernel.Covers.insert {r : Rule} (h : k.Covers t ch accept P)
    (happly : k.apply (.insert t ch r) = some k')
    (hQ : ∀ n m, Q n m → accept n m = r ∨ P n m) : k'.Covers t ch accept Q := by
  obtain ⟨rules, hrules, hmem⟩ := h
  obtain ⟨-, rules', hrules', rfl⟩ := Kernel.apply_insert_iff.mp happly
  cases hrules.symm.trans hrules'
  refine ⟨r :: rules, Kernel.chain_setChain_self _ _ _ _, fun n m hq => ?_⟩
  rcases hQ n m hq with rfl | hP
  · exact List.mem_cons_self
  · exact List.mem_cons_of_mem _ (hmem n m hP)

/-- The rule of one pair taken out. -/
theorem Kernel.Lists.delete (h : k.Lists t ch accept rest P)
    (happly : k.apply (.delete t ch (accept name mac)) = some k') (hP : P name mac)
    (hinj : ∀ n m, P n m → accept n m = accept name mac → n = name ∧ m = mac)
    (hQ : ∀ n m, Q n m ↔ P n m ∧ ¬ (n = name ∧ m = mac)) : k'.Lists t ch accept rest Q := by
  obtain ⟨rules, hrules, hnodup, hmem⟩ := h
  obtain ⟨rules', hrules', -, rfl⟩ := Kernel.apply_delete_iff.mp happly
  cases hrules.symm.trans hrules'
  have hold : accept name mac ∈ rules := (hmem _).mpr ⟨name, mac, hP, rfl⟩
  refine ⟨rules.erase (accept name mac), ?_, hnodup.erase _, fun r => ?_⟩
  · rw [Kernel.chain_setChain_self, List.erase_append_left _ hold]
  · rw [hnodup.mem_erase_iff, hmem]
    constructor
    · rintro ⟨hne, n, m, hPn, rfl⟩
      refine ⟨n, m, (hQ n m).mpr ⟨hPn, ?_⟩, rfl⟩
      rintro ⟨rfl, rfl⟩
      exact hne rfl
    · rintro ⟨n, m, hq, rfl⟩
      obtain ⟨hPn, hne⟩ := (hQ n m).mp hq
      exact ⟨fun heq => hne (hinj n m hPn heq), n, m, hPn, rfl⟩

/-- The rule of a listed pair can be deleted. -/
theorem Kernel.Lists.deletable (h : k.Lists t ch accept rest P) (hP : P name mac) :
    ∃ k', k.apply (.delete t ch (accept name mac)) = some k' := by
  obtain ⟨rules, hrules, -, hmem⟩ := h
  have hold : accept name mac ∈ rules := (hmem _).mpr ⟨name, mac, hP, rfl⟩
  exact ⟨_, Kernel.apply_delete_iff.mpr ⟨_, hrules, List.mem_append_left _ hold, rfl⟩⟩

/-- Without a pair there is nothing above `rest`. -/
theorem Kernel.Lists.eq_rest (h : k.Lists t ch accept rest P) (hnone : ∀ n m, ¬ P n m) :
    k.chain t ch = some rest := by
  obtain ⟨rules, hrules, -, hmem⟩ := h
  obtain rfl : rules = [] := by
    refine List.eq_nil_iff_forall_not_mem.mpr fun r hr => ?_
    obtain ⟨n, m, hP, -⟩ := (hmem r).mp hr
    exact hnone n m hP
  exact hrules

theorem Kernel.Lists.of_rest (hchain : k.chain t ch = some rest) (hnone : ∀ n m, ¬ P n m) :
    k.Lists t ch accept rest P := by
  refine ⟨[], hchain, List.nodup_nil, fun r => ⟨nofun, ?_⟩⟩
  exact fun ⟨n, m, hP, _⟩ => (hnone n m hP).elim

end Pairs

/-! ## Both chains -/

section Both

variable {restIn restOut : List Rule} {p : Ptr} {t : Tunnel} {mac : CStr}

theorem ListsInv.congr (h : ListsInv restIn restOut st k)
    (hin : k'.chain .nat .softgreIn = k.chain .nat .softgreIn)
    (hout : k'.chain .filter .softgreOut = k.chain .filter .softgreOut)
    (hpermits : ∀ name mac, st'.Permits name mac ↔ st.Permits name mac) :
    ListsInv restIn restOut st' k' :=
  ⟨h.ingress.congr hin hpermits, h.egress.congr hout hpermits⟩

theorem ListsInv.perms (h : ListsInv [dropRule] [multicastRule, dropRule] st k) : PermsInv st k :=
  ⟨h.ingress.mirrors, h.egress.mirrors⟩

theorem ListsInv.of_rests (hin : k.chain .nat .softgreIn = some restIn)
    (hout : k.chain .filter .softgreOut = some restOut)
    (hnone : ∀ name mac, ¬ st.Permits name mac) : ListsInv restIn restOut st k :=
  ⟨.of_rest hin hnone, .of_rest hout hnone⟩

theorem ListsInv.learn {evIn evOut : Event} (h : ListsInv restIn restOut st k) (hst : st.Inv cfg)
    (hp : st.heap p = some t) (hnone : st.owner mac = none)
    (hin : evIn.Done k (allowIn t.ifgre mac)) (hout : evOut.Done evIn.kernel (allowOut t.ifgre mac)) :
    ListsInv restIn restOut (st.learn p t mac) evOut.kernel := by
  -- an address without an owner is in no rule yet
  have hfresh : ∀ n m, st.Permits n m → m ≠ mac := by
    rintro n m ⟨q, u, hu, -, hm⟩ rfl
    cases hnone.symm.trans (hst.owner_iff.mpr ⟨u, hu, hm⟩)
  refine ⟨?_, ?_⟩
  · refine (h.ingress.insert hin.apply (fun n m hP heq => ?_) (Store.permits_learn hp)).congr
      (hout.chain nofun) fun _ _ => Iff.rfl
    exact hfresh n m hP (acceptIn_inj heq).2
  · refine (h.egress.congr (hin.chain nofun) fun _ _ => Iff.rfl).insert hout.apply
      (fun n m hP heq => ?_) (Store.permits_learn hp)
    exact hfresh n m hP (acceptOut_inj heq).2

theorem ListsInv.unlearn {evIn evOut : Event} (h : ListsInv restIn restOut st k) (hst : st.Inv cfg)
    (hp : st.heap p = some t) (hmac : mac ∈ t.macs) (hin : evIn.Done k (revokeIn t.ifgre mac))
    (hout : evOut.Done evIn.kernel (revokeOut t.ifgre mac)) :
    ListsInv restIn restOut (st.unlearn p t mac) evOut.kernel := by
  have hP : st.Permits t.ifgre mac := ⟨p, t, hp, rfl, hmac⟩
  refine ⟨?_, ?_⟩
  · refine (h.ingress.delete hin.apply hP (fun n m hPn heq => ?_) (Store.permits_unlearn hst hp)).congr
      (hout.chain nofun) fun _ _ => Iff.rfl
    exact ⟨hPn.eq_of_pattern hst hp (acceptIn_inj heq).1, (acceptIn_inj heq).2⟩
  · refine (h.egress.congr (hin.chain nofun) fun _ _ => Iff.rfl).delete hout.apply hP
      (fun n m hPn heq => ?_) (Store.permits_unlearn hst hp)
    exact ⟨hPn.eq_of_pattern hst hp (acceptOut_inj heq).1, (acceptOut_inj heq).2⟩

theorem ListsInv.covers {restIn restOut : List Rule}
    (h : ListsInv restIn restOut st k) : CoversInv st k := by
  obtain ⟨⟨rulesIn, hin, -, hmemIn⟩, ⟨rulesOut, hout, -, hmemOut⟩⟩ := h
  refine ⟨⟨_, hin, fun name mac hP => ?_⟩, ⟨_, hout, fun name mac hP => ?_⟩⟩
  · exact List.mem_append_left _ ((hmemIn _).mpr ⟨name, mac, hP, rfl⟩)
  · exact List.mem_append_left _ ((hmemOut _).mpr ⟨name, mac, hP, rfl⟩)

theorem CoversInv.congr (h : CoversInv st k)
    (hin : k'.chain .nat .softgreIn = k.chain .nat .softgreIn)
    (hout : k'.chain .filter .softgreOut = k.chain .filter .softgreOut)
    (hpermits : ∀ name mac, st'.Permits name mac ↔ st.Permits name mac) : CoversInv st' k' :=
  ⟨h.ingress.congr hin hpermits, h.egress.congr hout hpermits⟩

theorem CoversInv.learn {evIn evOut : Event} (h : CoversInv st k) (hp : st.heap p = some t)
    (hin : evIn.Done k (allowIn t.ifgre mac)) (hout : evOut.Done evIn.kernel (allowOut t.ifgre mac)) :
    CoversInv (st.learn p t mac) evOut.kernel := by
  refine ⟨?_, ?_⟩
  · refine (h.ingress.insert hin.apply fun n m hq => ?_).congr (hout.chain nofun) fun _ _ => Iff.rfl
    refine ((Store.permits_learn hp n m).mp hq).imp_left ?_
    rintro ⟨rfl, rfl⟩
    rfl
  · refine (h.egress.congr (hin.chain nofun) fun _ _ => Iff.rfl).insert hout.apply fun n m hq => ?_
    refine ((Store.permits_learn hp n m).mp hq).imp_left ?_
    rintro ⟨rfl, rfl⟩
    rfl

/-- An ingress rule that is left behind does no harm to the others. -/
theorem CoversInv.leak {ev : Event} {name : CStr} (h : CoversInv st k)
    (hev : ev.Done k (allowIn name mac)) : CoversInv st ev.kernel :=
  ⟨h.ingress.insert hev.apply fun _ _ => .inr,
    h.egress.congr (hev.chain nofun) fun _ _ => Iff.rfl⟩

end Both

end Softgre
