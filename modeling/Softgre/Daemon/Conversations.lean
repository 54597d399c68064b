-- SUMMARY: Every act on a connection in a run, by what it was sent and what the tables held.
import Softgre.Daemon.Loop
import Softgre.Service.Requests

/-!
# Conversations

A run of the main loop interleaves captured frames, cleanups and the turns of up to
128 connections. Every act on a connection is explained by the log before it: by
when the connection was opened, by the bytes it has sent since, and by the inputs
the provisioning code has taken in.
-/

namespace Softgre

-- ---------------------------------------------------------------------------
-- The acts of one turn
-- ---------------------------------------------------------------------------

section Turn

variable {command : CStr → CStr} {t : Turn} {c : Client} {act : Act} {pre post : List Act}

theorem receiveActs_cases :
    receiveActs command t c = [] ∨ receiveActs command t c = [.closed .recv] ∨
      ∃ bytes, receiveActs command t c = [.received bytes] ∨
        receiveActs command t c = [.received bytes, .closed .nul] ∨
        receiveActs command t c =
          [.received bytes, .answered (respond command (c.input ++ bytes))] := by
  rw [receiveActs]
  split
  swap
  · exact .inl rfl
  split
  · exact .inl rfl
  · exact .inr (.inl rfl)
  · next bytes _ =>
    refine .inr (.inr ⟨bytes, ?_⟩)
    simp only [accumulateActs]
    split
    · exact .inr (.inl rfl)
    · split
      · exact .inr (.inr rfl)
      · exact .inl rfl

/-- Sending neither computes a response nor looks at the clock. -/
def Act.IsSending : Act → Prop
  | .sent _ => True
  | .closed why => why ≠ .deadline
  | _ => False

theorem transmitActs_isSending (h : act ∈ transmitActs t c) : act.IsSending := by
  rw [transmitActs] at h
  split at h
  · cases h
  split at h
  swap
  · cases h
  split at h
  · cases h
  · cases List.mem_singleton.mp h
    exact Why.noConfusion
  · cases List.mem_singleton.mp h
    split <;> exact Why.noConfusion
  · rcases List.mem_cons.mp h with rfl | h
    · trivial
    split at h
    · cases List.mem_singleton.mp h
      exact Why.noConfusion
    · cases h

theorem finishActs_isSending (h : act ∈ finishActs c) : act.IsSending := by
  rw [finishActs] at h
  split at h
  · cases List.mem_singleton.mp h
    exact Why.noConfusion
  · cases h

/-- A turn in time receives, and then sends. -/
theorem clientActs_intime (hintime : t.now < c.deadline) :
    clientActs command t c = [.closed .event] ∨
      ∃ sending, clientActs command t c = receiveActs command t c ++ sending ∧
        ∀ act ∈ sending, act.IsSending := by
  rw [clientActs, if_neg (by omega)]
  split
  · exact .inl rfl
  refine .inr ?_
  dsimp only
  split
  · exact ⟨[], rfl, fun act h => by cases h⟩
  · refine ⟨_, rfl, fun act h => ?_⟩
    split at h
    · rw [List.append_nil] at h
      exact transmitActs_isSending h
    · exact (List.mem_append.mp h).elim transmitActs_isSending finishActs_isSending

/-- What is received, by what comes before it. -/
theorem receiveActs_split (h : receiveActs command t c = pre ++ act :: post) :
    act ≠ .opened ∧ act ≠ .closed .deadline ∧ ∀ response, act = .answered response →
      response = respond command (c.input ++ received pre) := by
  rcases @receiveActs_cases command t c with
    hr | hr | ⟨bytes, hr | hr | hr⟩
  all_goals
    rw [hr] at h
    rcases pre with _ | ⟨first, _ | ⟨second, pre⟩⟩
    all_goals simp at h
  · simp [← h.1]
  · simp [← h.1]
  · simp [← h.1]
  · simp [← h.2.1]
  · simp [← h.1]
  · obtain ⟨rfl, rfl, -⟩ := h
    simp [received, Act.received?]

/-- Each act of a turn, by what comes before it. -/
theorem clientActs_split (h : clientActs command t c = pre ++ act :: post) :
    act ≠ .opened ∧ (act = .closed .deadline ↔ c.deadline ≤ t.now) ∧
      ∀ response, act = .answered response →
        response = respond command (c.input ++ received pre) := by
  have hsingle : ∀ {why}, [.closed why] = pre ++ act :: post → act = .closed why := by
    intro why heq
    cases pre with
    | nil => exact (List.cons.inj heq).1.symm
    | cons first pre => simp at heq
  by_cases hlate : c.deadline ≤ t.now
  · rw [clientActs, if_pos hlate] at h
    cases hsingle h
    exact ⟨Act.noConfusion, iff_of_true rfl hlate, fun _ => Act.noConfusion⟩
  suffices hact : act ≠ .opened ∧ act ≠ .closed .deadline ∧ _ from
    ⟨hact.1, iff_of_false hact.2.1 hlate, hact.2.2⟩
  rcases @clientActs_intime command _ _ (Int.not_le.mp hlate) with
    heq | ⟨sending, heq, hsending⟩
  · cases hsingle (heq ▸ h)
    exact ⟨Act.noConfusion, by simp, fun _ => Act.noConfusion⟩
  rw [heq] at h
  rcases append_cons_eq_append h.symm with ⟨rest, hreceive, -⟩ | ⟨rest, -, hrest⟩
  · exact receiveActs_split hreceive
  · have hact := hsending act (hrest ▸ by simp)
    cases act with
    | sent => exact ⟨Act.noConfusion, Act.noConfusion, fun _ => Act.noConfusion⟩
    | closed => exact ⟨Act.noConfusion, fun h => hact (Act.closed.inj h), fun _ => Act.noConfusion⟩
    | opened | refused | received | answered => cases hact

theorem opened_notMem_clientActs : .opened ∉ clientActs command t c := by
  intro hmem
  obtain ⟨pre, post, hsplit⟩ := List.append_of_mem hmem
  exact (clientActs_split hsplit).1 rfl

/-- The deadline of a connection stays what it was when it was opened. -/
def Client.KeepsDeadline (c c' : Client) : Prop := c' = .free ∨ c'.deadline = c.deadline

theorem receive_keepsDeadline (c : Client) : c.KeepsDeadline (receive command t c).1 := by
  rw [receive]
  split
  swap
  · exact .inr rfl
  split
  · exact .inr rfl
  · exact .inl rfl
  · simp only [accumulate]
    split
    · exact .inl rfl
    · split <;> exact .inr rfl

theorem transmit_keepsDeadline (c : Client) : c.KeepsDeadline (transmit t c).1 := by
  rw [transmit]
  split
  · exact .inr rfl
  split
  swap
  · exact .inr rfl
  split
  · exact .inr rfl
  · exact .inl rfl
  · exact .inl rfl
  · dsimp only
    split
    · exact .inl rfl
    · exact .inr rfl

theorem finish_keepsDeadline (c : Client) : c.KeepsDeadline (finish c).1 := by
  rw [finish]
  split
  · exact .inl rfl
  · exact .inr rfl

theorem Client.KeepsDeadline.trans {c c' c'' : Client} (h : c.KeepsDeadline c')
    (h' : c'.KeepsDeadline c'') (hfree : c' = .free → c'' = .free) : c.KeepsDeadline c'' := by
  rcases h with hfree' | hdeadline
  · exact .inl (hfree hfree')
  · exact h'.imp_right (·.trans hdeadline)

variable (command t) in
theorem clientTurn_keepsDeadline (c : Client) : c.KeepsDeadline (clientTurn command t c).1 := by
  have hreceived := @receive_keepsDeadline command t c
  have hpath := clientTurn_path command t c
  generalize clientTurn command t c = r at hpath ⊢
  generalize clientActs command t c = acts at hpath
  cases hpath with
  | fails => exact .inl rfl
  | receives => exact hreceived
  | transmits heq =>
    rw [heq] at hreceived
    refine hreceived.trans (transmit_keepsDeadline _) ?_
    rintro rfl
    rfl
  | @finishes c' _ _ _ heq heq' =>
    rw [heq] at hreceived
    have htransmitted := transmit_keepsDeadline (t := t) c'
    rw [heq'] at htransmitted
    refine (hreceived.trans htransmitted ?_).trans (finish_keepsDeadline _) ?_
    · rintro rfl
      cases heq'
      rfl
    · rintro rfl
      rfl

end Turn

-- ---------------------------------------------------------------------------
-- The accept phase
-- ---------------------------------------------------------------------------

section Accept

variable {command : CStr → CStr} {o : Outside} {clients clients' : List Client} {c : Client}
  {i fd : Nat} {deeds : List Deed}

theorem acceptDeeds_acts {limit left : Nat} (h : acceptDeeds o limit left clients = .ok deeds) :
    ∀ d ∈ deeds, d.act = .opened ∨ d.act = .refused := by
  induction left generalizing clients deeds with
  | zero =>
    cases h
    exact fun d hd => by cases hd
  | succ left ih =>
    rw [acceptDeeds] at h
    split at h
    · cases h
      exact fun d hd => by cases hd
    obtain ⟨slot, -, h⟩ := Base.bind_eq_ok_iff.mp h
    split at h
    · obtain ⟨more, hmore, h⟩ := Base.bind_eq_ok_iff.mp h
      cases h
      exact List.forall_mem_cons.mpr ⟨.inr rfl, ih hmore⟩
    · obtain ⟨client, -, h⟩ := Base.bind_eq_ok_iff.mp h
      obtain ⟨clients₁, -, h⟩ := Base.bind_eq_ok_iff.mp h
      obtain ⟨more, hmore, h⟩ := Base.bind_eq_ok_iff.mp h
      cases h
      exact List.forall_mem_cons.mpr ⟨.inl rfl, ih hmore⟩

/-- A slot that the accept loop fills holds a connection that it opened. -/
theorem acceptClients_fills {limit : Nat} (h : ClientsOk limit clients)
    (hlimit : limit ≤ clients.length) (left : Nat) {events : List ServiceEvent}
    (haccept : acceptClients o limit left clients = .ok (clients', events))
    (hdeeds : acceptDeeds o limit left clients = .ok deeds) (hfree : (clientAt clients i).fd = none)
    (hc : clients'[i]? = some c) (hfd : c.fd = some fd) :
    ⟨fd, .opened⟩ ∈ deeds ∧ c.deadline = o.now + 5 * 1000000 := by
  have habsent : clients'[i]? ≠ some (clientAt clients i) := by
    rintro hsame
    rw [hc] at hsame
    cases hsame
    rw [hfd] at hfree
    cases hfree
  induction left generalizing clients events deeds with
  | zero =>
    cases haccept
    exact absurd (getElem?_clientAt (List.getElem?_eq_some_iff.mp hc).1) habsent
  | succ left ih =>
    rw [acceptClients] at haccept
    rw [acceptDeeds] at hdeeds
    cases hnext : o.accept left (openFds clients) with
    | none =>
      rw [hnext] at haccept
      cases haccept
      exact absurd (getElem?_clientAt (List.getElem?_eq_some_iff.mp hc).1) habsent
    | some fd' =>
      have hfresh := o.accept_fresh hnext
      obtain ⟨slot, hslot, hcase⟩ := freeSlot_spec hlimit limit (Nat.le_refl limit)
      simp only [hnext, hslot, ok_bind] at haccept hdeeds
      by_cases hfull : slot = limit
      · rw [if_pos hfull] at haccept hdeeds
        obtain ⟨⟨clients₁, events₁⟩, haccept₁, haccept⟩ := Base.bind_eq_ok_iff.mp haccept
        obtain ⟨more, hmore, hdeeds⟩ := Base.bind_eq_ok_iff.mp hdeeds
        cases haccept
        cases hdeeds
        exact (ih h hlimit haccept₁ hmore hfree habsent).imp_left (List.mem_cons_of_mem _)
      · obtain ⟨hlt, hslotFree⟩ := hcase.resolve_left hfull
        have hat := getElem?_clientAt (i := slot) (show slot < clients.length by omega)
        have hok := (h.opened hlt hat hslotFree hfresh (o.now + 5 * 1000000)).1
        rw [if_neg hfull, getAt_clientAt (by omega), ok_bind, setAt_eq _ (by omega), ok_bind]
          at haccept hdeeds
        obtain ⟨⟨clients₁, events₁⟩, haccept₁, haccept⟩ := Base.bind_eq_ok_iff.mp haccept
        obtain ⟨more, hmore, hdeeds⟩ := Base.bind_eq_ok_iff.mp hdeeds
        cases haccept
        cases hdeeds
        by_cases hi : slot = i
        · subst hi
          obtain ⟨_, _, haccept', -, haccepts⟩ :=
            acceptClients_follows (o := o) hok (by rwa [List.length_set]) left
          cases haccept₁.symm.trans haccept'
          have hkept := haccepts.keeps (List.getElem?_set_self (by omega)) rfl
          cases hc.symm.trans hkept
          cases hfd
          exact ⟨List.mem_cons_self, rfl⟩
        · refine (ih hok (by rwa [List.length_set]) haccept₁ hmore ?_ ?_).imp_left
            (List.mem_cons_of_mem _)
          · rwa [clientAt_set_ne hi]
          · rwa [clientAt_set_ne hi]

end Accept

-- ---------------------------------------------------------------------------
-- One round of the status server
-- ---------------------------------------------------------------------------

section Round

variable {command : CStr → CStr} {o : Outside} {s s' : Service} {c c' : Client}
  {i fd listener : Nat} {deeds accepted : List Deed} {events : List ServiceEvent}

/-- What the accept phase makes of the table the turns have left. -/
structure RoundOpens (o : Outside) (clients clients' : List Client) (accepted : List Deed) : Prop where
  acts : ∀ d ∈ accepted, d.act = .opened ∨ d.act = .refused
  fresh : ∀ d ∈ accepted, d.fd ∉ openFds clients
  keeps : ∀ {i : Nat} {c : Client}, clients[i]? = some c → c.isOpen = true → clients'[i]? = some c
  opened : ∀ {i : Nat} {c : Client} {fd : Nat}, clients'[i]? = some c → c.fd = some fd →
    (clientAt clients i).fd = none →
    c.deadline = o.now + 5 * 1000000 ∧ ∃ before after,
      accepted = before ++ ⟨fd, .opened⟩ :: after ∧ actsOn fd after = [] ∧ Tracks [] c

theorem roundDeeds_opens (hok : s.Ok) (hlistener : s.listener = some listener)
    (hround : serviceRound command o s = .ok (s', events))
    (hdeeds : roundDeeds command o s = .ok deeds) :
    ∃ accepted, deeds = s.turnDeeds command o ++ accepted ∧
      RoundOpens o (takeTurns command o s.openSlots s.clients).1 s'.clients accepted := by
  obtain ⟨accepted, admitted, hdeeds', -, hadmits⟩ := roundDeeds_eq hok hlistener hround
  cases hdeeds.symm.trans hdeeds'
  refine ⟨accepted, rfl, ?_⟩
  obtain ⟨clients', admitted, hphase, hfollows, haccepts⟩ :=
    acceptPhase_follows (o := o) hok hok.turns.ok
  rw [serviceRound_eq hok hlistener, hphase] at hround
  cases hround
  have hturns := dispatchClients_eq command s.openSlots 1 (nodup_openSlots s)
    (fun j i hj => hok.listed (o := o) hj) []
  have hdispatch := dispatchDeeds_eq command s.openSlots 1 (nodup_openSlots s)
    (fun j i hj => hok.listed (o := o) hj)
  obtain ⟨fds, hpoll, hfds⟩ := hok.servicePollfds_eq o hlistener
  rw [roundDeeds, hpoll, ok_bind] at hdeeds
  simp only [Nat.add_sub_cancel_left, hfds, hdispatch, hturns, ok_bind, hok.getAt_listener]
    at hdeeds
  rw [if_neg (by omega)] at hdeeds
  rw [acceptPhase] at hphase
  split at hphase
  · next hready =>
    rw [if_pos hready] at hdeeds
    obtain ⟨accepted', haccepted, hdeeds⟩ := Base.bind_eq_ok_iff.mp hdeeds
    cases List.append_cancel_left (Except.ok.inj hdeeds)
    refine ⟨acceptDeeds_acts haccepted, hadmits.fresh, haccepts.keeps, ?_⟩
    intro i c fd hc hfd hfree
    obtain ⟨hmem, hdeadline⟩ := acceptClients_fills hok.turns.ok
      (by rw [hok.turns.ok.length]; exact hok.limit_le) 16 hphase haccepted hfree hc hfd
    obtain ⟨before, after, hsplit⟩ := List.append_of_mem hmem
    obtain ⟨hnone, j, c', hat, hfd', htracks⟩ := hadmits.opened hsplit
    cases hfollows.ok.slot_inj hc hat hfd hfd'
    cases hc.symm.trans hat
    exact ⟨hdeadline, before, after, hsplit, hnone, htracks⟩
  · next hidle =>
    cases hphase
    rw [if_neg hidle] at hdeeds
    cases List.self_eq_append_right.mp (Except.ok.inj hdeeds)
    refine ⟨by simp, hadmits.fresh, haccepts.keeps, ?_⟩
    intro i c fd hc hfd hfree
    cases hc.symm.trans (getElem?_clientAt (List.getElem?_eq_some_iff.mp hc).1)
    rw [hfd] at hfree
    cases hfree

/-- A connection that is there behind a round was there before it, or was opened by
    it. -/
theorem serviceRound_holds (hok : s.Ok)
    (hopens : RoundOpens o (takeTurns command o s.openSlots s.clients).1 s'.clients accepted)
    (hholds : Holds s' i fd c') :
    (∃ c, Holds s i fd c ∧ c'.deadline = c.deadline ∧ o.now < c.deadline ∧
      actsOn fd accepted = [] ∧
      ∀ past, Tracks past c → Tracks (past ++ clientActs command (o.turnOf fd) c) c') ∨
    c'.deadline = o.now + 5 * 1000000 ∧ ∃ before after,
      accepted = before ++ ⟨fd, .opened⟩ :: after ∧ actsOn fd after = [] ∧ Tracks [] c' := by
  by_cases hopen : (clientAt (takeTurns command o s.openSlots s.clients).1 i).isOpen = true
  swap
  · refine .inr (hopens.opened hholds.at_slot hholds.fd_eq ?_)
    simpa [Client.isOpen] using hopen
  refine .inl ?_
  have hwas : (clientAt s.clients i).isOpen = true := by
    by_cases hi : i ∈ s.openSlots
    · exact (mem_openSlots hi).2
    · rwa [clientAt_takeTurns _ hi] at hopen
  obtain ⟨fd₀, hfd₀⟩ := Option.isSome_iff_exists.mp hwas
  have hlength : (takeTurns command o s.openSlots s.clients).1.length = s.clients.length :=
    length_takeTurns _
  have hlt : i < s.clients.length := by
    by_contra hge
    rw [clientAt, List.getD_eq_getElem?_getD, List.getElem?_eq_none (Nat.le_of_not_lt hge)] at hfd₀
    cases hfd₀
  have hc : Holds s i fd₀ (clientAt s.clients i) := ⟨getElem?_clientAt hlt, hfd₀⟩
  generalize clientAt s.clients i = c at hc
  obtain ⟨-, hclient⟩ := takeTurns_projects command o hok hc
  have hsame : c' = (clientTurn command (o.turnOf fd₀) c).1 := by
    have hkept := hopens.keeps (getElem?_clientAt (hlength ▸ hlt)) hopen
    rw [hclient] at hkept
    exact Option.some.inj (hholds.at_slot.symm.trans hkept)
  have hok' := hok.clients.ok c (List.mem_of_getElem? hc.at_slot)
  have hfd : fd₀ = fd := by
    have hturned := clientTurn_turned command (o.turnOf fd₀) hok' hc.fd_eq
    have hfd' := hholds.fd_eq
    rw [hsame] at hfd'
    generalize clientTurn command (o.turnOf fd₀) c = r at hturned hfd'
    obtain ⟨c₁, events₁⟩ := r
    cases hturned with
    | kept _ hkept => exact Option.some.inj (hkept.symm.trans hfd')
    | closed => cases hfd'
  subst hfd
  have hdeadline := clientTurn_keepsDeadline command (o.turnOf fd₀) c
  have hkeptFd := hholds.fd_eq
  rw [hsame] at hkeptFd
  refine ⟨c, hc, ?_, ?_, actsOn_eq_nil fun d hd heq => hopens.fresh d hd ?_, fun past htracks => ?_⟩
  · rcases hdeadline with hfree | hdeadline
    · rw [hfree] at hkeptFd
      cases hkeptFd
    · rw [hsame, hdeadline]
  · by_contra hlate
    rw [clientTurn, if_pos (by simpa using .inl (Int.not_lt.mp hlate))] at hkeptFd
    cases hkeptFd
  · rw [heq]
    refine mem_openFds_of_clientAt (i := i) ?_
    rw [hclient]
    exact hkeptFd
  · have hserved := clientTurn_served command (o.turnOf fd₀) hok' hc.fd_eq htracks
    rw [hsame]
    generalize clientTurn command (o.turnOf fd₀) c = r at hserved hkeptFd ⊢
    generalize clientActs command (o.turnOf fd₀) c = acts at hserved ⊢
    obtain ⟨c₁, events₁⟩ := r
    cases hserved with
    | kept _ htracks' => exact htracks'
    | closed => cases hkeptFd

/-- Nothing comes behind a close. -/
theorem Served.unclosed_before {past acts pre post : List Act} {act : Act}
    (h : Served fd past c acts) (heq : acts = pre ++ act :: post) : ∀ why, .closed why ∉ pre := by
  cases h with
  | kept _ htracks =>
    refine fun why hmem => htracks.unclosed why (List.mem_append_right _ ?_)
    rw [heq]
    exact List.mem_append_left _ hmem
  | closed hunclosed =>
    rcases append_cons_eq_append heq.symm with ⟨rest, hacts, -⟩ | ⟨rest, hpre, hlast⟩
    · refine fun why hmem => hunclosed why ?_
      rw [hacts]
      exact List.mem_append_left _ hmem
    · cases rest with
      | nil =>
        rw [List.append_nil] at hpre
        exact hpre ▸ hunclosed
      | cons first rest => simp at hlast

/-- The turn that a deed belongs to. -/
theorem turnDeeds_split {before after : List Deed} {deed : Deed} (hok : s.Ok)
    (h : s.turnDeeds command o = before ++ deed :: after) :
    ∃ i c, Holds s i deed.fd c ∧ clientActs command (o.turnOf deed.fd) c =
      actsOn deed.fd before ++ deed.act :: actsOn deed.fd after := by
  have hmem : deed ∈ s.turnDeeds command o := by rw [h]; simp
  obtain ⟨i, hi, hdeed⟩ := List.mem_flatMap.mp hmem
  obtain ⟨hfd, -⟩ := mem_deeds.mp hdeed
  obtain ⟨hlt, -⟩ := mem_openSlots hi
  have hlength : i < s.clients.length := by
    rw [hok.clients.length]
    exact Nat.lt_of_lt_of_le hlt hok.limit_le
  have hholds : Holds s i deed.fd (clientAt s.clients i) := ⟨getElem?_clientAt hlength, hfd⟩
  refine ⟨i, _, hholds, ?_⟩
  rw [← actsOn_turnDeeds hok hholds, h, actsOn_append]
  congr 1
  simp [actsOn]

end Round

-- ---------------------------------------------------------------------------
-- The log of a run
-- ---------------------------------------------------------------------------

/-- The connection that is open on `fd` behind `log` was opened behind `before`, and
    `since` is what has happened from there on. -/
structure OpenSince (log before since : List Happening) (fd : Nat) : Prop where
  log_eq : log = before ++ .did ⟨fd, .opened⟩ :: since
  unopened : .opened ∉ actsOn fd (deedsOf since)
  unclosed : ∀ why, .closed why ∉ actsOn fd (deedsOf since)

section Log

variable {host : HostInfo} {cfg : SoftgredConfig} {env : Env} {s : Sys}
  {log more before since : List Happening} {d d' : Daemon} {fd : Nat}

/-- More happens, which neither opens nor closes the connection. -/
theorem OpenSince.append (h : OpenSince log before since fd) (more : List Happening)
    (hopen : .opened ∉ actsOn fd (deedsOf more))
    (hclose : ∀ why, .closed why ∉ actsOn fd (deedsOf more)) :
    OpenSince (log ++ more) before (since ++ more) fd where
  log_eq := by rw [h.log_eq, List.append_assoc, List.cons_append]
  unopened := by
    rw [deedsOf_append, actsOn_append, List.mem_append, not_or]
    exact ⟨h.unopened, hopen⟩
  unclosed why := by
    rw [deedsOf_append, actsOn_append, List.mem_append, not_or]
    exact ⟨h.unclosed why, hclose why⟩

variable (cfg env s) in
/-- The provisioning state that a log has led to. -/
def Behind (log : List Happening) : Sys := feed cfg env (inputsOf log) s

variable (host cfg env s) in
/-- An act behind `log`, on a connection that was opened before: its deadline decides
    whether it is closed for that, and a response answers what the connection has
    sent, in the state of the moment. -/
structure Explained (log before since : List Happening) (deed : Deed) : Prop where
  openSince : OpenSince log before since deed.fd
  deadline : deed.act = .closed .deadline ↔
    (Behind cfg env s before).world.clock + 5 * 1000000 ≤ (Behind cfg env s log).world.clock
  answered : ∀ response, deed.act = .answered response →
    response = respond (answer host (Behind cfg env s log))
      (received (actsOn deed.fd (deedsOf since)))

variable (host cfg env s) in
/-- What a run keeps: the connections, their descriptors, and everything that was done
    can be accounted for by the log. -/
structure Accounted (log : List Happening) (d : Daemon) : Prop where
  ok : d.service.Ok
  listener : ∃ listener, d.service.listener = some listener
  sys : d.sys = Behind cfg env s log
  replay : replay ∅ ((deedsOf log).flatMap Deed.events) = some (openFds d.service.clients).toFinset
  clients : ∀ {i : Nat} {fd : Nat} {c : Client}, Holds d.service i fd c →
    ∃ before since, OpenSince log before since fd ∧ Tracks (actsOn fd (deedsOf since)) c ∧
      c.deadline = (Behind cfg env s before).world.clock + 5 * 1000000
  deeds : ∀ {before after : List Happening} {deed : Deed}, log = before ++ .did deed :: after →
    deed.act = .opened ∨ deed.act = .refused ∨
      ∃ earlier since, Explained host cfg env s before earlier since deed

theorem behind_append (more : List Happening) :
    Behind cfg env s (log ++ more) = feed cfg env (inputsOf more) (Behind cfg env s log) := by
  rw [Behind, inputsOf_append, feed_append]
  rfl

theorem behind_did (deeds : List Deed) :
    Behind cfg env s (log ++ deeds.map .did) = Behind cfg env s log := by
  rw [behind_append, inputsOf_did]
  rfl

/-- What leaves the connections alone keeps the accounts. -/
theorem Accounted.quiet (h : Accounted host cfg env s log d) (hquiet : deedsOf more = [])
    {service : Service} (hok : service.Ok) (hlistener : service.listener = d.service.listener)
    (hclients : service.clients = d.service.clients) :
    Accounted host cfg env s (log ++ more) ⟨feed cfg env (inputsOf more) d.sys, service⟩ where
  ok := hok
  listener := by rw [hlistener]; exact h.listener
  sys := by rw [behind_append, ← h.sys]
  replay := by rw [deedsOf_append, hquiet, List.append_nil, hclients, h.replay]
  clients {i fd c} hholds := by
    have hholds' : Holds d.service i fd c := ⟨hclients ▸ hholds.at_slot, hholds.fd_eq⟩
    obtain ⟨before, since, hopen, htracks, hdeadline⟩ := h.clients hholds'
    refine ⟨before, since ++ more, hopen.append _ ?_ ?_, ?_, hdeadline⟩
    · simp [hquiet, actsOn]
    · simp [hquiet, actsOn]
    · rwa [deedsOf_append, hquiet, List.append_nil]
  deeds {before after deed} hsplit := by
    rcases append_cons_eq_append hsplit.symm with ⟨rest, hlog, -⟩ | ⟨rest, -, hmore⟩
    · exact h.deeds hlog
    · have hmem : deed ∈ deedsOf more :=
        List.mem_filterMap.mpr ⟨.did deed, by rw [hmore]; simp, rfl⟩
      rw [hquiet] at hmem
      cases hmem

/-- So does a round of the status server. -/
theorem Accounted.did (h : Accounted host cfg env s log d) {o : Outside}
    (hnow : o.now = d.sys.world.clock) {service : Service} {events : List ServiceEvent}
    {deeds : List Deed}
    (hround : serviceRound (answer host d.sys) o d.service = .ok (service, events))
    (hdeeds : roundDeeds (answer host d.sys) o d.service = .ok deeds) :
    Accounted host cfg env s (log ++ deeds.map .did) ⟨d.sys, service⟩ := by
  obtain ⟨listener, hlistener⟩ := h.listener
  obtain ⟨_, _, hround', hok', hlistener', -, hfollows⟩ := serviceRound_follows _ o h.ok hlistener
  cases hround.symm.trans hround'
  obtain ⟨_, hdeeds', hlogs⟩ := roundDeeds_logs h.ok hlistener hround
  cases hdeeds.symm.trans hdeeds'
  obtain ⟨accepted, rfl, hopens⟩ := roundDeeds_opens h.ok hlistener hround hdeeds
  refine ⟨hok', ⟨listener, hlistener'.trans hlistener⟩, by rw [behind_did, ← h.sys], ?_, ?_, ?_⟩
  · rw [deedsOf_append, deedsOf_did, List.flatMap_append, hlogs, replay_append, h.replay,
      Option.bind_some, replay_logged, hfollows.replay]
  · intro i fd c' hholds
    rcases serviceRound_holds h.ok hopens hholds with
      ⟨c, hc, hsame, -, hnone, htracks'⟩ | ⟨hdeadline, before, after, rfl, hnone, htracks⟩
    · obtain ⟨before, since, hopen, htracks, hdeadline⟩ := h.clients hc
      have htracks' := htracks' _ htracks
      have hacts : actsOn fd (deedsOf ((d.service.turnDeeds (answer host d.sys) o ++ accepted).map
          .did)) = clientActs (answer host d.sys) (o.turnOf fd) c := by
        rw [deedsOf_did, actsOn_append, actsOn_turnDeeds h.ok hc, hnone, List.append_nil]
      refine ⟨before, _, hopen.append _ ?_ ?_, ?_, hsame.trans hdeadline⟩
      · rw [hacts]
        exact opened_notMem_clientActs
      · rw [hacts]
        exact fun why hmem => htracks'.unclosed why (List.mem_append_right _ hmem)
      · rwa [deedsOf_append, actsOn_append, hacts]
    · refine ⟨log ++ (d.service.turnDeeds (answer host d.sys) o ++ before).map .did,
        after.map .did, ⟨by simp, ?_, ?_⟩, ?_, ?_⟩
      · simp [hnone]
      · simp [hnone]
      · rwa [deedsOf_did, hnone]
      · rw [hdeadline, hnow, behind_did, h.sys]
  · intro before after deed hsplit
    rcases append_cons_eq_append hsplit.symm with ⟨rest, hlog, -⟩ | ⟨rest, rfl, hdid⟩
    · exact h.deeds hlog
    obtain ⟨first, later, hall, rfl, hlater⟩ := List.map_eq_append_iff.mp hdid
    obtain ⟨deed', later, rfl, heq, rfl⟩ := List.map_eq_cons_iff.mp hlater
    cases heq
    rcases append_cons_eq_append hall.symm with ⟨rest, hturns, -⟩ | ⟨rest, -, haccepted⟩
    · obtain ⟨i, c, hc, hacts⟩ := turnDeeds_split h.ok hturns
      obtain ⟨before, since, hopen, htracks, hdeadline⟩ := h.clients hc
      obtain ⟨-, hlate, hanswer⟩ := clientActs_split hacts
      have hserved := clientTurn_served (answer host d.sys) (o.turnOf deed.fd)
        (h.ok.clients.ok c (List.mem_of_getElem? hc.at_slot)) hc.fd_eq htracks
      refine .inr (.inr ⟨before, since ++ first.map .did, hopen.append _ ?_ ?_, ?_, ?_⟩)
      · rw [deedsOf_did]
        refine fun hmem => @opened_notMem_clientActs (answer host d.sys) (o.turnOf deed.fd) c ?_
        rw [hacts]
        exact List.mem_append_left _ hmem
      · rw [deedsOf_did]
        exact hserved.unclosed_before hacts
      · rw [hlate, hdeadline, behind_did, ← h.sys, ← hnow]
        rfl
      · intro response hresponse
        rw [hanswer response hresponse, behind_did, ← h.sys, deedsOf_append, deedsOf_did,
          actsOn_append, received_append, htracks.input_eq]
    · exact (hopens.acts deed (by rw [haccepted]; simp)).imp_right .inl

variable (rounds : List LoopRound) in
/-- Rounds go through, and keep the accounts. -/
theorem mainLoop_accounted (h : Accounted host cfg env s log d) :
    ∃ d' more exit, mainLoop host cfg env rounds d = .ok (d', more, exit) ∧
      Accounted host cfg env s (log ++ more) d' := by
  induction rounds generalizing log d with
  | nil => exact ⟨d, [], none, rfl, by rwa [List.append_nil]⟩
  | cons r rest ih =>
    obtain ⟨listener, hlistener⟩ := h.listener
    obtain ⟨d₁, first, exit, hround, hamounts⟩ :=
      loopRound_amounts host cfg env r h.ok hlistener
    have h₁ : Accounted host cfg env s (log ++ first) d₁ := by
      cases hamounts with
      | stops log' hquiet exit slots hslots =>
        exact h.quiet hquiet ⟨h.ok.limit_pos, h.ok.limit_le, h.ok.clients, hslots⟩ rfl rfl
      | serves log' hquiet hserved hdeeds =>
        rw [← List.append_assoc]
        exact (h.quiet hquiet h.ok rfl rfl).did rfl hserved hdeeds
    simp only [mainLoop, hround, ok_bind]
    cases exit with
    | some exit => exact ⟨d₁, first, some exit, rfl, h₁⟩
    | none =>
      obtain ⟨d', more, exit, hrest, h'⟩ := ih h₁
      simp only [Option.isSome_none, Bool.false_eq_true, if_false, hrest, ok_bind]
      exact ⟨d', first ++ more, exit, rfl, by rwa [← List.append_assoc]⟩

variable (s) in
theorem accounted_start (listener : Nat) {limit : Nat} (hlimit : 1 ≤ limit ∧ limit ≤ serviceMaxClients) :
    Accounted host cfg env s [] ⟨s, serviceInit listener limit⟩ where
  ok := serviceInit_ok listener hlimit
  listener := ⟨listener, rfl⟩
  sys := rfl
  replay := by
    rw [openFds_serviceInit]
    rfl
  clients {i fd c} hholds := by
    have hmem : fd ∈ openFds (serviceInit listener limit).clients :=
      List.mem_filterMap.mpr ⟨c, List.mem_of_getElem? hholds.at_slot, hholds.fd_eq⟩
    rw [openFds_serviceInit] at hmem
    cases hmem
  deeds h := by simp at h

end Log

namespace Sample

def nobody : HostInfo := ⟨[], [], [], [], 0, [], 0⟩

def asked : CStr := "GTMC 02:00:00:00:00:01\r\n".toList

def told : CStr := "RESULT: OK\nBODY: 10.0.0.2@gre0\n".toList

/-- Nothing happens. -/
def calm : LoopRound where
  elapsed := 0
  polled := .ready
  signalled := false
  signals := []
  capture := .none
  captures := []
  outside := { sends [] with poll _ := .none }

/-- A frame is captured while a client connects, who then asks about its address. -/
def enquiry : List LoopRound :=
  [{ calm with
      capture := ⟨true, false, false, false, false⟩
      captures := [.frame false frame]
      outside := arrival },
    { calm with outside := sends asked }]

theorem deedsOf_enquiry {d : Daemon} {log : List Happening} {exit : Option Ret}
    (h : mainLoop nobody config obliging enquiry ⟨start obliging, serviceInit 3 1⟩ =
      .ok (d, log, exit)) :
    deedsOf log = [⟨4, .opened⟩, ⟨4, .received asked⟩, ⟨4, .answered told⟩] := by
  have heval : (mainLoop nobody config obliging enquiry ⟨start obliging, serviceInit 3 1⟩).map
      (fun r => deedsOf r.2.1) =
      .ok [⟨4, .opened⟩, ⟨4, .received asked⟩, ⟨4, .answered told⟩] := by
    decide +kernel
  rw [h] at heval
  exact Except.ok.inj heval

theorem enquiry_answered {log : List Happening}
    (h : deedsOf log = [⟨4, .opened⟩, ⟨4, .received asked⟩, ⟨4, .answered told⟩]) :
    ∃ before after, log = before ++ .did ⟨4, .answered told⟩ :: after ∧
      deedsOf before = [⟨4, .opened⟩, ⟨4, .received asked⟩] := by
  have hmem : ⟨4, .answered told⟩ ∈ deedsOf log := by rw [h]; simp
  obtain ⟨happening, hmem, heq⟩ := List.mem_filterMap.mp hmem
  cases happening with
  | took | reopened => cases heq
  | did deed =>
    cases heq
    obtain ⟨before, after, rfl⟩ := List.append_of_mem hmem
    refine ⟨before, after, rfl, ?_⟩
    rw [deedsOf_append] at h
    generalize deedsOf before = deeds at h ⊢
    have hrest : deedsOf (.did ⟨4, .answered told⟩ :: after) =
        ⟨4, .answered told⟩ :: deedsOf after := rfl
    rw [hrest] at h
    rcases deeds with _ | ⟨first, _ | ⟨second, _ | ⟨third, deeds⟩⟩⟩
    · simp at h
    · simp at h
    · obtain ⟨rfl, rfl, -⟩ : first = _ ∧ second = _ ∧ _ := by simpa using h
      rfl
    · simp at h

end Sample

/-- The response to a line tells that `mac` belongs to `remote`. What is between the
    tokens of the line, and how the client writes its address, does not matter. -/
inductive Tells (line response : CStr) (remote : InAddr) (mac : CStr) : Prop
  | found (m name : CStr) (htokens : strtok line = ["GTMC".toList, m])
    (hentry : (okBody response).map readEntry = some (inetNtop remote, name))
    (hmac : mac = m.map toLower)
  | listed (a body : CStr) (htokens : strtok line = ["LMIP".toList, a])
    (haddr : inetPton a = some remote) (hbody : okBody response = some body) (hne : body ≠ [])
    (hmac : mac ∈ body.splitOn ';')

section Told

variable {host : HostInfo} {cfg : SoftgredConfig} {env : Env} {s : Sys} {command : CStr → CStr}
  {input body line : CStr} {remote : InAddr} {mac : CStr}

theorem okBody_requestTooLarge : okBody requestTooLarge = none := by decide +kernel

theorem okBody_responseTooLarge : okBody responseTooLarge = none := by decide +kernel

/-- A response that is OK is the answer to the line. -/
theorem okBody_respond (h : okBody (respond command input) = some body) :
    respond command input = command (input.takeWhile (· != '\n')) := by
  rw [respond] at h ⊢
  split at h
  · rw [capResponse_requestTooLarge, okBody_requestTooLarge] at h
    cases h
  · next hline =>
    rw [if_neg hline]
    rw [capResponse] at h ⊢
    split at h
    · rw [okBody_responseTooLarge] at h
      cases h
    · next hshort => rw [if_neg hshort]

theorem okBody_resultInvalid : okBody resultInvalid = none := by decide +kernel

/-- An answer that is OK is one to a line that the source looks at. -/
theorem length_of_okBody (h : okBody (answer host s line) = some body) :
    line.length < serviceMaxRequest := by
  by_contra hlong
  have hinvalid : answer host s line = resultInvalid := by
    rw [answer, serviceCommand, if_pos (Nat.not_lt.mp hlong)]
    rfl
  rw [hinvalid, okBody_resultInvalid] at h
  cases h

/-- Whatever is between its tokens, `GTMC` is answered as with one blank. -/
theorem gtmc_of_tokens {m : CStr} {e : CStr × CStr} (htokens : strtok line = ["GTMC".toList, m])
    (hentry : (okBody (answer host s line)).map readEntry = some e) :
    MacText m ∧ gtmc host s m = some e := by
  obtain ⟨body, hbody, -⟩ := Option.map_eq_some_iff.mp hentry
  have hanswer := @answer_of_pair host s _ _ _ (length_of_okBody hbody) htokens
  rw [if_neg (by decide), if_pos rfl] at hanswer
  have hm : MacText m := by
    cases hvalid : validMac m with
    | none =>
      have hinvalid : answer host s line = resultInvalid := by
        rw [hanswer, findTunnel, hvalid]
        rfl
      rw [hinvalid, okBody_resultInvalid] at hbody
      cases hbody
    | some key =>
      obtain ⟨mac, -, htext⟩ := (validMac_iff.mp hvalid).1.macText_eq
      exact ⟨mac, htext.symm⟩
  obtain ⟨-, hlength, htoken⟩ := hm.validMac
  refine ⟨hm, ?_⟩
  rw [gtmc, answer_pair gtmc_isToken htoken
    (by have : "GTMC".toList.length = 4 := rfl; omega), if_neg (by decide), if_pos rfl, ← hanswer]
  exact hentry

/-- So is `LMIP`, with its address in the one form that is printed. -/
theorem lmip_of_tokens {a : CStr} (htokens : strtok line = ["LMIP".toList, a])
    (haddr : inetPton a = some remote) (hbody : okBody (answer host s line) = some body) :
    answer host s line = answer host s ("LMIP".toList ++ ' ' :: inetNtop remote) := by
  have hlength := length_inetNtop_le remote
  rw [answer_of_pair (length_of_okBody hbody) htokens,
    answer_pair lmip_isToken (inetNtop_isToken remote)
      (by have : "LMIP".toList.length = 4 := rfl; omega),
    if_pos rfl, if_pos rfl, listMacs, listMacs, haddr, inetPton_inetNtop]

/-- An address that an answer tells of is that of a tunnel. -/
theorem Tells.inTable (hcon : s.Consistent) (hlegible : s.Legible)
    (h : Tells line (answer host s line) remote mac) :
    ∃ p tun, s.InTable remote p tun ∧ tun.macs.contains mac = true := by
  cases h with
  | found m name htokens hentry hmac =>
    subst hmac
    obtain ⟨hm, hgtmc⟩ := gtmc_of_tokens htokens hentry
    obtain ⟨remote', p, tun, hin, hmac, heq⟩ := (@gtmc_eq_some_iff host _ hcon _ hm _).mp hgtmc
    cases inetNtop_injective (congrArg Prod.fst heq)
    exact ⟨p, tun, hin, hmac⟩
  | listed a body htokens haddr hbody hne hmac =>
    have hlist : lmip host s (inetNtop remote) = some (body.splitOn ';') := by
      rw [lmip, ← lmip_of_tokens htokens haddr hbody, hbody, Option.map_some, if_neg hne]
    obtain ⟨p, tun, hin, hmacs⟩ := (lmip_eq_some_iff hcon hlegible).mp hlist
    rw [hmacs, mem_sortMacs, mem_keys_iff] at hmac
    exact ⟨p, tun, hin, hmac⟩

/-- Where an input stands in a log. -/
theorem inputsOf_eq_append_cons {log : List Happening} {before after : List Input} {input : Input}
    (h : inputsOf log = before ++ input :: after) :
    ∃ prior later, log = prior ++ .took input :: later ∧ inputsOf prior = before ∧
      inputsOf later = after := by
  obtain ⟨prior, rest, rfl, hprior, hrest⟩ := List.filterMap_eq_append_iff.mp h
  obtain ⟨quiet, happening, later, rfl, hquiet, hinput, hlater⟩ := List.filterMap_eq_cons_iff.mp hrest
  cases happening with
  | did | reopened => cases hinput
  | took input' =>
    cases hinput
    refine ⟨prior ++ quiet, later, by simp, ?_, hlater⟩
    rw [inputsOf_append, inputsOf, hprior, inputsOf, List.filterMap_eq_nil_iff.mpr hquiet,
      List.append_nil]

theorem inputs_fromLoop {inputs : List Input} :
    ∀ call ∈ inputs.flatMap Input.calls, call.fromLoop = true := by
  intro call hcall
  obtain ⟨input, -, hcall⟩ := List.mem_flatMap.mp hcall
  cases input with
  | frame data =>
    rw [Input.calls] at hcall
    split at hcall
    · cases List.mem_singleton.mp hcall
      rfl
    · cases hcall
  | delall | wait =>
    cases List.mem_singleton.mp hcall
    rfl

end Told

/-- Some captured frame in the log carries `mac` from `remote`, and no cleanup was
    completed after it. -/
def Captured (cfg : SoftgredConfig) (env : Env) (s : Sys) (log : List Happening) (remote : InAddr)
    (mac : CStr) : Prop :=
  ∃ prior data later, log = prior ++ .took (.frame data) :: later ∧ Carries cfg data remote mac ∧
    Uncleared cfg env ((inputsOf later).flatMap Input.calls)
      (Behind cfg env s (prior ++ [.took (.frame data)]))

/-- From the wire to the client: in every run of the main loop, whatever address a
    response tells of was carried by a frame that was captured before the response
    was computed, and after the last complete cleanup. -/
theorem told_addresses_were_captured (host : HostInfo) (cfg : SoftgredConfig) (env : Env)
    (w : World) (listener limit : Nat) (hlimit : 1 ≤ limit ∧ limit ≤ serviceMaxClients)
    (rounds : List LoopRound) :
    ∃ d log exit, mainLoop host cfg env rounds ⟨provisionInit w, serviceInit listener limit⟩ =
        .ok (d, log, exit) ∧
      ∀ before fd response after, log = before ++ .did ⟨fd, .answered response⟩ :: after →
        ∃ earlier since, OpenSince before earlier since fd ∧ ∀ remote mac,
          Tells ((received (actsOn fd (deedsOf since))).takeWhile (· != '\n')) response remote mac →
            Admissible cfg remote ∧ Captured cfg env (provisionInit w) before remote mac := by
  obtain ⟨d, log, exit, hrun, h⟩ := mainLoop_accounted rounds
    (accounted_start (provisionInit w) listener hlimit)
  refine ⟨d, log, exit, hrun, fun before fd response after hlog => ?_⟩
  rcases h.deeds hlog with hopened | hrefused | ⟨earlier, since, hexplained⟩
  · cases hopened
  · cases hrefused
  refine ⟨earlier, since, hexplained.openSince, fun remote mac htells => ?_⟩
  have hresponse := hexplained.answered response rfl
  have htables : (Behind cfg env (provisionInit w) before).Tables cfg :=
    run_tables cfg env _ ⟨provisionInit_tables cfg w, provisionInit_idle w⟩
  have hlegible : (Behind cfg env (provisionInit w) before).Legible :=
    run_legible cfg env w inputs_fromLoop
  have hanswer : response = answer host (Behind cfg env (provisionInit w) before)
      ((received (actsOn fd (deedsOf since))).takeWhile (· != '\n')) := by
    have hok : ∃ body, okBody response = some body := by
      cases htells with
      | found m name htokens hentry =>
        obtain ⟨body, hbody, -⟩ := Option.map_eq_some_iff.mp hentry
        exact ⟨body, hbody⟩
      | listed a body htokens haddr hbody => exact ⟨body, hbody⟩
    obtain ⟨body, hbody⟩ := hok
    rw [hresponse] at hbody ⊢
    exact okBody_respond hbody
  rw [hanswer] at htells
  obtain ⟨p, tun, hin, hmac⟩ := htells.inTable htables.1.consistent hlegible
  have hremote : tun.abs.remote = remote := htables.1.ipRemote_eq hin.lookup hin.record
  obtain ⟨hadmissible, hmacs⟩ :=
    feed_comesFrom cfg env w (inputsOf before) p _ (heap_abs_of_some hin.record)
  rw [hremote] at hadmissible hmacs
  obtain ⟨prior', data, later', hsplit, hcarries, huncleared⟩ :=
    hmacs mac (Hashmap.mem_keySet.mpr hmac)
  obtain ⟨prior, later, hbefore, rfl, rfl⟩ := inputsOf_eq_append_cons hsplit
  refine ⟨hadmissible, prior, data, later, hbefore, hcarries, ?_⟩
  rw [Behind, inputsOf_append]
  exact huncleared

/-- The request and the answer to it, between the frame and the client. -/
theorem told_addresses_were_captured_enquiry :
    ∃ before, Captured Sample.config Sample.obliging (Sample.start Sample.obliging) before
      (InAddr.ofBytes 10 0 0 2) "02:00:00:00:00:01".toList := by
  obtain ⟨d, log, exit, hrun, htold⟩ := told_addresses_were_captured Sample.nobody Sample.config
    Sample.obliging _ 3 1 (by decide) Sample.enquiry
  obtain ⟨before, after, hlog, hbefore⟩ := Sample.enquiry_answered (Sample.deedsOf_enquiry hrun)
  obtain ⟨earlier, since, hopen, htold⟩ := htold before 4 _ after hlog
  have hsince : deedsOf since = [⟨4, .received Sample.asked⟩] := by
    rw [hopen.log_eq, deedsOf_append] at hbefore
    generalize deedsOf earlier = deeds at hbefore
    have hrest : deedsOf (.did ⟨4, .opened⟩ :: since) = ⟨4, .opened⟩ :: deedsOf since := rfl
    rw [hrest] at hbefore
    rcases deeds with _ | ⟨first, _ | ⟨second, deeds⟩⟩
    · simpa using hbefore
    · simp at hbefore
    · simp at hbefore
  refine ⟨before, (htold (InAddr.ofBytes 10 0 0 2) _ ?_).2⟩
  rw [hsince]
  refine .found "02:00:00:00:00:01".toList "gre0".toList ?_ ?_ ?_
  · decide +kernel
  · decide +kernel
  · decide +kernel

end Softgre
