-- SUMMARY: The client table over all rounds: slots, limits, and descriptors opened and closed once.
import Softgre.Service.Clients
import Mathlib.Data.Finset.Card

/-!
# The client table

A turn either keeps the client's descriptor or closes it and clears the slot.
`Replays` follows the descriptors through the events of a run: one that is
accepted was not open, and one that is closed was.
-/

namespace Softgre

-- ---------------------------------------------------------------------------
-- One turn
-- ---------------------------------------------------------------------------

/-- What holds of a slot between rounds. -/
structure Client.Ok (c : Client) : Prop where
  free : c.fd = none → c.used = 0 ∧ c.sent = 0 ∧ c.response = none
  reading : c.response = none → c.used ≤ 254 ∧ c.sent = 0
  answering : ∀ {response}, c.response = some response →
    c.sent ≤ response.length ∧ response.length ≤ serviceMaxResponse

theorem Client.free_ok : Client.free.Ok where
  free _ := ⟨rfl, rfl, rfl⟩
  reading _ := ⟨Nat.zero_le _, rfl⟩
  answering h := by cases h

/-- An event of the client that holds `fd` that keeps the descriptor, with a
    sensible buffer if it is a `recv`. -/
def ServiceEvent.Quiet (fd : Nat) : ServiceEvent → Prop
  | .recv length => 0 < length
  | .answered holder _ => holder = some fd
  | _ => False

/-- What a turn, or a part of it, does to a client that holds `fd`. -/
inductive Turned (fd : Nat) : Client → List ServiceEvent → Prop
  | kept {c events} (hok : c.Ok) (hfd : c.fd = some fd) (hquiet : ∀ e ∈ events, e.Quiet fd) :
    Turned fd c events
  | closed {events} (hquiet : ∀ e ∈ events, e.Quiet fd) : Turned fd .free (events ++ [.closed fd])

section Turn

variable {command : CStr → CStr} {t : Turn} {c : Client} {fd : Nat}

theorem Turned.close {events : List ServiceEvent} (hfd : c.fd = some fd)
    (hquiet : ∀ e ∈ events, e.Quiet fd) :
    Turned fd (closeClient c).1 (events ++ (closeClient c).2) := by
  rw [closeClient, hfd]
  exact .closed hquiet

theorem Turned.close_nil (hfd : c.fd = some fd) : Turned fd (closeClient c).1 (closeClient c).2 :=
  List.nil_append (closeClient c).2 ▸ Turned.close hfd (by simp)

theorem Turned.prepend {events before : List ServiceEvent} (h : Turned fd c events)
    (hbefore : ∀ e ∈ before, e.Quiet fd) : Turned fd c (before ++ events) := by
  cases h with
  | kept hok hfd hquiet =>
    refine .kept hok hfd fun e he => ?_
    exact (List.mem_append.mp he).elim (hbefore e) (hquiet e)
  | closed hquiet =>
    rw [← List.append_assoc]
    refine .closed fun e he => ?_
    exact (List.mem_append.mp he).elim (hbefore e) (hquiet e)

theorem length_capResponse_le (response : CStr) :
    (capResponse response).length ≤ serviceMaxResponse := by
  rw [capResponse]
  split
  · decide
  · exact Nat.le_of_not_gt ‹_›

theorem respond_le (input : CStr) : (respond command input).length ≤ serviceMaxResponse :=
  length_capResponse_le _

/-- What a part of a turn returns: it stops early, or leaves an open client. -/
def Passes (fd : Nat) (r : Client × List ServiceEvent × Bool) : Prop :=
  Turned fd r.1 r.2.1 ∧ (r.2.2 = true → r.1.fd = some fd ∨ r.1 = .free)

theorem Passes.close {events : List ServiceEvent} {more : Bool} (hfd : c.fd = some fd)
    (hquiet : ∀ e ∈ events, e.Quiet fd) :
    Passes fd ((closeClient c).1, events ++ (closeClient c).2, more) :=
  ⟨.close hfd hquiet, fun _ => .inr rfl⟩

theorem Passes.close_nil {more : Bool} (hfd : c.fd = some fd) :
    Passes fd ((closeClient c).1, (closeClient c).2, more) :=
  ⟨.close_nil hfd, fun _ => .inr rfl⟩

theorem Passes.kept {events : List ServiceEvent} {more : Bool} (hok : c.Ok) (hfd : c.fd = some fd)
    (hquiet : ∀ e ∈ events, e.Quiet fd) : Passes fd (c, events, more) :=
  ⟨.kept hok hfd hquiet, fun _ => .inl hfd⟩

variable (command) in
theorem accumulate_passes {bytes : CStr} (hok : c.Ok) (hfd : c.fd = some fd)
    (hnone : c.response = none) (hle : bytes.length ≤ c.room) :
    Passes fd (accumulate command bytes c) := by
  obtain ⟨hused, hsent⟩ := hok.reading hnone
  have hopen : c.fd ≠ none := by rw [hfd]; exact Option.some_ne_none fd
  simp only [accumulate]
  split
  · exact .close_nil hfd
  · split
    · refine .kept ⟨fun h => absurd h hopen, fun h => (by cases h), ?_⟩ hfd
        (by simpa [ServiceEvent.Quiet] using hfd)
      intro response h
      cases h
      exact ⟨by rw [hsent]; exact Nat.zero_le _, respond_le _⟩
    · next hwait =>
      refine .kept ⟨fun h => absurd h hopen, fun _ => ⟨?_, hsent⟩, ?_⟩ hfd (by simp)
      · simp only [Bool.or_eq_true, not_or, beq_iff_eq] at hwait
        have hne := hwait.2
        simp only [List.length_append, serviceMaxRequest] at hne
        simp only [Client.room, Client.used, serviceMaxRequest, List.length_append] at *
        omega
      · intro response h
        rw [show c.response = some response from h] at hnone
        cases hnone

variable (command t) in
theorem receive_passes (hok : c.Ok) (hfd : c.fd = some fd) : Passes fd (receive command t c) := by
  rw [receive]
  split
  · next hreads =>
    have hnone : c.response = none := by simpa using (Bool.and_eq_true_iff.mp hreads).1
    have hroom : 0 < c.room := by
      have hused := (hok.reading hnone).1
      rw [Client.room, serviceMaxRequest]
      omega
    have hrecv : ∀ e ∈ [ServiceEvent.recv c.room], e.Quiet fd := by
      simpa [ServiceEvent.Quiet] using hroom
    split
    · exact .kept hok hfd hrecv
    · exact .close hfd hrecv
    · next bytes hbytes =>
      obtain ⟨hturned, hmore⟩ :=
        accumulate_passes command hok hfd hnone (t.recv_le hbytes)
      exact ⟨hturned.prepend hrecv, hmore⟩
  · exact .kept hok hfd (by simp)

variable (t) in
theorem transmit_passes (hok : c.Ok) (hfd : c.fd = some fd) : Passes fd (transmit t c) := by
  rw [transmit]
  cases hresponse : c.response with
  | none => exact .kept hok hfd (by simp)
  | some response =>
    obtain ⟨hsent, hlength⟩ := hok.answering hresponse
    simp only
    split
    · split
      · exact .kept hok hfd (by simp)
      · exact .close_nil hfd
      · exact .close_nil hfd
      · next count hcount hsend =>
        have hle := t.send_le hsend
        have hopen : c.fd ≠ none := by rw [hfd]; exact Option.some_ne_none fd
        split
        · exact .close_nil (c := { c with sent := c.sent + count }) hfd
        · refine .kept ⟨fun h => absurd h hopen, fun h => (by cases h), fun h => ?_⟩ hfd (by simp)
          cases h
          exact ⟨by simp only; omega, hlength⟩
    · exact .kept hok hfd (by simp)

theorem finish_turned (hok : c.Ok) (hfd : c.fd = some fd) :
    Turned fd (finish c).1 (finish c).2 := by
  rw [finish]
  split
  · exact .close_nil hfd
  · exact .kept hok hfd (by simp)

/-- The rest of a turn, behind a part that went through. -/
theorem Turned.bind {events events' : List ServiceEvent} {c' : Client} (h : Turned fd c events)
    (hfree : c = .free → c' = .free ∧ events' = [])
    (hkept : c.Ok → c.fd = some fd → Turned fd c' events') : Turned fd c' (events ++ events') := by
  cases h with
  | kept hok hfd hquiet => exact (hkept hok hfd).prepend hquiet
  | closed hquiet =>
    obtain ⟨rfl, rfl⟩ := hfree rfl
    rw [List.append_nil]
    exact .closed hquiet

variable (command t) in
theorem clientTurn_turned (hok : c.Ok) (hfd : c.fd = some fd) :
    Turned fd (clientTurn command t c).1 (clientTurn command t c).2 := by
  rw [clientTurn]
  split
  · exact .close_nil hfd
  obtain ⟨hreceived, -⟩ := receive_passes command t hok hfd
  generalize receive command t c = r at hreceived ⊢
  obtain ⟨c₁, received, more⟩ := r
  cases more with
  | false => exact hreceived
  | true =>
    have htransmitted (hok₁ : c₁.Ok) (hfd₁ : c₁.fd = some fd) :
        Turned fd (transmit t c₁).1 (transmit t c₁).2.1 :=
      (transmit_passes t hok₁ hfd₁).1
    have hidle : c₁ = .free → transmit t c₁ = (.free, [], true) := by rintro rfl; rfl
    have hboth : Turned fd (transmit t c₁).1 (received ++ (transmit t c₁).2.1) :=
      hreceived.bind (fun h => by rw [hidle h]; exact ⟨rfl, rfl⟩) htransmitted
    simp only [Bool.not_true, Bool.false_eq_true, if_false]
    generalize transmit t c₁ = r at hboth ⊢
    obtain ⟨c₂, transmitted, more⟩ := r
    cases more with
    | false => exact hboth
    | true =>
      refine hboth.bind (fun h => ?_) fun hok₂ hfd₂ => finish_turned hok₂ hfd₂
      rw [show c₂ = .free from h]
      exact ⟨rfl, rfl⟩

end Turn

-- ---------------------------------------------------------------------------
-- Descriptors
-- ---------------------------------------------------------------------------

/-- The open descriptors after `events`, unless one of them accepts an open
    descriptor or closes one that is not. -/
def replay : Finset Nat → List ServiceEvent → Option (Finset Nat)
  | fds, [] => some fds
  | fds, .accepted fd :: rest => if fd ∈ fds then none else replay (insert fd fds) rest
  | fds, .closed fd :: rest => if fd ∈ fds then replay (fds.erase fd) rest else none
  | fds, _ :: rest => replay fds rest

theorem replay_append (fds : Finset Nat) (events more : List ServiceEvent) :
    replay fds (events ++ more) = (replay fds events).bind fun fds' => replay fds' more := by
  induction events generalizing fds with
  | nil => rfl
  | cons e rest ih =>
    cases e with
    | accepted fd =>
      simp only [List.cons_append, replay]
      split
      · rfl
      · exact ih _
    | closed fd =>
      simp only [List.cons_append, replay]
      split
      · exact ih _
      · rfl
    | applied | recv | answered => exact ih _

theorem replay_quiet {fd : Nat} {events : List ServiceEvent} (h : ∀ e ∈ events, e.Quiet fd)
    (fds : Finset Nat) : replay fds events = some fds := by
  induction events with
  | nil => rfl
  | cons e rest ih =>
    obtain ⟨he, hrest⟩ := List.forall_mem_cons.mp h
    cases e with
    | recv | answered => exact ih hrest
    | applied | accepted | closed => cases he

/-- The slots below the limit hold distinct descriptors, and all others are
    free. -/
structure ClientsOk (limit : Nat) (clients : List Client) : Prop where
  length : clients.length = serviceMaxClients
  ok : ∀ c ∈ clients, c.Ok
  above : ∀ {i c}, limit ≤ i → clients[i]? = some c → c.fd = none
  distinct : (openFds clients).Nodup

theorem openFds_append (a b : List Client) : openFds (a ++ b) = openFds a ++ openFds b :=
  List.filterMap_append

theorem openFds_cons (c : Client) (b : List Client) :
    openFds (c :: b) = c.fd.toList ++ openFds b := by
  rw [openFds, List.filterMap_cons]
  cases c.fd <;> rfl

theorem toFinset_middle (a b : List Nat) (fd : Nat) :
    (a ++ fd :: b).toFinset = insert fd (a ++ b).toFinset := by
  rw [List.toFinset_eq_of_perm _ _ List.perm_middle, List.toFinset_cons]

section Table

variable {limit i fd : Nat} {clients : List Client} {c c' : Client} {events : List ServiceEvent}

theorem exists_split (h : clients[i]? = some c) :
    ∃ a b, clients = a ++ c :: b ∧ a.length = i ∧ ∀ c', clients.set i c' = a ++ c' :: b := by
  obtain ⟨hlt, rfl⟩ := List.getElem?_eq_some_iff.mp h
  refine ⟨clients.take i, clients.drop (i + 1), ?_, ?_, ?_⟩
  · rw [List.getElem_cons_drop, List.take_append_drop]
  · rw [List.length_take]
    omega
  · intro c'
    exact List.set_eq_take_append_cons_drop.trans (if_pos hlt)

/-- Writing a slot below the limit keeps the table in order, if the descriptors
    stay distinct. -/
theorem ClientsOk.set (h : ClientsOk limit clients) (hi : i < limit) (hok : c'.Ok)
    (hdistinct : (openFds (clients.set i c')).Nodup) : ClientsOk limit (clients.set i c') where
  length := by rw [List.length_set, h.length]
  ok := by
    intro x hx
    rcases List.mem_or_eq_of_mem_set hx with hx | rfl
    · exact h.ok x hx
    · exact hok
  above := by
    intro j x hj hx
    rw [List.getElem?_set_ne (by omega)] at hx
    exact h.above hj hx
  distinct := hdistinct

/-- A turn at slot `i`. -/
theorem ClientsOk.turn (h : ClientsOk limit clients) (hi : i < limit)
    (hc : clients[i]? = some c) (hfd : c.fd = some fd) (hturned : Turned fd c' events) :
    ClientsOk limit (clients.set i c') ∧
      replay (openFds clients).toFinset events = some (openFds (clients.set i c')).toFinset := by
  obtain ⟨a, b, hclients, -, hset⟩ := exists_split hc
  have hdistinct := h.distinct
  have hopen : openFds clients = openFds a ++ fd :: openFds b := by
    rw [hclients, openFds_append, openFds_cons, hfd]
    rfl
  cases hturned with
  | kept hok hfd' hquiet =>
    have hopen' : openFds (clients.set i c') = openFds clients := by
      rw [hset, hopen, openFds_append, openFds_cons, hfd']
      rfl
    refine ⟨h.set hi hok (by rwa [hopen']), ?_⟩
    rw [hopen', replay_quiet hquiet]
  | closed hquiet =>
    have hopen' : openFds (clients.set i .free) = openFds a ++ openFds b := by
      rw [hset, openFds_append, openFds_cons]
      rfl
    rw [hopen, List.nodup_middle, List.nodup_cons] at hdistinct
    have hmem : fd ∈ (openFds clients).toFinset := by simp [hopen]
    refine ⟨h.set hi Client.free_ok (by rw [hopen']; exact hdistinct.2), ?_⟩
    rw [replay_append, replay_quiet hquiet, Option.bind_some, replay, if_pos hmem, replay, hopen',
      hopen, toFinset_middle, Finset.erase_insert (by simpa using hdistinct.1)]

/-- A connection that gets the free slot `i`. -/
theorem ClientsOk.opened (h : ClientsOk limit clients) (hi : i < limit)
    (hc : clients[i]? = some c) (hfree : c.fd = none) (hfresh : fd ∉ openFds clients)
    (deadline : Int) :
    ClientsOk limit (clients.set i { c with fd := some fd, deadline }) ∧
      replay (openFds clients).toFinset [.accepted fd] =
        some (openFds (clients.set i { c with fd := some fd, deadline })).toFinset := by
  obtain ⟨a, b, hclients, -, hset⟩ := exists_split hc
  have hdistinct := h.distinct
  have hopen : openFds clients = openFds a ++ openFds b := by
    rw [hclients, openFds_append, openFds_cons, hfree]
    rfl
  have hopen' : openFds (clients.set i { c with fd := some fd, deadline }) =
      openFds a ++ fd :: openFds b := by
    rw [hset, openFds_append, openFds_cons]
    rfl
  have hok := h.ok c (List.mem_of_getElem? hc)
  rw [hopen] at hdistinct hfresh
  refine ⟨h.set hi ⟨fun hnone => (by cases hnone), hok.reading, hok.answering⟩ ?_, ?_⟩
  · rw [hopen', List.nodup_middle, List.nodup_cons]
    exact ⟨hfresh, hdistinct⟩
  · rw [replay, if_neg (by rwa [List.mem_toFinset, hopen]), replay, hopen', hopen, toFinset_middle]

end Table

end Softgre
