-- SUMMARY: Rounds of the status server: what polling lists, who takes a turn, the invariant.
import Softgre.Service.Table

/-!
# Rounds

`service_pollfds` writes the open slots and their descriptors side by side, so
that in `service_dispatch` each of them takes its turn with the events polled for
its own descriptor.
-/

namespace Softgre

-- ---------------------------------------------------------------------------
-- Writing an array from a position on
-- ---------------------------------------------------------------------------

section Overwrite

variable {α : Type} {l xs : List α} {k j : Nat}

/-- `xs` written over `l` from position `k` on. -/
def overwrite (l : List α) (k : Nat) (xs : List α) : List α :=
  l.take k ++ xs ++ l.drop (k + xs.length)

theorem overwrite_nil (l : List α) (k : Nat) : overwrite l k [] = l := by
  simp [overwrite]

theorem overwrite_cons (hk : k < l.length) (x : α) (xs : List α) :
    overwrite (l.set k x) (k + 1) xs = overwrite l k (x :: xs) := by
  have hlength : k + 1 + xs.length = k + (x :: xs).length := by rw [List.length_cons]; omega
  rw [overwrite, overwrite, hlength, List.drop_set_of_lt (by rw [List.length_cons]; omega),
    List.take_set, List.take_succ_eq_append_getElem hk, List.set_append_right _ _ (by simp)]
  simp [Nat.min_eq_left (Nat.le_of_lt hk)]

theorem length_overwrite (h : k + xs.length ≤ l.length) :
    (overwrite l k xs).length = l.length := by
  simp only [overwrite, List.length_append, List.length_take, List.length_drop]
  omega

theorem getElem?_overwrite (h : k + xs.length ≤ l.length) (hj : j < xs.length) :
    (overwrite l k xs)[k + j]? = xs[j]? := by
  have hlength : (l.take k).length = k := by rw [List.length_take]; omega
  rw [overwrite, List.append_assoc, List.getElem?_append_right (by omega), hlength,
    Nat.add_sub_cancel_left, List.getElem?_append_left hj]

end Overwrite

theorem ok_bind {α β : Type} (a : α) (f : α → Except Fault β) :
    ((.ok a : Except Fault α) >>= f) = f a :=
  rfl

theorem getAt_eq {α : Type} {l : List α} {i : Nat} {a : α} (h : l[i]? = some a) :
    getAt l i = .ok a := by
  rw [getAt, h]

theorem setAt_eq {α : Type} {l : List α} {i : Nat} (a : α) (h : i < l.length) :
    setAt l i a = .ok (l.set i a) :=
  if_pos h

-- ---------------------------------------------------------------------------
-- Polling
-- ---------------------------------------------------------------------------

/-- The entry of a client in `fds`. -/
def Client.pollFd (c : Client) : PollFd := ⟨c.fd, c.response.isSome, .none⟩

/-- The client in a slot. -/
def clientAt (clients : List Client) (i : Nat) : Client := clients.getD i .free

/-- The slots among `l` that hold a connection. -/
def openSlots (clients : List Client) (l : List Nat) : List Nat :=
  l.filter fun i => (clientAt clients i).isOpen

section Poll

variable {clients : List Client} {slots : List Nat} {fds : List PollFd} {k : Nat}

theorem getAt_clientAt {i : Nat} (hi : i < clients.length) :
    getAt clients i = .ok (clientAt clients i) := by
  refine getAt_eq ?_
  rw [clientAt, List.getD_eq_getElem?_getD, List.getElem?_eq_getElem hi]
  rfl

variable (clients slots fds k) in
theorem pollClients_eq (l : List Nat) (hl : ∀ i ∈ l, i < clients.length)
    (hslots : k + l.length ≤ slots.length) (hfds : k + 1 + l.length ≤ fds.length) :
    l.foldlM (pollClient clients) (slots, fds, k + 1) =
      .ok (overwrite slots k (openSlots clients l),
        overwrite fds (k + 1) ((openSlots clients l).map fun i => (clientAt clients i).pollFd),
        k + 1 + (openSlots clients l).length) := by
  induction l generalizing slots fds k with
  | nil => simp [openSlots, overwrite_nil]; rfl
  | cons i rest ih =>
    obtain ⟨hi, hrest⟩ := List.forall_mem_cons.mp hl
    rw [List.length_cons] at hslots hfds
    rw [List.foldlM_cons]
    by_cases hopen : (clientAt clients i).isOpen = true
    · have hstep : pollClient clients (slots, fds, k + 1) i =
          .ok (slots.set k i, fds.set (k + 1) (clientAt clients i).pollFd, k + 1 + 1) := by
        simp only [pollClient, getAt_clientAt hi, ok_bind, hopen, if_true,
          Nat.add_sub_cancel, setAt_eq _ (show k < slots.length by omega),
          setAt_eq _ (show k + 1 < fds.length by omega)]
        rfl
      have hcons : openSlots clients (i :: rest) = i :: openSlots clients rest :=
        List.filter_cons_of_pos hopen
      rw [hstep, ok_bind, ih _ _ _ hrest (by rw [List.length_set]; omega)
        (by rw [List.length_set]; omega), overwrite_cons (by omega), overwrite_cons (by omega),
        hcons, List.map_cons, List.length_cons, Nat.add_assoc (k + 1) 1, Nat.add_comm 1]
    · have hstep : pollClient clients (slots, fds, k + 1) i = .ok (slots, fds, k + 1) := by
        simp only [pollClient, getAt_clientAt hi, ok_bind, hopen, Bool.false_eq_true, if_false]
        rfl
      have hcons : openSlots clients (i :: rest) = openSlots clients rest :=
        List.filter_cons_of_neg hopen
      rw [hstep, ok_bind, ih _ _ _ hrest (by omega) (by omega), hcons]

end Poll

/-- What holds of the server's state between rounds. -/
structure Service.Ok (s : Service) : Prop where
  limit_pos : 1 ≤ s.limit
  limit_le : s.limit ≤ serviceMaxClients
  clients : ClientsOk s.limit s.clients
  slots_length : s.pollSlots.length = serviceMaxClients

/-- The slots `service_pollfds` lists. -/
def Service.openSlots (s : Service) : List Nat := Softgre.openSlots s.clients (List.range s.limit)

theorem length_openSlots_le (s : Service) : s.openSlots.length ≤ s.limit :=
  (List.length_filter_le _ _).trans (by rw [List.length_range])

theorem mem_openSlots {s : Service} {i : Nat} (h : i ∈ s.openSlots) :
    i < s.limit ∧ (clientAt s.clients i).isOpen = true := by
  obtain ⟨hi, hopen⟩ := List.mem_filter.mp h
  exact ⟨List.mem_range.mp hi, hopen⟩

theorem nodup_openSlots (s : Service) : s.openSlots.Nodup := List.nodup_range.filter _

/-- The array that the caller of `service_pollfds` provides. -/
def pollArray : List PollFd := List.replicate (1 + serviceMaxClients) ⟨none, false, .none⟩

theorem servicePollfds_eq {s : Service} (hok : s.Ok) {listener : Nat}
    (hlistener : s.listener = some listener) :
    servicePollfds s pollArray =
      .ok ({ s with pollSlots := overwrite s.pollSlots 0 s.openSlots },
        overwrite pollArray 0 (⟨s.listener, false, .none⟩ ::
          s.openSlots.map fun i => (clientAt s.clients i).pollFd), 1 + s.openSlots.length) := by
  have hlimit := hok.limit_le
  have hlength : pollArray.length = 1 + serviceMaxClients := List.length_replicate
  have hpoll := pollClients_eq s.clients s.pollSlots (pollArray.set 0 ⟨s.listener, false, .none⟩) 0
    (List.range s.limit)
    (fun i hi => by rw [hok.clients.length]; have := List.mem_range.mp hi; omega)
    (by rw [List.length_range, hok.slots_length]; omega)
    (by rw [List.length_range, List.length_set, hlength]; omega)
  rw [overwrite_cons (by rw [hlength]; omega)] at hpoll
  rw [servicePollfds, hlistener, ← hlistener]
  simp only [hlistener, Option.isNone_some, Bool.false_eq_true, if_false,
    setAt_eq _ (show 0 < pollArray.length by rw [hlength]; omega), ok_bind] at hpoll ⊢
  rw [hpoll, ok_bind]
  rfl

-- ---------------------------------------------------------------------------
-- Turns
-- ---------------------------------------------------------------------------

section Dispatch

variable (command : CStr → CStr) (o : Outside)

/-- The turn of a client, with the events polled for its own descriptor. -/
def Client.takeTurn (c : Client) : Client × List ServiceEvent :=
  clientTurn command (o.turn (o.poll c.fd) c.fd) c

/-- The clients in `l` take their turns. -/
def takeTurns : List Nat → List Client → List Client × List ServiceEvent
  | [], clients => (clients, [])
  | i :: rest, clients =>
    let c := clientAt clients i
    let (c', events) := c.takeTurn command o
    let (clients, more) := takeTurns rest (clients.set i c')
    (clients, .applied c.fd c.fd :: events ++ more)

variable {command o} {clients : List Client} {slots : List Nat} {fds : List PollFd}

theorem clientAt_set_ne {i j : Nat} (h : i ≠ j) (c : Client) :
    clientAt (clients.set i c) j = clientAt clients j := by
  rw [clientAt, clientAt, List.getD_eq_getElem?_getD, List.getD_eq_getElem?_getD,
    List.getElem?_set_ne h]

/-- Position `n` of `fds` belongs to slot `i`. -/
structure Listed (o : Outside) (slots : List Nat) (fds : List PollFd) (clients : List Client)
    (n i : Nat) : Prop where
  slot : slots[n - 1]? = some i
  lt : i < clients.length
  entry : ∃ p, fds[n]? = some p ∧ p.fd = (clientAt clients i).fd ∧
    p.revents = o.poll (clientAt clients i).fd

variable (command) in
theorem dispatchClient_eq {n i : Nat} (hlisted : Listed o slots fds clients n i)
    (events : List ServiceEvent) :
    dispatchClient command o slots fds (clients, events) n =
      .ok (clients.set i ((clientAt clients i).takeTurn command o).1,
        events ++ .applied (clientAt clients i).fd (clientAt clients i).fd ::
          ((clientAt clients i).takeTurn command o).2) := by
  obtain ⟨hslot, hlt, p, hp, hfd, hrevents⟩ := hlisted
  simp only [dispatchClient, getAt_eq hslot, getAt_clientAt hlt, getAt_eq hp, ok_bind, hrevents,
    hfd, setAt_eq _ hlt]
  rfl

/-- The other positions stay listed when slot `i` is written. -/
theorem Listed.set {n i i' : Nat} (h : Listed o slots fds clients n i') (hne : i ≠ i')
    (c : Client) : Listed o slots fds (clients.set i c) n i' where
  slot := h.slot
  lt := by rw [List.length_set]; exact h.lt
  entry := by rw [clientAt_set_ne hne]; exact h.entry

variable (command) in
theorem dispatchClients_eq (l : List Nat) (n : Nat) (hnodup : l.Nodup)
    (hlisted : ∀ j i, l[j]? = some i → Listed o slots fds clients (n + j) i)
    (events : List ServiceEvent) :
    (List.range' n l.length).foldlM (dispatchClient command o slots fds) (clients, events) =
      .ok ((takeTurns command o l clients).1, events ++ (takeTurns command o l clients).2) := by
  induction l generalizing n clients events with
  | nil => simp [takeTurns]; rfl
  | cons i rest ih =>
    obtain ⟨hi, hrest⟩ := List.nodup_cons.mp hnodup
    have hfirst : Listed o slots fds clients n i := hlisted 0 i rfl
    rw [List.length_cons, List.range'_succ, List.foldlM_cons, dispatchClient_eq command hfirst,
      ok_bind, ih (n + 1) hrest, takeTurns]
    · simp
    · intro j i' hj
      have hne : i ≠ i' := fun h => hi (h ▸ List.mem_of_getElem? hj)
      rw [Nat.add_right_comm, Nat.add_assoc]
      exact (hlisted (j + 1) i' hj).set hne _

variable (command o) in
/-- The accept phase, if the listener is ready. -/
def acceptPhase (s : Service) (clients : List Client) :
    Except Fault (List Client × List ServiceEvent) :=
  if (o.poll s.listener).pollin then acceptClients o s.limit 16 clients else .ok (clients, [])

/-- The entries `service_pollfds` writes. -/
def Service.pollEntries (s : Service) : List PollFd :=
  ⟨s.listener, false, .none⟩ :: s.openSlots.map fun i => (clientAt s.clients i).pollFd

variable (o) in
/-- The array once `poll` has filled it in. -/
def Service.polled (s : Service) : List PollFd :=
  (overwrite pollArray 0 s.pollEntries).map o.fill

/-- Every position holds its entry, with the events polled for it. -/
theorem Service.Ok.getElem?_polled {s : Service} (hok : s.Ok) {j : Nat} {e : PollFd}
    (he : s.pollEntries[j]? = some e) : (s.polled o)[j]? = some (o.fill e) := by
  have hlimit := hok.limit_le
  have hcount := length_openSlots_le s
  have hroom : 0 + s.pollEntries.length ≤ pollArray.length := by
    rw [pollArray, List.length_replicate, Service.pollEntries, List.length_cons, List.length_map]
    omega
  have hread := getElem?_overwrite hroom (List.getElem?_eq_some_iff.mp he).1
  rw [Nat.zero_add] at hread
  rw [Service.polled, List.getElem?_map, hread, he]
  rfl

theorem Service.Ok.listed {s : Service} (hok : s.Ok) {j i : Nat} (hj : s.openSlots[j]? = some i) :
    Listed o (overwrite s.pollSlots 0 s.openSlots) (s.polled o) s.clients (1 + j) i := by
  have hlimit := hok.limit_le
  have hcount := length_openSlots_le s
  have hi := mem_openSlots (List.mem_of_getElem? hj)
  refine ⟨?_, by rw [hok.clients.length]; omega, o.fill (clientAt s.clients i).pollFd,
    hok.getElem?_polled ?_, rfl, rfl⟩
  · have hread := getElem?_overwrite (l := s.pollSlots) (k := 0)
      (by rw [hok.slots_length]; omega) (List.getElem?_eq_some_iff.mp hj).1
    rw [Nat.zero_add] at hread
    rw [Nat.add_sub_cancel_left, hread, hj]
  · rw [Service.pollEntries, Nat.add_comm, List.getElem?_cons_succ, List.getElem?_map, hj]
    rfl

theorem Service.Ok.getAt_listener {s : Service} (hok : s.Ok) :
    getAt (s.polled o) 0 = .ok ⟨s.listener, false, o.poll s.listener⟩ :=
  getAt_eq (hok.getElem?_polled (e := ⟨s.listener, false, .none⟩) rfl)

variable (o) in
theorem Service.Ok.servicePollfds_eq {s : Service} (hok : s.Ok) {listener : Nat}
    (hlistener : s.listener = some listener) :
    ∃ fds, servicePollfds s pollArray =
        .ok ({ s with pollSlots := overwrite s.pollSlots 0 s.openSlots }, fds,
          1 + s.openSlots.length) ∧
      fds.map o.fill = s.polled o :=
  ⟨_, Softgre.servicePollfds_eq hok hlistener, rfl⟩

/-- A round is a turn for every listed client, and then the accept phase. -/
theorem serviceRound_eq {s : Service} (hok : s.Ok) {listener : Nat}
    (hlistener : s.listener = some listener) :
    serviceRound command o s = do
      let accepted ← acceptPhase o s (takeTurns command o s.openSlots s.clients).1
      return ({ s with clients := accepted.1, pollSlots := overwrite s.pollSlots 0 s.openSlots },
        (takeTurns command o s.openSlots s.clients).2 ++ accepted.2) := by
  have hdispatch := dispatchClients_eq command s.openSlots 1 (nodup_openSlots s)
    (fun j i hj => hok.listed (o := o) hj) []
  obtain ⟨fds, hpoll, hfds⟩ := hok.servicePollfds_eq o hlistener
  rw [serviceRound, ← pollArray, hpoll, ok_bind]
  simp only [serviceDispatch, Nat.add_sub_cancel_left, hfds, hdispatch, ok_bind,
    hok.getAt_listener, acceptPhase]
  rw [if_neg (by omega), List.nil_append]
  split
  · rfl
  · rw [ok_bind, List.append_nil]

-- ---------------------------------------------------------------------------
-- The invariant
-- ---------------------------------------------------------------------------

/-- Polled events go to the client that holds the descriptor, and `recv` has room
    to write to. -/
def ServiceEvent.Sound : ServiceEvent → Prop
  | .applied polled held => polled = held
  | .recv length => 0 < length
  | _ => True

theorem ServiceEvent.Quiet.sound {fd : Nat} {e : ServiceEvent} (h : e.Quiet fd) : e.Sound := by
  cases e with
  | recv => exact h
  | answered => trivial
  | applied | accepted | closed => cases h

/-- The table after some events that started from `clients`. -/
structure Follows (limit : Nat) (clients clients' : List Client) (events : List ServiceEvent) :
    Prop where
  ok : ClientsOk limit clients'
  replay : replay (openFds clients).toFinset events = some (openFds clients').toFinset
  sound : ∀ e ∈ events, e.Sound

variable {limit : Nat}

theorem Follows.refl (h : ClientsOk limit clients) : Follows limit clients clients [] :=
  ⟨h, rfl, by simp⟩

theorem Follows.trans {clients' clients'' : List Client} {events more : List ServiceEvent}
    (h : Follows limit clients clients' events) (h' : Follows limit clients' clients'' more) :
    Follows limit clients clients'' (events ++ more) where
  ok := h'.ok
  replay := by rw [replay_append, h.replay, Option.bind_some, h'.replay]
  sound e he := (List.mem_append.mp he).elim (h.sound e) (h'.sound e)

theorem getElem?_clientAt {i : Nat} (hi : i < clients.length) :
    clients[i]? = some (clientAt clients i) := by
  rw [clientAt, List.getD_eq_getElem?_getD, List.getElem?_eq_getElem hi]
  rfl

theorem Turned.sound {fd : Nat} {c : Client} {events : List ServiceEvent} (h : Turned fd c events) :
    ∀ e ∈ events, e.Sound := by
  cases h with
  | kept _ _ hquiet => exact fun e he => (hquiet e he).sound
  | closed hquiet =>
    intro e he
    rcases List.mem_append.mp he with he | he
    · exact (hquiet e he).sound
    · rw [List.mem_singleton.mp he]
      trivial

variable (command o) in
theorem takeTurn_follows {i : Nat} (h : ClientsOk limit clients) (hi : i < limit)
    (hlt : i < clients.length) (hopen : (clientAt clients i).isOpen = true) :
    Follows limit clients (clients.set i ((clientAt clients i).takeTurn command o).1)
      (.applied (clientAt clients i).fd (clientAt clients i).fd ::
        ((clientAt clients i).takeTurn command o).2) := by
  have hc := getElem?_clientAt hlt
  obtain ⟨fd, hfd⟩ := Option.isSome_iff_exists.mp hopen
  have hturned := clientTurn_turned command
    (o.turn (o.poll (clientAt clients i).fd) (clientAt clients i).fd)
    (h.ok _ (List.mem_of_getElem? hc)) hfd
  obtain ⟨hok, hreplay⟩ := h.turn hi hc hfd hturned
  exact ⟨hok, hreplay, List.forall_mem_cons.mpr ⟨rfl, hturned.sound⟩⟩

variable (command o) in
theorem takeTurns_follows (l : List Nat) (hnodup : l.Nodup) (h : ClientsOk limit clients)
    (hlimit : limit ≤ clients.length)
    (hl : ∀ i ∈ l, i < limit ∧ (clientAt clients i).isOpen = true) :
    Follows limit clients (takeTurns command o l clients).1 (takeTurns command o l clients).2 := by
  induction l generalizing clients with
  | nil => exact .refl h
  | cons i rest ih =>
    obtain ⟨hi, hrest⟩ := List.nodup_cons.mp hnodup
    obtain ⟨⟨hlt, hopen⟩, hl⟩ := List.forall_mem_cons.mp hl
    have hturn := takeTurn_follows command o h hlt (by omega) hopen
    refine hturn.trans (ih hrest hturn.ok (by rwa [List.length_set]) fun j hj => ?_)
    have hne : i ≠ j := by
      rintro rfl
      exact hi hj
    rw [clientAt_set_ne hne]
    exact hl j hj

/-- The search returns a free slot, or the limit. -/
theorem freeSlot_spec (hlimit : limit ≤ clients.length) (left : Nat) (hleft : left ≤ limit) :
    ∃ slot, freeSlot clients limit left = .ok slot ∧
      (slot = limit ∨ slot < limit ∧ (clientAt clients slot).fd = none) := by
  induction left with
  | zero => exact ⟨limit, rfl, .inl rfl⟩
  | succ left ih =>
    rw [freeSlot, getAt_clientAt (by omega), ok_bind]
    split
    · exact ih (by omega)
    · next hopen =>
      exact ⟨limit - (left + 1), rfl, .inr ⟨by omega, by simpa [Client.isOpen] using hopen⟩⟩

theorem openFds_subset_set {i fd : Nat} {c : Client} (hc : clients[i]? = some c) (hfree : c.fd = none)
    (c' : Client) : fd ∈ openFds clients → fd ∈ openFds (clients.set i c') := by
  obtain ⟨a, b, hclients, -, hset⟩ := exists_split hc
  rw [hset, hclients, openFds_append, openFds_append, openFds_cons, openFds_cons, hfree]
  simp only [List.mem_append, Option.toList_none, List.not_mem_nil, false_or]
  exact fun h => h.imp_right .inr

/-- The accept loop keeps the open clients, and speaks of other descriptors only. -/
structure Accepts (clients clients' : List Client) (events : List ServiceEvent) : Prop where
  keeps : ∀ {i : Nat} {c : Client}, clients[i]? = some c → c.isOpen = true → clients'[i]? = some c
  fresh : ∀ e ∈ events, ∃ fd, fd ∉ openFds clients ∧ (e = .accepted fd ∨ e = .closed fd)

theorem Accepts.refl (clients : List Client) : Accepts clients clients [] :=
  ⟨fun hc _ => hc, by simp⟩

theorem acceptClients_follows (h : ClientsOk limit clients) (hlimit : limit ≤ clients.length)
    (left : Nat) : ∃ clients' events, acceptClients o limit left clients = .ok (clients', events) ∧
      Follows limit clients clients' events ∧ Accepts clients clients' events := by
  induction left generalizing clients with
  | zero => exact ⟨clients, [], rfl, .refl h, .refl clients⟩
  | succ left ih =>
    rw [acceptClients]
    split
    · exact ⟨clients, [], rfl, .refl h, .refl clients⟩
    · next fd hfd =>
      have hfresh := o.accept_fresh hfd
      obtain ⟨slot, hslot, hcase⟩ := freeSlot_spec hlimit limit (Nat.le_refl limit)
      rw [hslot, ok_bind]
      by_cases hfull : slot = limit
      · obtain ⟨clients', events, haccept, hfollows, haccepts⟩ := ih h hlimit
        have hclosed : Follows limit clients clients [.accepted fd, .closed fd] := by
          refine ⟨h, ?_, by simp [ServiceEvent.Sound]⟩
          rw [replay, if_neg (by simpa using hfresh), replay, if_pos (Finset.mem_insert_self _ _),
            replay, Finset.erase_insert (by simpa using hfresh)]
        rw [if_pos hfull, haccept, ok_bind]
        refine ⟨clients', _, rfl, hclosed.trans hfollows, haccepts.keeps, ?_⟩
        exact List.forall_mem_cons.mpr ⟨⟨fd, hfresh, .inl rfl⟩,
          List.forall_mem_cons.mpr ⟨⟨fd, hfresh, .inr rfl⟩, haccepts.fresh⟩⟩
      · obtain ⟨hlt, hfree⟩ := hcase.resolve_left hfull
        have hc := getElem?_clientAt (i := slot) (show slot < clients.length by omega)
        obtain ⟨hok, hreplay⟩ := h.opened hlt hc hfree hfresh (o.now + 5 * 1000000)
        obtain ⟨clients', events, haccept, hfollows, haccepts⟩ := ih hok (by rwa [List.length_set])
        rw [if_neg hfull, getAt_clientAt (by omega), ok_bind, setAt_eq _ (by omega), ok_bind,
          haccept, ok_bind]
        have hopened : Follows limit clients _ [.accepted fd] :=
          ⟨hok, hreplay, by simp [ServiceEvent.Sound]⟩
        refine ⟨clients', _, rfl, hopened.trans hfollows, ?_, ?_⟩
        · intro i c hi hopen
          refine haccepts.keeps ?_ hopen
          rw [List.getElem?_set_ne ?_]
          · exact hi
          · rintro rfl
            rw [hc] at hi
            cases hi
            rw [Client.isOpen, hfree] at hopen
            cases hopen
        · refine List.forall_mem_cons.mpr ⟨⟨fd, hfresh, .inl rfl⟩, fun e he => ?_⟩
          obtain ⟨fd', hfresh', hevent⟩ := haccepts.fresh e he
          exact ⟨fd', mt (openFds_subset_set hc hfree _) hfresh', hevent⟩

theorem acceptPhase_follows {s : Service} (hok : s.Ok) (h : ClientsOk s.limit clients) :
    ∃ clients' events, acceptPhase o s clients = .ok (clients', events) ∧
      Follows s.limit clients clients' events ∧ Accepts clients clients' events := by
  rw [acceptPhase]
  split
  · exact acceptClients_follows h (by rw [h.length]; exact hok.limit_le) 16
  · exact ⟨clients, [], rfl, .refl h, .refl clients⟩

theorem Service.Ok.turns {s : Service} (hok : s.Ok) :
    Follows s.limit s.clients (takeTurns command o s.openSlots s.clients).1
      (takeTurns command o s.openSlots s.clients).2 :=
  takeTurns_follows command o s.openSlots (nodup_openSlots s) hok.clients
    (by rw [hok.clients.length]; exact hok.limit_le) fun _ hi => mem_openSlots hi

variable (command o) in
/-- A round goes through, and keeps everything in order. -/
theorem serviceRound_follows {s : Service} (hok : s.Ok) {listener : Nat}
    (hlistener : s.listener = some listener) :
    ∃ s' events, serviceRound command o s = .ok (s', events) ∧ s'.Ok ∧
      s'.listener = s.listener ∧ s'.limit = s.limit ∧
      Follows s.limit s.clients s'.clients events := by
  obtain ⟨clients', accepted, hphase, hfollows, -⟩ := acceptPhase_follows hok hok.turns.ok
  have hall := hok.turns.trans hfollows
  rw [serviceRound_eq hok hlistener, hphase, ok_bind]
  refine ⟨_, _, rfl, ⟨hok.limit_pos, hok.limit_le, hall.ok, ?_⟩, rfl, rfl, hall⟩
  rw [length_overwrite, hok.slots_length]
  have hcount := length_openSlots_le s
  rw [hok.slots_length]
  exact (Nat.zero_add _).le.trans (hcount.trans hok.limit_le)

end Dispatch

-- ---------------------------------------------------------------------------
-- The end
-- ---------------------------------------------------------------------------

section End

variable {clients : List Client} {limit i : Nat}

theorem endClient_follows (h : ClientsOk limit clients) (hi : i < limit) (hlt : i < clients.length)
    (events : List ServiceEvent) :
    ∃ closed, endClient (clients, events) i = .ok (clients.set i .free, events ++ closed) ∧
      Follows limit clients (clients.set i .free) closed := by
  have hc := getElem?_clientAt hlt
  refine ⟨(closeClient (clientAt clients i)).2, ?_, ?_⟩
  · simp only [endClient, getAt_clientAt hlt, ok_bind, setAt_eq _ hlt]
    rfl
  cases hfd : (clientAt clients i).fd with
  | some fd =>
    have hturned := Turned.close_nil hfd
    obtain ⟨hok, hreplay⟩ := h.turn hi hc hfd hturned
    exact ⟨hok, hreplay, hturned.sound⟩
  | none =>
    obtain ⟨a, b, hclients, -, hset⟩ := exists_split hc
    have hopen : openFds (clients.set i .free) = openFds clients := by
      rw [hset, hclients, openFds_append, openFds_append, openFds_cons, openFds_cons, hfd]
      rfl
    have hclosed : (closeClient (clientAt clients i)).2 = [] := by
      rw [closeClient, hfd]
      rfl
    rw [hclosed]
    exact ⟨h.set hi Client.free_ok (hopen ▸ h.distinct), congrArg some (by rw [hopen]), by simp⟩

theorem endClients_follows (l : List Nat) (h : ClientsOk limit clients)
    (hlimit : limit ≤ clients.length) (hl : ∀ i ∈ l, i < limit) (events : List ServiceEvent) :
    ∃ clients' closed, l.foldlM endClient (clients, events) = .ok (clients', events ++ closed) ∧
      Follows limit clients clients' closed ∧
      ∀ i, (i ∈ l ∨ (clientAt clients i).fd = none) → (clientAt clients' i).fd = none := by
  induction l generalizing clients events with
  | nil =>
    refine ⟨clients, [], ?_, .refl h, fun i hi => hi.resolve_left (by simp)⟩
    rw [List.append_nil]
    rfl
  | cons i rest ih =>
    obtain ⟨hi, hrest⟩ := List.forall_mem_cons.mp hl
    obtain ⟨first, hfirst, hfollows⟩ := endClient_follows h hi (Nat.lt_of_lt_of_le hi hlimit) events
    obtain ⟨clients', more, hmore, hfollows', hfree⟩ :=
      ih hfollows.ok (by rwa [List.length_set]) hrest (events ++ first)
    refine ⟨clients', first ++ more, ?_, hfollows.trans hfollows', fun j hj => hfree j ?_⟩
    · rw [List.foldlM_cons, hfirst, ok_bind, hmore, List.append_assoc]
    · by_cases hij : i = j
      · subst hij
        rw [clientAt, List.getD_eq_getElem?_getD, List.getElem?_set_self (by omega)]
        exact .inr rfl
      · rw [clientAt_set_ne hij]
        exact hj.imp_left fun hmem => (List.mem_cons.mp hmem).resolve_left (Ne.symm hij)

/-- At the end every descriptor that is open is closed once. -/
theorem serviceEnd_closes {s : Service} (hok : s.Ok) {listener : Nat}
    (hlistener : s.listener = some listener) :
    ∃ s' events, serviceEnd s = .ok (s', events) ∧
      replay (openFds s.clients).toFinset events = some ∅ := by
  obtain ⟨clients', events, hfold, hfollows, hfree⟩ :=
    endClients_follows (List.range s.limit) hok.clients
      (by rw [hok.clients.length]; exact hok.limit_le) (fun i hi => List.mem_range.mp hi) []
  refine ⟨{ s with listener := none, clients := clients' }, events, ?_, ?_⟩
  · rw [serviceEnd, hlistener, hfold, List.nil_append]
    rfl
  have hnone : openFds clients' = [] := by
    refine List.filterMap_eq_nil_iff.mpr fun c hc => ?_
    obtain ⟨i, hi⟩ := List.mem_iff_getElem?.mp hc
    have hat := getElem?_clientAt (List.getElem?_eq_some_iff.mp hi).1
    rw [Option.some.inj (hi.symm.trans hat)]
    by_cases hlt : i < s.limit
    · exact hfree i (.inl (List.mem_range.mpr hlt))
    · exact hfollows.ok.above (Nat.not_lt.mp hlt) hat
  rw [hfollows.replay, hnone]
  rfl

end End

theorem serviceInit_ok (listener : Nat) {limit : Nat}
    (hlimit : 1 ≤ limit ∧ limit ≤ serviceMaxClients) : (serviceInit listener limit).Ok where
  limit_pos := hlimit.1
  limit_le := hlimit.2
  slots_length := List.length_replicate
  clients :=
    { length := List.length_replicate
      ok := fun c hc => by
        rw [List.eq_of_mem_replicate hc]
        exact Client.free_ok
      above := fun hi hc => by
        rw [List.eq_of_mem_replicate (List.mem_of_getElem? hc)]
        rfl
      distinct := by
        simp [serviceInit, openFds, Client.free] }

theorem openFds_serviceInit (listener limit : Nat) :
    openFds (serviceInit listener limit).clients = [] := by
  simp [serviceInit, openFds, Client.free]

/-- Rounds go through, and keep everything in order. -/
theorem serviceRun_follows (command : CStr → CStr) (rounds : List Outside) {s : Service}
    (hok : s.Ok) {listener : Nat} (hlistener : s.listener = some listener) :
    ∃ s' events, serviceRun command rounds s = .ok (s', events) ∧ s'.Ok ∧
      s'.listener = s.listener ∧ s'.limit = s.limit ∧
      Follows s.limit s.clients s'.clients events := by
  induction rounds generalizing s with
  | nil => exact ⟨s, [], rfl, hok, rfl, rfl, .refl hok.clients⟩
  | cons o rest ih =>
    obtain ⟨s₁, events, hround, hok₁, hlistener₁, hlimit₁, hfollows⟩ :=
      serviceRound_follows command o hok hlistener
    obtain ⟨s', more, hrun, hok', hlistener', hlimit', hfollows'⟩ :=
      ih hok₁ (hlistener₁.trans hlistener)
    rw [hlimit₁] at hfollows' hlimit'
    refine ⟨s', events ++ more, ?_, hok', hlistener'.trans hlistener₁, hlimit',
      hfollows.trans hfollows'⟩
    simp only [serviceRun, hround, ok_bind, hrun]
    rfl

end Softgre
