-- SUMMARY: What one connection gets to see, however its request is cut into segments.
import Softgre.Service.Answers
import Softgre.Service.Rounds
import Mathlib.Data.List.TakeWhile

/-!
# Request framing

The other clients do not show in what a connection is answered, so its part of a
run is the list of its own turns. Over these, `framed` says what a request is
answered with; the server does so for every way of delivering the request,
unless a NUL byte stands behind the line.
-/

namespace Softgre

-- ---------------------------------------------------------------------------
-- What a connection gets to see
-- ---------------------------------------------------------------------------

/-- How a connection ends: with a response, or closed without one. -/
inductive Outcome where
  | answered (response : CStr)
  | silent
deriving DecidableEq, Repr

def ServiceEvent.outcome (fd : Nat) : ServiceEvent → Option Outcome
  | .answered holder response => if holder = some fd then some (.answered response) else none
  | .closed holder => if holder = fd then some .silent else none
  | _ => none

/-- The first event that decides the connection on `fd`. -/
def outcomeOf (fd : Nat) (events : List ServiceEvent) : Option Outcome :=
  events.findSome? (·.outcome fd)

/-- What the round holds for the connection on `fd`. -/
def Outside.turnOf (o : Outside) (fd : Nat) : Turn := o.turn (o.poll (some fd)) (some fd)

/-- The turns of one connection, up to the one that decides it. -/
def converse (command : CStr → CStr) (fd : Nat) : List Turn → Client → Option Outcome
  | [], _ => none
  | t :: rest, c =>
    (outcomeOf fd (clientTurn command t c).2).or
      (converse command fd rest (clientTurn command t c).1)

section Outcome

variable {command : CStr → CStr} {o : Outside} {fd fd' : Nat} {c : Client}
  {events more : List ServiceEvent} {clients : List Client}

theorem outcomeOf_append :
    outcomeOf fd (events ++ more) = (outcomeOf fd events).or (outcomeOf fd more) :=
  List.findSome?_append

theorem outcomeOf_applied (polled held : Descriptor) :
    outcomeOf fd (.applied polled held :: events) = outcomeOf fd events :=
  rfl

theorem outcomeOf_closed :
    outcomeOf fd [.closed fd'] = if fd' = fd then some .silent else none := by
  by_cases h : fd' = fd <;> simp [outcomeOf, ServiceEvent.outcome, h]

theorem outcomeOf_eq_none_of_forall (h : ∀ e ∈ events, e.outcome fd = none) :
    outcomeOf fd events = none :=
  List.findSome?_eq_none_iff.mpr h

theorem ServiceEvent.Quiet.outcome_of_ne {e : ServiceEvent} (h : e.Quiet fd') (hne : fd' ≠ fd) :
    e.outcome fd = none := by
  cases e with
  | recv => rfl
  | answered holder response =>
    rw [show holder = some fd' from h]
    exact if_neg fun heq => hne (Option.some.inj heq)
  | applied | accepted | closed => cases h

/-- The turn of another client. -/
theorem Turned.outcome_of_ne (h : Turned fd' c events) (hne : fd' ≠ fd) :
    outcomeOf fd events = none := by
  cases h with
  | kept _ _ hquiet =>
    exact outcomeOf_eq_none_of_forall fun e he => (hquiet e he).outcome_of_ne hne
  | closed hquiet =>
    rw [outcomeOf_append,
      outcomeOf_eq_none_of_forall fun e he => (hquiet e he).outcome_of_ne hne]
    rw [outcomeOf_closed, if_neg hne]
    rfl

/-- A turn that decides nothing keeps the connection. -/
theorem Turned.kept_of_outcome (h : Turned fd c events) (hnone : outcomeOf fd events = none) :
    c.Ok ∧ c.fd = some fd := by
  cases h with
  | kept hok hfd => exact ⟨hok, hfd⟩
  | closed =>
    rw [outcomeOf_append, Option.or_eq_none_iff, outcomeOf_closed, if_pos rfl] at hnone
    cases hnone.2

theorem Client.takeTurn_eq (hfd : c.fd = some fd) :
    c.takeTurn command o = clientTurn command (o.turnOf fd) c := by
  rw [Client.takeTurn, hfd, Outside.turnOf]

-- ---------------------------------------------------------------------------
-- The other clients
-- ---------------------------------------------------------------------------

theorem clientAt_takeTurns {i : Nat} (l : List Nat) (hi : i ∉ l) :
    clientAt (takeTurns command o l clients).1 i = clientAt clients i := by
  induction l generalizing clients with
  | nil => rfl
  | cons j rest ih =>
    rw [List.mem_cons, not_or] at hi
    obtain ⟨hne, hrest⟩ := hi
    rw [takeTurns, ih hrest, clientAt_set_ne (Ne.symm hne)]

theorem length_takeTurns (l : List Nat) :
    (takeTurns command o l clients).1.length = clients.length := by
  induction l generalizing clients with
  | nil => rfl
  | cons i rest ih => rw [takeTurns, ih, List.length_set]

theorem clientAt_set_self {i : Nat} (hi : i < clients.length) :
    clientAt (clients.set i c) i = c := by
  rw [clientAt, List.getD_eq_getElem?_getD, List.getElem?_set_self hi]
  rfl

theorem mem_openFds_of_clientAt {i : Nat} (hfd : (clientAt clients i).fd = some fd) :
    fd ∈ openFds clients := by
  have hlt : i < clients.length := by
    by_contra hge
    rw [clientAt, List.getD_eq_getElem?_getD, List.getElem?_eq_none (Nat.le_of_not_lt hge)] at hfd
    cases hfd
  exact List.mem_filterMap.mpr ⟨_, List.mem_of_getElem? (getElem?_clientAt hlt), hfd⟩

theorem takeTurns_append (l l' : List Nat) :
    takeTurns command o (l ++ l') clients =
      ((takeTurns command o l' (takeTurns command o l clients).1).1,
        (takeTurns command o l clients).2 ++
          (takeTurns command o l' (takeTurns command o l clients).1).2) := by
  induction l generalizing clients with
  | nil => rfl
  | cons i rest ih => simp [takeTurns, ih]

/-- The client in slot `i` is open, on another descriptor than `fd`. -/
def Elsewhere (fd : Nat) (clients : List Client) (i : Nat) : Prop :=
  (clientAt clients i).Ok ∧ ∃ fd', fd' ≠ fd ∧ (clientAt clients i).fd = some fd'

theorem takeTurns_elsewhere (l : List Nat) (hnodup : l.Nodup)
    (hl : ∀ i ∈ l, Elsewhere fd clients i) :
    outcomeOf fd (takeTurns command o l clients).2 = none := by
  induction l generalizing clients with
  | nil => rfl
  | cons i rest ih =>
    obtain ⟨hi, hrest⟩ := List.nodup_cons.mp hnodup
    obtain ⟨⟨hok, fd', hne, hfd'⟩, hl⟩ := List.forall_mem_cons.mp hl
    have hturn : outcomeOf fd ((clientAt clients i).takeTurn command o).2 = none := by
      rw [Client.takeTurn_eq hfd']
      exact (clientTurn_turned command _ hok hfd').outcome_of_ne hne
    rw [takeTurns]
    show outcomeOf fd (_ ++ _) = none
    rw [outcomeOf_append, outcomeOf_applied, hturn, Option.none_or]
    refine ih hrest fun j hj => ?_
    have hij : i ≠ j := by
      rintro rfl
      exact hi hj
    rw [Elsewhere, clientAt_set_ne hij]
    exact hl j hj

/-- The client in slot `i` holds `fd`. -/
structure Holds (s : Service) (i fd : Nat) (c : Client) : Prop where
  at_slot : s.clients[i]? = some c
  fd_eq : c.fd = some fd

theorem Holds.clientAt_eq {s : Service} {i : Nat} (h : Holds s i fd c) :
    clientAt s.clients i = c := by
  rw [clientAt, List.getD_eq_getElem?_getD, h.at_slot]
  rfl

theorem Holds.mem_openSlots {s : Service} {i : Nat} (hok : s.Ok) (h : Holds s i fd c) :
    i ∈ s.openSlots := by
  refine List.mem_filter.mpr ⟨List.mem_range.mpr ?_, ?_⟩
  · by_contra hge
    have hnone := hok.clients.above (Nat.le_of_not_lt hge) h.at_slot
    rw [h.fd_eq] at hnone
    cases hnone
  · rw [h.clientAt_eq, Client.isOpen, h.fd_eq]
    rfl

theorem ClientsOk.slot_inj {limit i j : Nat} {c' : Client} (h : ClientsOk limit clients)
    (hi : clients[i]? = some c) (hj : clients[j]? = some c') (hfd : c.fd = some fd)
    (hfd' : c'.fd = some fd) : i = j := by
  have hdistinct := h.distinct
  rw [openFds, List.Nodup, List.pairwise_filterMap, List.pairwise_iff_getElem] at hdistinct
  obtain ⟨hilt, rfl⟩ := List.getElem?_eq_some_iff.mp hi
  obtain ⟨hjlt, rfl⟩ := List.getElem?_eq_some_iff.mp hj
  rcases Nat.lt_trichotomy i j with hlt | heq | hgt
  · exact absurd rfl (hdistinct i j hilt hjlt hlt fd hfd fd hfd')
  · exact heq
  · exact absurd rfl (hdistinct j i hjlt hilt hgt fd hfd' fd hfd)

/-- Any other listed slot holds another descriptor. -/
theorem Holds.elsewhere {s : Service} {i j : Nat} (hok : s.Ok) (h : Holds s i fd c) (hij : i ≠ j)
    (hj : j ∈ s.openSlots) : Elsewhere fd s.clients j := by
  obtain ⟨hlt, hopen⟩ := Softgre.mem_openSlots hj
  have hlimit := hok.limit_le
  have hj? := getElem?_clientAt (show j < s.clients.length by rw [hok.clients.length]; omega)
  obtain ⟨fd', hfd'⟩ := Option.isSome_iff_exists.mp hopen
  refine ⟨hok.clients.ok _ (List.mem_of_getElem? hj?), fd', ?_, hfd'⟩
  rintro rfl
  exact hij (hok.clients.slot_inj h.at_slot hj? h.fd_eq hfd')

variable (command o) in
/-- Among the turns of a round, the connection on `fd` sees its own. -/
theorem takeTurns_projects {s : Service} {i : Nat} (hok : s.Ok) (h : Holds s i fd c) :
    outcomeOf fd (takeTurns command o s.openSlots s.clients).2 =
        outcomeOf fd (clientTurn command (o.turnOf fd) c).2 ∧
      clientAt (takeTurns command o s.openSlots s.clients).1 i =
        (clientTurn command (o.turnOf fd) c).1 := by
  obtain ⟨l, l', hl⟩ := List.append_of_mem (h.mem_openSlots hok)
  have hnodup := nodup_openSlots s
  have hother : ∀ j ∈ s.openSlots, i ≠ j → Elsewhere fd s.clients j :=
    fun j hj hij => h.elsewhere hok hij hj
  rw [hl] at hnodup hother
  obtain ⟨hi, hnodup'⟩ := List.nodup_cons.mp (List.nodup_middle.mp hnodup)
  obtain ⟨hbefore, hafter, hdisjoint⟩ := List.nodup_append'.mp hnodup'
  rw [List.mem_append, not_or] at hi
  have hne : ∀ {j}, j ∈ l ∨ j ∈ l' → i ≠ j := by
    rintro j hj rfl
    exact hj.elim hi.1 hi.2
  have hc : clientAt (takeTurns command o l s.clients).1 i = c := by
    rw [clientAt_takeTurns l hi.1, h.clientAt_eq]
  have hlt : i < (takeTurns command o l s.clients).1.length := by
    rw [length_takeTurns]
    exact (List.getElem?_eq_some_iff.mp h.at_slot).1
  have hbefore : outcomeOf fd (takeTurns command o l s.clients).2 = none :=
    takeTurns_elsewhere l hbefore fun j hj =>
      hother j (List.mem_append_left _ hj) (hne (.inl hj))
  have hafter : outcomeOf fd (takeTurns command o l' ((takeTurns command o l s.clients).1.set i
      (clientTurn command (o.turnOf fd) c).1)).2 = none := by
    refine takeTurns_elsewhere l' hafter fun j hj => ?_
    have hj' : j ∉ l := fun hmem => hdisjoint hmem hj
    rw [Elsewhere, clientAt_set_ne (hne (.inr hj)), clientAt_takeTurns l hj']
    exact hother j (List.mem_append_right _ (List.mem_cons_of_mem _ hj)) (hne (.inr hj))
  rw [hl, takeTurns_append, takeTurns, hc, Client.takeTurn_eq h.fd_eq]
  refine ⟨?_, ?_⟩
  · show outcomeOf fd (_ ++ (_ ++ _)) = _
    rw [outcomeOf_append, hbefore, Option.none_or, outcomeOf_append, outcomeOf_applied, hafter,
      Option.or_none]
  · show clientAt (takeTurns command o l' _).1 i = _
    rw [clientAt_takeTurns l' hi.2, clientAt_set_self hlt]

/-- A client that its turn leaves open stays in its slot. -/
theorem serviceRound_keeps {s s' : Service} {i listener : Nat} (hok : s.Ok)
    (hlistener : s.listener = some listener) (h : Holds s i fd c)
    (hkept : (clientTurn command (o.turnOf fd) c).1.fd = some fd)
    (hround : serviceRound command o s = .ok (s', events)) :
    Holds s' i fd (clientTurn command (o.turnOf fd) c).1 := by
  obtain ⟨-, hclient⟩ := takeTurns_projects command o hok h
  obtain ⟨clients', accepted, hphase, -, haccepts⟩ := acceptPhase_follows hok hok.turns.ok
  rw [serviceRound_eq hok hlistener, hphase] at hround
  cases hround
  have hlt : i < (takeTurns command o s.openSlots s.clients).1.length := by
    rw [length_takeTurns]
    exact (List.getElem?_eq_some_iff.mp h.at_slot).1
  have hat := getElem?_clientAt hlt
  rw [hclient] at hat
  refine ⟨haccepts.keeps hat ?_, hkept⟩
  rw [Client.isOpen, hkept]
  rfl

/-- A round shows the connection its own turn, and keeps it if the turn decides
    nothing. -/
theorem serviceRound_projects {s s' : Service} {i listener : Nat} (hok : s.Ok)
    (hlistener : s.listener = some listener) (h : Holds s i fd c)
    (hround : serviceRound command o s = .ok (s', events)) :
    outcomeOf fd events = outcomeOf fd (clientTurn command (o.turnOf fd) c).2 ∧
      (outcomeOf fd events = none → Holds s' i fd (clientTurn command (o.turnOf fd) c).1) := by
  have hturned := clientTurn_turned command (o.turnOf fd)
    (hok.clients.ok c (List.mem_of_getElem? h.at_slot)) h.fd_eq
  have hkeeps := fun hkept => serviceRound_keeps hok hlistener h hkept hround
  obtain ⟨hturns, hclient⟩ := takeTurns_projects command o hok h
  obtain ⟨clients', accepted, hphase, -, haccepts⟩ := acceptPhase_follows hok hok.turns.ok
  rw [serviceRound_eq hok hlistener, hphase] at hround
  cases hround
  cases hdecided : outcomeOf fd (clientTurn command (o.turnOf fd) c).2 with
  | some outcome =>
    rw [outcomeOf_append, hturns, hdecided]
    exact ⟨rfl, fun hnone => by cases hnone⟩
  | none =>
    obtain ⟨-, hfd'⟩ := hturned.kept_of_outcome hdecided
    have haccepted : outcomeOf fd accepted = none := by
      refine outcomeOf_eq_none_of_forall fun e he => ?_
      obtain ⟨fd', hfresh, hevent⟩ := haccepts.fresh e he
      have hne : fd' ≠ fd := by
        rintro rfl
        rw [← hclient] at hfd'
        exact hfresh (mem_openFds_of_clientAt hfd')
      rcases hevent with rfl | rfl
      · rfl
      · exact if_neg hne
    rw [outcomeOf_append, hturns, hdecided, Option.none_or, haccepted]
    exact ⟨rfl, fun _ => hkeeps hfd'⟩

/-- What a connection gets to see in a run depends on its own turns only. -/
theorem serviceRun_projects (rounds : List Outside) {s s' : Service} {i listener : Nat}
    (hok : s.Ok) (hlistener : s.listener = some listener) (h : Holds s i fd c)
    (hrun : serviceRun command rounds s = .ok (s', events)) :
    outcomeOf fd events = converse command fd (rounds.map (·.turnOf fd)) c := by
  induction rounds generalizing s c events with
  | nil =>
    cases hrun
    rfl
  | cons o rest ih =>
    obtain ⟨s₁, first, hround, hok₁, hlistener₁, -⟩ := serviceRound_follows command o hok hlistener
    obtain ⟨s₂, more, hrest, -⟩ := serviceRun_follows command rest hok₁ (hlistener₁.trans hlistener)
    simp only [serviceRun, hround, ok_bind, hrest] at hrun
    cases hrun
    obtain ⟨hsame, hholds⟩ := serviceRound_projects hok hlistener h hround
    rw [List.map_cons, converse, outcomeOf_append, hsame]
    cases hdecided : outcomeOf fd (clientTurn command (o.turnOf fd) c).2 with
    | some outcome => rfl
    | none => exact ih hok₁ (hlistener₁.trans hlistener) (hholds (hsame.trans hdecided)) hrest

end Outcome

-- ---------------------------------------------------------------------------
-- Deliveries
-- ---------------------------------------------------------------------------

/-- What the server is to make of a stream: the line within the first 255 bytes,
    or the whole of it if the client stops sending. -/
def framed (command : CStr → CStr) (stream : CStr) (eof : Bool) : Outcome :=
  let window := stream.take (serviceMaxRequest - 1)
  let line := window.takeWhile (· != '\n')
  if '\x00' ∈ line then .silent
  else if '\n' ∈ window then .answered (capResponse (command line))
  else if window.length = serviceMaxRequest - 1 then .answered requestTooLarge
  else if eof then .answered (capResponse (command stream))
  else .silent

/-- A NUL byte among the first 255 bytes, but none in the line itself. -/
def NulBehindLine (stream : CStr) : Prop :=
  let window := stream.take (serviceMaxRequest - 1)
  '\x00' ∈ window ∧ '\x00' ∉ window.takeWhile (· != '\n')

instance (stream : CStr) : Decidable (NulBehindLine stream) :=
  inferInstanceAs (Decidable (_ ∧ _))

/-- The turn comes in time and without an error on the socket. -/
structure Turn.Orderly (t : Turn) (deadline : Int) : Prop where
  intime : t.now < deadline
  noerr : t.flags.pollerr = false
  noval : t.flags.pollnval = false

def Turn.readable (t : Turn) : Bool := t.flags.pollin || t.flags.pollhup

/-- The server has answered or closed the connection, and reads no more of it. -/
def Client.Settled (c : Client) : Prop := c.fd = none ∨ c.response ≠ none

/-- The turns hand `pending` to the server, and then the end of the stream if
    `eof` is set, as the results of `recv`; without it, the connection stays until
    the deadline. Nothing is asked of the turns of a settled connection. -/
inductive Delivers (command : CStr → CStr) : Client → CStr → Bool → List Turn → Prop
  | settled {c pending eof turns} (hsettled : c.Settled) :
    Delivers command c pending eof turns
  | late {c t turns} (hlate : c.deadline ≤ t.now) : Delivers command c [] false (t :: turns)
  | idle {c pending eof t turns} (horderly : t.Orderly c.deadline)
      (hidle : t.readable = false ∨ t.recv c.room = .again)
      (hrest : Delivers command (clientTurn command t c).1 pending eof turns) :
    Delivers command c pending eof (t :: turns)
  | segment {c bytes pending eof t turns} (horderly : t.Orderly c.deadline)
      (hreadable : t.readable = true) (hrecv : t.recv c.room = .bytes bytes) (hbytes : bytes ≠ [])
      (hrest : Delivers command (clientTurn command t c).1 pending eof turns) :
    Delivers command c (bytes ++ pending) eof (t :: turns)
  | eof {c t turns} (horderly : t.Orderly c.deadline) (hreadable : t.readable = true)
      (hrecv : t.recv c.room = .bytes []) : Delivers command c [] true (t :: turns)

/-- A client whose request is not complete yet. -/
def Client.waiting (fd : Nat) (deadline : Int) (input : CStr) : Client :=
  ⟨some fd, input, 0, none, deadline⟩

/-- Input that does not settle the connection. -/
structure Undecided (input : CStr) : Prop where
  nul : '\x00' ∉ input
  lf : '\n' ∉ input
  short : input.length ≠ serviceMaxRequest - 1

section Waiting

variable {command : CStr → CStr} {t : Turn} {fd : Nat} {deadline : Int} {input bytes : CStr}

theorem clientTurn_late (hlate : (Client.waiting fd deadline input).deadline ≤ t.now) :
    outcomeOf fd (clientTurn command t (.waiting fd deadline input)).2 = some .silent := by
  rw [clientTurn, if_pos (by simpa using .inl hlate)]
  exact outcomeOf_closed.trans (if_pos rfl)

variable (command) in
/-- In time, a turn starts with receiving. -/
theorem clientTurn_received {c : Client} (horderly : t.Orderly c.deadline) :
    (∃ later, (clientTurn command t c).2 = (receive command t c).2.1 ++ later) ∧
      ((receive command t c).1.response = none →
        clientTurn command t c = ((receive command t c).1, (receive command t c).2.1)) := by
  have hintime := horderly.intime
  have hgo : ¬ (decide (t.now ≥ c.deadline) || (t.flags.pollerr || t.flags.pollnval)) = true := by
    simp [horderly.noerr, horderly.noval, hintime]
  rw [clientTurn, if_neg hgo]
  generalize receive command t c = r
  obtain ⟨c', received, more⟩ := r
  cases more with
  | false => exact ⟨⟨[], (List.append_nil _).symm⟩, fun _ => rfl⟩
  | true =>
    simp only [Bool.not_true, Bool.false_eq_true, if_false]
    constructor
    · split
      · exact ⟨_, rfl⟩
      · exact ⟨_, List.append_assoc _ _ _⟩
    · intro hnone
      simp [transmit, finish, hnone]

theorem reads_waiting : (Client.waiting fd deadline input).reads t.flags = t.readable := rfl

variable (command) in
theorem receive_bytes (hreadable : t.readable = true)
    (hrecv : t.recv (Client.waiting fd deadline input).room = .bytes bytes) :
    (receive command t (.waiting fd deadline input)).1 =
        (accumulate command bytes (.waiting fd deadline input)).1 ∧
      outcomeOf fd (receive command t (.waiting fd deadline input)).2.1 =
        outcomeOf fd (accumulate command bytes (.waiting fd deadline input)).2.1 := by
  rw [receive, reads_waiting, if_pos hreadable, hrecv]
  exact ⟨rfl, rfl⟩

theorem accumulate_waiting :
    accumulate command bytes (.waiting fd deadline input) =
      if '\x00' ∈ input ++ bytes then (.free, [.closed fd], false)
      else if '\n' ∈ input ++ bytes ∨ bytes = [] ∨
          (input ++ bytes).length = serviceMaxRequest - 1 then
        (⟨some fd, input ++ bytes, 0, some (respond command (input ++ bytes)), deadline⟩,
          [.answered (some fd) (respond command (input ++ bytes))], true)
      else (.waiting fd deadline (input ++ bytes), [], true) := by
  simp [accumulate, Client.waiting, closeClient, or_assoc]

theorem settled_iff (hnul : '\x00' ∉ input ++ bytes) :
    ¬ Undecided (input ++ bytes) ∨ bytes = [] ↔
      '\n' ∈ input ++ bytes ∨ bytes = [] ∨ (input ++ bytes).length = serviceMaxRequest - 1 := by
  constructor
  · rintro (hsettled | hempty)
    · by_contra hnot
      rw [not_or, not_or] at hnot
      exact hsettled ⟨hnul, hnot.1, hnot.2.2⟩
    · exact .inr (.inl hempty)
  · rintro (hlf | hempty | hfull)
    · exact .inl fun h => h.lf hlf
    · exact .inr hempty
    · exact .inl fun h => h.short hfull

variable (command) in
theorem clientTurn_idle (horderly : t.Orderly (Client.waiting fd deadline input).deadline)
    (hidle : t.readable = false ∨ t.recv (Client.waiting fd deadline input).room = .again) :
    (clientTurn command t (.waiting fd deadline input)).1 = .waiting fd deadline input ∧
      outcomeOf fd (clientTurn command t (.waiting fd deadline input)).2 = none := by
  have hreceive : (receive command t (.waiting fd deadline input)).1 = .waiting fd deadline input ∧
      outcomeOf fd (receive command t (.waiting fd deadline input)).2.1 = none := by
    rw [receive, reads_waiting]
    split
    · next hreadable =>
      rw [hidle.resolve_left (by simp [hreadable])]
      exact ⟨rfl, rfl⟩
    · exact ⟨rfl, rfl⟩
  obtain ⟨hclient, hnone⟩ := hreceive
  rw [(clientTurn_received command horderly).2 (by rw [hclient]; rfl)]
  exact ⟨hclient, hnone⟩

/-- The request is complete, or the connection is over. -/
theorem clientTurn_settled (horderly : t.Orderly (Client.waiting fd deadline input).deadline)
    (hreadable : t.readable = true)
    (hrecv : t.recv (Client.waiting fd deadline input).room = .bytes bytes)
    (hsettled : ¬ Undecided (input ++ bytes) ∨ bytes = []) :
    outcomeOf fd (clientTurn command t (.waiting fd deadline input)).2 =
      some (if '\x00' ∈ input ++ bytes then .silent
        else .answered (respond command (input ++ bytes))) := by
  obtain ⟨⟨later, hlater⟩, -⟩ :=
    clientTurn_received command horderly
  rw [hlater, outcomeOf_append, (receive_bytes command hreadable hrecv).2, accumulate_waiting]
  split
  · rw [outcomeOf_closed, if_pos rfl]
    rfl
  · next hnul =>
    rw [if_pos ((settled_iff hnul).mp hsettled)]
    simp [outcomeOf, ServiceEvent.outcome]

variable (command) in
theorem clientTurn_waits (horderly : t.Orderly (Client.waiting fd deadline input).deadline)
    (hreadable : t.readable = true)
    (hrecv : t.recv (Client.waiting fd deadline input).room = .bytes bytes)
    (hundecided : Undecided (input ++ bytes)) (hbytes : bytes ≠ []) :
    (clientTurn command t (.waiting fd deadline input)).1 =
        .waiting fd deadline (input ++ bytes) ∧
      outcomeOf fd (clientTurn command t (.waiting fd deadline input)).2 = none := by
  have haccumulate : accumulate command bytes (.waiting fd deadline input) =
      (.waiting fd deadline (input ++ bytes), [], true) := by
    rw [accumulate_waiting, if_neg hundecided.nul, if_neg]
    rw [← settled_iff hundecided.nul, not_or, not_not]
    exact ⟨hundecided, hbytes⟩
  obtain ⟨hclient, hnone⟩ := receive_bytes command hreadable hrecv
  rw [haccumulate] at hclient hnone
  rw [(clientTurn_received command horderly).2 (by rw [hclient]; rfl)]
  exact ⟨hclient, hnone⟩

theorem transmit_settled {c : Client} (h : c.Settled) : (transmit t c).1.Settled := by
  rw [transmit]
  split
  · exact h
  · next response hresponse =>
    split
    · split
      · exact h
      · exact .inl rfl
      · exact .inl rfl
      · dsimp only
        split
        · exact .inl rfl
        · exact .inr (by simp [hresponse])
    · exact h

theorem finish_settled {c : Client} (h : c.Settled) : (finish c).1.Settled := by
  rw [finish]
  split
  · exact .inl rfl
  · exact h

/-- What receiving settles stays settled. -/
theorem clientTurn_settles {c : Client} (h : (receive command t c).1.Settled) :
    (clientTurn command t c).1.Settled := by
  rw [clientTurn]
  split
  · exact .inl rfl
  generalize receive command t c = r at h
  obtain ⟨c₁, received, more⟩ := r
  cases more with
  | false => exact h
  | true =>
    have htransmit : (transmit t c₁).1.Settled := transmit_settled h
    simp only [Bool.not_true, Bool.false_eq_true, if_false]
    split
    · exact htransmit
    · exact finish_settled htransmit

end Waiting

-- ---------------------------------------------------------------------------
-- The request that a stream holds
-- ---------------------------------------------------------------------------

section Framed

variable {command : CStr → CStr} {input pending : CStr}

theorem take_window (hle : input.length ≤ serviceMaxRequest - 1) :
    (input ++ pending).take (serviceMaxRequest - 1) =
      input ++ pending.take (serviceMaxRequest - 1 - input.length) := by
  rw [List.take_append, List.take_of_length_le hle]

theorem takeWhile_append_of_mem (hlf : '\n' ∈ input) :
    (input ++ pending).takeWhile (· != '\n') = input.takeWhile (· != '\n') := by
  rw [List.takeWhile_append, if_neg]
  intro hlength
  have hall := List.takeWhile_eq_self_iff.mp
    ((List.takeWhile_sublist (· != '\n')).eq_of_length hlength)
  simpa using hall _ hlf

theorem takeWhile_of_notMem (hlf : '\n' ∉ input) : input.takeWhile (· != '\n') = input := by
  rw [List.takeWhile_eq_self_iff]
  rintro c hc
  rw [bne_iff_ne]
  rintro rfl
  exact hlf hc

theorem capResponse_requestTooLarge : capResponse requestTooLarge = requestTooLarge := by decide

theorem respond_line (hlf : '\n' ∈ input) :
    respond command input = capResponse (command (input.takeWhile (· != '\n'))) := by
  simp [respond, hlf]

theorem respond_full (hlf : '\n' ∉ input) (hfull : input.length = serviceMaxRequest - 1) :
    respond command input = requestTooLarge := by
  simp [respond, hlf, hfull, capResponse_requestTooLarge]

theorem respond_whole (hundecided : Undecided input) :
    respond command input = capResponse (command input) := by
  simp [respond, hundecided.lf, hundecided.short, takeWhile_of_notMem hundecided.lf]

/-- The input settles the connection, and the rest of the stream is not read. -/
theorem framed_settled (hle : input.length ≤ serviceMaxRequest - 1) (eof : Bool)
    (hsettled : ¬ Undecided input) (hbehind : ¬ NulBehindLine (input ++ pending)) :
    framed command (input ++ pending) eof =
      if '\x00' ∈ input then .silent else .answered (respond command input) := by
  simp only [NulBehindLine, take_window hle, not_and, not_not] at hbehind
  simp only [framed, take_window hle]
  by_cases hnul : '\x00' ∈ input
  · rw [if_pos hnul, if_pos (hbehind (List.mem_append_left _ hnul))]
  rw [if_neg hnul]
  by_cases hlf : '\n' ∈ input
  · rw [takeWhile_append_of_mem hlf, if_neg fun h => hnul (List.takeWhile_subset _ h),
      if_pos (List.mem_append_left _ hlf), respond_line hlf]
  · have hfull : input.length = serviceMaxRequest - 1 := by
      by_contra hshort
      exact hsettled ⟨hnul, hlf, hshort⟩
    rw [hfull, Nat.sub_self, List.take_zero, List.append_nil, takeWhile_of_notMem hlf, if_neg hnul,
      if_neg hlf, if_pos hfull, respond_full hlf hfull]

/-- The client stops before the connection is settled. -/
theorem framed_undecided (hle : input.length ≤ serviceMaxRequest - 1) (eof : Bool)
    (hundecided : Undecided input) :
    framed command input eof =
      if eof then .answered (respond command input) else .silent := by
  simp only [framed, List.take_of_length_le hle]
  rw [takeWhile_of_notMem hundecided.lf, if_neg hundecided.nul, if_neg hundecided.lf,
    if_neg hundecided.short, respond_whole hundecided]

variable (input) in
/-- However the stream is cut, the connection ends as `framed` says. -/
theorem converse_of_delivers {c : Client} {eof : Bool} {turns : List Turn}
    (h : Delivers command c pending eof turns) {fd : Nat} {deadline : Int}
    (hc : c = .waiting fd deadline input) (hle : input.length ≤ serviceMaxRequest - 1)
    (hundecided : Undecided input) (hbehind : ¬ NulBehindLine (input ++ pending)) :
    converse command fd turns c = some (framed command (input ++ pending) eof) := by
  -- the induction follows the delivery; what was received so far stays undecided
  induction h generalizing input with
  | settled hsettled =>
    subst hc
    exact absurd rfl (hsettled.resolve_left (Option.some_ne_none fd))
  | late hlate =>
    subst hc
    rw [converse, clientTurn_late hlate, List.append_nil,
      framed_undecided hle _ hundecided]
    rfl
  | idle horderly hidle _ ih =>
    subst hc
    obtain ⟨hclient, hnone⟩ := clientTurn_idle command horderly hidle
    rw [converse, hnone, Option.none_or]
    exact ih _ hclient hle hundecided hbehind
  | eof horderly hreadable hrecv =>
    subst hc
    rw [converse, clientTurn_settled horderly hreadable hrecv (.inr rfl), List.append_nil,
      framed_undecided hle _ hundecided, if_neg hundecided.nul]
    rfl
  | @segment c bytes pending eof t turns horderly hreadable hrecv hbytes _ ih =>
    subst hc
    have hroom := t.recv_le hrecv
    have hle' : (input ++ bytes).length ≤ serviceMaxRequest - 1 := by
      rw [List.length_append]
      simp only [Client.room, Client.used, Client.waiting] at hroom
      omega
    rw [← List.append_assoc] at hbehind ⊢
    by_cases hsettled : Undecided (input ++ bytes)
    · obtain ⟨hclient, hnone⟩ := clientTurn_waits command horderly hreadable hrecv hsettled
        hbytes
      rw [converse, hnone, Option.none_or]
      exact ih _ hclient hle' hsettled hbehind
    · rw [converse, clientTurn_settled horderly hreadable hrecv (.inl hsettled),
        framed_settled hle' _ hsettled hbehind]
      rfl

end Framed

-- ---------------------------------------------------------------------------
-- Sessions
-- ---------------------------------------------------------------------------

/-- A connection that the server accepted in some run, and the rounds in which it
    is served. -/
structure Session (command : CStr → CStr) (stream : CStr) (eof : Bool) where
  listener : Nat
  limit : Nat
  before : List Outside
  state : Service
  history : List ServiceEvent
  slot : Nat
  fd : Nat
  deadline : Int
  rounds : List Outside
  limit_range : 1 ≤ limit ∧ limit ≤ serviceMaxClients
  reached : serviceRun command before (serviceInit listener limit) = .ok (state, history)
  accepted : state.clients[slot]? = some (.waiting fd deadline [])
  delivers : Delivers command (.waiting fd deadline []) stream eof (rounds.map (·.turnOf fd))

section Session

variable {command : CStr → CStr} {stream : CStr} {eof : Bool}

def Session.outcome (a : Session command stream eof) : Option Outcome :=
  match serviceRun command a.rounds a.state with
  | .ok (_, events) => outcomeOf a.fd events
  | .error _ => none

theorem Session.outcome_eq (a : Session command stream eof) :
    a.outcome =
      converse command a.fd (a.rounds.map (·.turnOf a.fd)) (.waiting a.fd a.deadline []) := by
  obtain ⟨s, events, hreached, hok, hlistener, -⟩ :=
    serviceRun_follows command a.before (serviceInit_ok a.listener a.limit_range) rfl
  rw [a.reached] at hreached
  cases hreached
  obtain ⟨s', events, hrun, -⟩ := serviceRun_follows command a.rounds hok hlistener
  rw [Session.outcome, hrun]
  exact serviceRun_projects a.rounds hok hlistener ⟨a.accepted, rfl⟩ hrun

/-- Unless a NUL byte stands behind the line, every session of a stream ends the
    same way. -/
theorem Session.outcome_framed (a : Session command stream eof) (hbehind : ¬ NulBehindLine stream) :
    a.outcome = some (framed command stream eof) := by
  rw [a.outcome_eq]
  exact converse_of_delivers [] a.delivers rfl (Nat.zero_le _)
    ⟨List.not_mem_nil, List.not_mem_nil, by decide⟩ hbehind

end Session

namespace Sample

/-- Descriptor 4 connects. -/
def arrival : Outside where
  now := 0
  poll fd := ⟨fd == some 3, false, false, false, false⟩
  recv _ _ := .fail
  send _ _ := .fail
  accept _ opened := if 4 ∈ opened then none else some 4
  recv_le := Recv.noConfusion
  send_le := Send.noConfusion
  accept_fresh h := by
    split at h
    · cases h
    · next hfresh => cases h; exact hfresh

/-- Descriptor 4 sends some bytes at once. -/
def sends (bytes : CStr) : Outside where
  now := 1
  poll fd := ⟨fd == some 4, false, false, false, false⟩
  recv _ length := .bytes (bytes.take length)
  send _ _ := .sent 0
  accept _ _ := none
  recv_le h := by
    cases h
    exact List.length_take_le _ _
  send_le h := by
    cases h
    exact Nat.zero_le _
  accept_fresh h := by cases h

/-- The state once descriptor 4 has connected. -/
def connected : Service where
  listener := some 3
  clients := .waiting 4 5000000 [] :: List.replicate 127 .free
  pollSlots := List.replicate serviceMaxClients 0
  limit := 1

set_option maxRecDepth 4000 in
theorem run_arrival (command : CStr → CStr) :
    serviceRun command [arrival] (serviceInit 3 1) = .ok (connected, [.accepted 4]) := by
  rfl

theorem sends_orderly (bytes : CStr) : ((sends bytes).turnOf 4).Orderly 5000000 :=
  ⟨show (1 : Int) < 5000000 by decide, rfl, rfl⟩

theorem sends_recv {bytes : CStr} (hle : bytes.length ≤ serviceMaxRequest - 1) :
    ((sends bytes).turnOf 4).recv (Client.waiting 4 5000000 []).room = .bytes bytes :=
  congrArg Recv.bytes (List.take_of_length_le hle)

/-- The server gets `bytes` at once, and that settles the connection. -/
def session (command : CStr → CStr) {bytes : CStr} (pending : CStr) (eof : Bool)
    (hle : bytes.length ≤ serviceMaxRequest - 1) (hbytes : bytes ≠ [])
    (hsettled : ¬ Undecided bytes) : Session command (bytes ++ pending) eof where
  listener := 3
  limit := 1
  before := [arrival]
  state := connected
  history := [.accepted 4]
  slot := 0
  fd := 4
  deadline := 5000000
  rounds := [sends bytes]
  limit_range := by decide
  reached := run_arrival command
  accepted := rfl
  delivers := by
    refine .segment (sends_orderly bytes) rfl (sends_recv hle) hbytes
      (.settled (clientTurn_settles ?_))
    rw [(receive_bytes command rfl (sends_recv hle)).1, accumulate_waiting]
    split
    · exact .inl rfl
    · next hnul =>
      rw [if_pos ((settled_iff hnul).mp (.inl hsettled))]
      exact .inr (Option.some_ne_none _)

theorem session_outcome (command : CStr → CStr) {bytes : CStr} (pending : CStr) (eof : Bool)
    (hle : bytes.length ≤ serviceMaxRequest - 1) (hbytes : bytes ≠ [])
    (hsettled : ¬ Undecided bytes) :
    (session command pending eof hle hbytes hsettled).outcome =
      some (if '\x00' ∈ bytes then .silent else .answered (respond command bytes)) := by
  rw [Session.outcome_eq]
  show converse command 4 [(sends bytes).turnOf 4] (.waiting 4 5000000 []) = _
  rw [converse, clientTurn_settled (sends_orderly bytes) rfl (sends_recv hle) (.inl hsettled)]
  rfl

end Sample

section Segmentation

variable {stream : CStr}

theorem exists_session (command : CStr → CStr) (bytes pending : CStr) (eof : Bool)
    (hstream : stream = bytes ++ pending) (hle : bytes.length ≤ serviceMaxRequest - 1)
    (hsettled : '\x00' ∈ bytes ∨ '\n' ∈ bytes) : ∃ a : Session command stream eof, a.outcome =
      some (if '\x00' ∈ bytes then .silent else .answered (respond command bytes)) := by
  subst hstream
  have hbytes : bytes ≠ [] := by
    rintro rfl
    simp at hsettled
  exact ⟨_, Sample.session_outcome command pending eof hle hbytes fun h =>
    hsettled.elim h.nul h.lf⟩

/-- A line with a NUL byte behind it can be cut so that it is answered, and so that
    it is not. -/
theorem NulBehindLine.exists_sessions (h : NulBehindLine stream) (command : CStr → CStr)
    (eof : Bool) : ∃ a b : Session command stream eof, a.outcome ≠ b.outcome := by
  obtain ⟨hnul, hline⟩ := h
  have hlf : '\n' ∈ stream.take (serviceMaxRequest - 1) := by
    by_contra hlf
    rw [takeWhile_of_notMem hlf] at hline
    exact hline hnul
  obtain ⟨line, behind, hwindow, hnot⟩ := List.eq_append_cons_of_mem hlf
  have hle : (stream.take (serviceMaxRequest - 1)).length ≤ serviceMaxRequest - 1 :=
    List.length_take_le _ _
  -- all at once: the NUL byte is seen first
  obtain ⟨a, ha⟩ := exists_session command _ _ eof
    (List.take_append_drop (serviceMaxRequest - 1) stream).symm hle (.inl hnul)
  rw [if_pos hnul] at ha
  -- the line first: it is answered before the NUL byte comes
  have hstream : stream = (line ++ ['\n']) ++ (behind ++ stream.drop (serviceMaxRequest - 1)) := by
    rw [List.append_assoc, ← List.append_assoc ['\n'], List.singleton_append,
      ← List.append_assoc, ← hwindow, List.take_append_drop]
  have hline' : '\x00' ∉ line ++ ['\n'] := by
    rw [hwindow, ← List.singleton_append, ← List.append_assoc, takeWhile_append_of_mem (by simp),
      List.takeWhile_append_of_pos] at hline
    · simpa using hline
    · intro c hc
      rw [bne_iff_ne]
      rintro rfl
      exact hnot hc
  obtain ⟨b, hb⟩ := exists_session command _ _ eof hstream (by
    rw [hwindow, List.length_append, List.length_cons] at hle
    rw [List.length_append, List.length_singleton]
    omega) (.inr (by simp))
  rw [if_neg hline'] at hb
  refine ⟨a, b, ?_⟩
  rw [ha, hb]
  exact fun heq => by cases heq

end Segmentation

/-- Whether a stream can be cut into segments in ways that make a difference: the
    sessions of it all end as `framed` says if and only if no NUL byte stands
    behind the line. -/
theorem framing_independent_iff (command : CStr → CStr) (stream : CStr) (eof : Bool) :
    (∀ a b : Session command stream eof, a.outcome = b.outcome ∧
      a.outcome = some (framed command stream eof)) ↔ ¬ NulBehindLine stream := by
  constructor
  · intro h hbehind
    obtain ⟨a, b, hne⟩ := hbehind.exists_sessions command eof
    exact hne (h a b).1
  · intro hbehind a b
    rw [a.outcome_framed hbehind, b.outcome_framed hbehind]
    exact ⟨rfl, rfl⟩

/-- `STUN` in a line, and a NUL byte behind it. -/
def Sample.trailing : CStr := ['S', 'T', 'U', 'N', '\n', '\x00']

/-- What the daemon answers while there is no tunnel. -/
def Sample.idle : CStr → CStr :=
  answer ⟨[], [], [], [], 0, [], 0⟩ (Sample.start Sample.obliging)

theorem Sample.respond_idle : respond Sample.idle ['S', 'T', 'U', 'N', '\n'] = resultNull := by
  decide +kernel

/-- At once, the connection is closed; the line first, and it is answered. -/
theorem not_framing_independent :
    ∃ a b : Session Sample.idle Sample.trailing false, a.outcome = some .silent ∧
      b.outcome = some (.answered resultNull) := by
  obtain ⟨a, ha⟩ := exists_session Sample.idle Sample.trailing [] false rfl (by decide) (by decide)
  obtain ⟨b, hb⟩ := exists_session Sample.idle ['S', 'T', 'U', 'N', '\n'] ['\x00'] false rfl
    (by decide) (by decide)
  rw [if_neg (by decide), Sample.respond_idle] at hb
  exact ⟨a, b, ha, hb⟩

end Softgre
