-- SUMMARY: What each connection is sent, in every run: its own response, byte for byte.
import Softgre.Service.Framing

/-!
# Delivery

A run is logged connection by connection: what `recv` returned, which response
was computed, which bytes `send` accepted, and why the connection was closed. The
log is read off the states the server goes through, so that a connection is
followed through its slot, whoever had the slot or the descriptor before it and
whoever gets them afterwards.
-/

namespace Softgre

-- ---------------------------------------------------------------------------
-- The log
-- ---------------------------------------------------------------------------

/-- Why `service_dispatch` closes a connection. -/
inductive Why where
  | deadline
  | event
  | recv
  | nul
  | send
  | complete
  | empty
deriving DecidableEq, Repr

/-- The deadline, an error event, or an error of `recv` or `send`. -/
def Why.isFailure : Why → Bool
  | .deadline | .event | .recv | .send => true
  | .nul | .complete | .empty => false

/-- What happens to a connection. Without a free slot it is refused. -/
inductive Act where
  | opened
  | refused
  | received (bytes : CStr)
  | answered (response : CStr)
  | sent (bytes : CStr)
  | closed (why : Why)
deriving DecidableEq, Repr

structure Deed where
  fd : Nat
  act : Act
deriving DecidableEq, Repr

section Acts

variable (command : CStr → CStr)

def accumulateActs (bytes : CStr) (c : Client) : List Act :=
  let input := c.input ++ bytes
  if input.contains '\x00' then [.closed .nul]
  else if input.contains '\n' || bytes.isEmpty || input.length == serviceMaxRequest - 1 then
    [.answered (respond command input)]
  else []

def receiveActs (t : Turn) (c : Client) : List Act :=
  if c.reads t.flags then
    match t.recv c.room with
    | .again => []
    | .fail => [.closed .recv]
    | .bytes bytes => .received bytes :: accumulateActs command bytes c
  else []

/-- `send` is handed the response from `sent` on. That it takes nothing is an
    error, unless nothing was left. -/
def transmitActs (t : Turn) (c : Client) : List Act :=
  match c.response with
  | none => []
  | some response =>
    if t.flags.pollout || t.flags.pollhup then
      match t.send (response.length - c.sent) with
      | .again => []
      | .fail => [.closed .send]
      | .sent 0 => [.closed (if response.length - c.sent = 0 then .empty else .send)]
      | .sent count =>
        .sent ((response.drop c.sent).take count) ::
          if c.sent + count == response.length then [.closed .complete] else []
    else []

def finishActs (c : Client) : List Act :=
  if c.response = some [] then [.closed .empty] else []

/-- What `clientTurn` does to the connection. -/
def clientActs (t : Turn) (c : Client) : List Act :=
  if t.now ≥ c.deadline then [.closed .deadline]
  else if t.flags.pollerr || t.flags.pollnval then [.closed .event]
  else
    let (c', _, more) := receive command t c
    receiveActs command t c ++
      if !more then []
      else
        let (c'', _, more) := transmit t c'
        transmitActs t c' ++ if !more then [] else finishActs c''

def Client.deeds (c : Client) (acts : List Act) : List Deed :=
  c.fd.toList.flatMap fun fd => acts.map (Deed.mk fd)

variable (o : Outside)

/-- The client loop of `service_dispatch`, over positions of `fds`. -/
def dispatchDeeds (slots : List Nat) (fds : List PollFd) :
    List Nat → List Client → Except Fault (List Deed)
  | [], _ => return []
  | n :: rest, clients => do
    let slot ← getAt slots (n - 1)
    let client ← getAt clients slot
    let polled ← getAt fds n
    let (clients, _) ← dispatchClient command o slots fds (clients, []) n
    let more ← dispatchDeeds slots fds rest clients
    return client.deeds (clientActs command (o.turn polled.revents client.fd) client) ++ more

/-- The accept loop, with the number of connections that may still come. -/
def acceptDeeds (limit : Nat) : Nat → List Client → Except Fault (List Deed)
  | 0, _ => return []
  | left + 1, clients => do
    match o.accept left (openFds clients) with
    | none => return []
    | some fd =>
      let slot ← freeSlot clients limit limit
      if slot = limit then
        let more ← acceptDeeds limit left clients
        return ⟨fd, .refused⟩ :: more
      else
        let client ← getAt clients slot
        let clients ← setAt clients slot
          { client with fd := some fd, deadline := o.now + 5 * 1000000 }
        let more ← acceptDeeds limit left clients
        return ⟨fd, .opened⟩ :: more

/-- What `serviceRound` does, connection by connection. -/
def roundDeeds (s : Service) : Except Fault (List Deed) := do
  let (s, fds, count) ← servicePollfds s pollArray
  if count = 0 then return []
  let fds := fds.map o.fill
  let positions := List.range' 1 (count - 1)
  let turns ← dispatchDeeds command o s.pollSlots fds positions s.clients
  let (clients, _) ← positions.foldlM (dispatchClient command o s.pollSlots fds) (s.clients, [])
  let first ← getAt fds 0
  if first.revents.pollin then
    let accepted ← acceptDeeds o s.limit 16 clients
    return turns ++ accepted
  else return turns

end Acts

/-- Rounds with their log. Every round comes with `service_command` as it answers in
    the provisioning state of the moment. -/
def serviceLog : List ((CStr → CStr) × Outside) → Service → Except Fault (Service × List Deed)
  | [], s => return (s, [])
  | (command, o) :: rest, s => do
    let deeds ← roundDeeds command o s
    let (s, _) ← serviceRound command o s
    let (s, more) ← serviceLog rest s
    return (s, deeds ++ more)

-- ---------------------------------------------------------------------------
-- One connection in the log
-- ---------------------------------------------------------------------------

/-- What is done on a descriptor. -/
def actsOn (fd : Nat) (deeds : List Deed) : List Act :=
  deeds.filterMap fun d => if d.fd = fd then some d.act else none

/-- The acts of one connection: those up to its close. -/
def upToClose : List Act → List Act
  | [] => []
  | .closed why :: _ => [.closed why]
  | act :: rest => act :: upToClose rest

/-- The acts of the connection that is open on `fd` when `deeds` begin. -/
def connection (fd : Nat) (deeds : List Deed) : List Act := upToClose (actsOn fd deeds)

def Act.received? : Act → CStr
  | .received bytes => bytes
  | _ => []

def Act.answered? : Act → Option CStr
  | .answered response => some response
  | _ => none

def Act.sent? : Act → CStr
  | .sent bytes => bytes
  | _ => []

/-- The bytes `recv` returned, in order. -/
def received (acts : List Act) : CStr := acts.flatMap Act.received?

/-- The responses that were computed. -/
def responses (acts : List Act) : List CStr := acts.filterMap Act.answered?

/-- The bytes `send` accepted, in order. -/
def sentBytes (acts : List Act) : CStr := acts.flatMap Act.sent?

/-- How a connection is to be served: it gets a prefix of its one response, and the
    whole of it if nothing fails; a NUL byte in the request is not answered. -/
structure Delivered (acts : List Act) : Prop where
  single : (responses acts).length ≤ 1
  in_order : sentBytes acts <+: (responses acts).flatten
  whole : ∀ why, .closed why ∈ acts → why.isFailure = false →
    (∃ response, responses acts = [response] ∧ sentBytes acts = response) ∨
      responses acts = [] ∧ '\x00' ∈ received acts

-- ---------------------------------------------------------------------------
-- One turn
-- ---------------------------------------------------------------------------

theorem received_append (acts more : List Act) :
    received (acts ++ more) = received acts ++ received more :=
  List.flatMap_append

theorem responses_append (acts more : List Act) :
    responses (acts ++ more) = responses acts ++ responses more :=
  List.filterMap_append

theorem sentBytes_append (acts more : List Act) :
    sentBytes (acts ++ more) = sentBytes acts ++ sentBytes more :=
  List.flatMap_append

/-- The acts of an open connection so far, and the client they have led to. -/
structure Tracks (past : List Act) (c : Client) : Prop where
  unclosed : ∀ why, .closed why ∉ past
  input_eq : received past = c.input
  responses_eq : responses past = c.response.toList
  sent_eq : sentBytes past = (c.response.getD []).take c.sent

section Tracks

variable {past acts acts' : List Act} {c c' : Client} {fd : Nat} {response : CStr}

theorem Tracks.of_free (hok : c.Ok) (hfree : c.fd = none) (deadline : Int) :
    Tracks [] { c with fd := some fd, deadline } := by
  obtain ⟨hused, -, hresponse⟩ := hok.free hfree
  refine ⟨by simp, (List.length_eq_zero_iff.mp hused).symm, ?_, ?_⟩
  · rw [hresponse]
    rfl
  · rw [hresponse]
    exact List.take_nil.symm

theorem Tracks.snoc_unclosed (h : Tracks past c) {act : Act} (hact : ∀ why, act ≠ .closed why) :
    ∀ why, .closed why ∉ past ++ [act] := by
  intro why hmem
  rcases List.mem_append.mp hmem with hmem | hmem
  · exact h.unclosed why hmem
  · exact hact why (List.mem_singleton.mp hmem).symm

theorem Tracks.snoc_received (h : Tracks past c) (bytes : CStr) :
    Tracks (past ++ [.received bytes]) { c with input := c.input ++ bytes } where
  unclosed := h.snoc_unclosed (by simp)
  input_eq := by
    rw [received_append, h.input_eq]
    exact congrArg _ (List.append_nil bytes)
  responses_eq := by
    rw [responses_append, h.responses_eq]
    exact List.append_nil _
  sent_eq := by
    rw [sentBytes_append, h.sent_eq]
    exact List.append_nil _

theorem Tracks.snoc_answered (h : Tracks past c) (hnone : c.response = none) (hsent : c.sent = 0)
    (response : CStr) : Tracks (past ++ [.answered response]) { c with response := some response }
    where
  unclosed := h.snoc_unclosed (by simp)
  input_eq := by
    rw [received_append, h.input_eq]
    exact List.append_nil _
  responses_eq := by
    rw [responses_append, h.responses_eq, hnone]
    rfl
  sent_eq := by
    rw [sentBytes_append, h.sent_eq, hnone, hsent]
    rfl

theorem Tracks.snoc_sent (h : Tracks past c) (hsome : c.response = some response) (count : Nat) :
    Tracks (past ++ [.sent ((response.drop c.sent).take count)])
      { c with sent := c.sent + count } where
  unclosed := h.snoc_unclosed (by simp)
  input_eq := by
    rw [received_append, h.input_eq]
    exact List.append_nil _
  responses_eq := by
    rw [responses_append, h.responses_eq]
    exact List.append_nil _
  sent_eq := by
    rw [sentBytes_append, h.sent_eq, hsome, Option.getD_some, List.take_add]
    exact congrArg _ (List.append_nil _)

/-- What has been sent so far. -/
theorem Tracks.in_order (h : Tracks past c) : sentBytes past <+: (responses past).flatten := by
  rw [h.sent_eq, h.responses_eq]
  cases c.response with
  | none => exact List.take_prefix _ _
  | some response =>
    rw [Option.toList_some, List.flatten_singleton]
    exact List.take_prefix _ _

theorem Tracks.single (h : Tracks past c) : (responses past).length ≤ 1 := by
  rw [h.responses_eq]
  cases c.response <;> simp

theorem Tracks.delivered (h : Tracks past c) : Delivered past :=
  ⟨h.single, h.in_order, fun why hmem => absurd hmem (h.unclosed why)⟩

/-- The connection is closed, with all of the response sent or a NUL byte received if
    nothing failed. -/
theorem Tracks.close (h : Tracks past c) {why : Why}
    (hwhole : why.isFailure = false → (∃ response, c.response = some response ∧
      c.sent = response.length) ∨ c.response = none ∧ '\x00' ∈ c.input) :
    Delivered (past ++ [.closed why]) := by
  have hresponses : responses (past ++ [.closed why]) = responses past := by
    rw [responses_append]
    exact List.append_nil _
  have hsent : sentBytes (past ++ [.closed why]) = sentBytes past := by
    rw [sentBytes_append]
    exact List.append_nil _
  refine ⟨by rw [hresponses]; exact h.single, by rw [hresponses, hsent]; exact h.in_order, ?_⟩
  intro why' hmem hfailure
  have heq : why' = why := by
    rcases List.mem_append.mp hmem with hmem | hmem
    · exact absurd hmem (h.unclosed why')
    · exact Act.closed.inj (List.mem_singleton.mp hmem)
  rw [hresponses, hsent, received_append, h.responses_eq, h.sent_eq, h.input_eq]
  rcases hwhole (heq ▸ hfailure) with ⟨response, hsome, hall⟩ | ⟨hnone, hnul⟩
  · rw [hsome, hall]
    exact .inl ⟨response, rfl, List.take_length⟩
  · rw [hnone]
    exact .inr ⟨rfl, List.mem_append_left _ hnul⟩

/-- What a turn, or a part of it, does to a connection that holds `fd`. -/
inductive Served (fd : Nat) (past : List Act) : Client → List Act → Prop
  | kept {c : Client} {acts : List Act} (hfd : c.fd = some fd) (htracks : Tracks (past ++ acts) c) :
    Served fd past c acts
  | closed {acts : List Act} {why : Why} (hunclosed : ∀ why', .closed why' ∉ acts)
    (hdelivered : Delivered (past ++ (acts ++ [.closed why]))) :
    Served fd past .free (acts ++ [.closed why])

theorem Served.close (acts : List Act) (why : Why) (h : Tracks (past ++ acts) c)
    (hwhole : why.isFailure = false → (∃ response, c.response = some response ∧
      c.sent = response.length) ∨ c.response = none ∧ '\x00' ∈ c.input) :
    Served fd past .free (acts ++ [.closed why]) := by
  refine .closed (fun why' hmem => h.unclosed why' (List.mem_append_right _ hmem)) ?_
  rw [← List.append_assoc]
  exact h.close hwhole

/-- Nothing happened before the close. -/
theorem Served.close_nil (why : Why) (h : Tracks past c)
    (hwhole : why.isFailure = false → (∃ response, c.response = some response ∧
      c.sent = response.length) ∨ c.response = none ∧ '\x00' ∈ c.input) :
    Served fd past .free [.closed why] :=
  Served.close [] why (by rwa [List.append_nil]) hwhole

/-- Nothing happens. -/
theorem Served.idle (hfd : c.fd = some fd) (h : Tracks past c) : Served fd past c [] :=
  .kept hfd (by rwa [List.append_nil])

/-- The rest of a turn, behind a part that went through. -/
theorem Served.bind (h : Served fd past c acts) (hfree : c = .free → c' = .free ∧ acts' = [])
    (hkept : c.fd = some fd → Tracks (past ++ acts) c → Served fd (past ++ acts) c' acts') :
    Served fd past c' (acts ++ acts') := by
  cases h with
  | kept hfd htracks =>
    cases hkept hfd htracks with
    | kept hfd' htracks' => exact .kept hfd' (by rwa [← List.append_assoc])
    | closed hunclosed hdelivered =>
      rw [← List.append_assoc]
      refine .closed (fun why' hmem => ?_) (by rwa [List.append_assoc, ← List.append_assoc past])
      rcases List.mem_append.mp hmem with hmem | hmem
      · exact htracks.unclosed why' (List.mem_append_right _ hmem)
      · exact hunclosed why' hmem
  | closed hunclosed hdelivered =>
    obtain ⟨rfl, rfl⟩ := hfree rfl
    rw [List.append_nil]
    exact .closed hunclosed hdelivered

theorem Turned.ok {events : List ServiceEvent} (h : Turned fd c events) : c.Ok := by
  cases h with
  | kept hok => exact hok
  | closed => exact Client.free_ok

variable (command : CStr → CStr) (t : Turn)

theorem accumulate_served {bytes : CStr} (hfd : c.fd = some fd) (hnone : c.response = none)
    (hsent : c.sent = 0) (h : Tracks past c) :
    Served fd past (accumulate command bytes c).1
      (.received bytes :: accumulateActs command bytes c) := by
  have hreceived := h.snoc_received bytes
  rw [accumulateActs, accumulate]
  split
  · next hnul =>
    rw [List.contains_iff_mem] at hnul
    exact .close [.received bytes] _ hreceived fun _ => .inr ⟨hnone, hnul⟩
  · split
    · refine .kept hfd ?_
      rw [List.append_cons]
      exact hreceived.snoc_answered hnone hsent _
    · exact .kept hfd hreceived

theorem receive_served (hok : c.Ok) (hfd : c.fd = some fd) (h : Tracks past c) :
    Served fd past (receive command t c).1 (receiveActs command t c) := by
  rw [receive, receiveActs]
  split
  · next hreads =>
    have hnone : c.response = none := by simpa using (Bool.and_eq_true_iff.mp hreads).1
    cases t.recv c.room with
    | again => exact .idle hfd h
    | fail => exact .close_nil .recv h fun hfailure => by cases hfailure
    | bytes bytes => exact accumulate_served command hfd hnone (hok.reading hnone).2 h
  · exact .idle hfd h

theorem transmit_served (hok : c.Ok) (hfd : c.fd = some fd) (h : Tracks past c) :
    Served fd past (transmit t c).1 (transmitActs t c) := by
  rw [transmit, transmitActs]
  cases hresponse : c.response with
  | none => exact .idle hfd h
  | some response =>
    obtain ⟨hle, -⟩ := hok.answering hresponse
    simp only
    split
    · cases t.send (response.length - c.sent) with
      | again => exact .idle hfd h
      | fail => exact .close_nil .send h fun hfailure => by cases hfailure
      | sent count =>
        cases count with
        | zero =>
          refine .close_nil _ h fun hfailure => .inl ⟨response, hresponse, ?_⟩
          split at hfailure
          · omega
          · cases hfailure
        | succ count =>
          have hsent := h.snoc_sent hresponse (count + 1)
          simp only
          split
          · next hall =>
            exact .close [.sent _] _ hsent fun _ =>
              .inl ⟨response, hresponse, by simpa using hall⟩
          · rw [hresponse] at hsent
            exact .kept hfd hsent
    · exact .idle hfd h

theorem finish_served (hok : c.Ok) (hfd : c.fd = some fd) (h : Tracks past c) :
    Served fd past (finish c).1 (finishActs c) := by
  rw [finish, finishActs]
  split
  · next hempty =>
    refine .close_nil _ h fun _ => .inl ⟨[], hempty, ?_⟩
    exact Nat.le_zero.mp (hok.answering hempty).1
  · exact .idle hfd h

/-- How far a turn goes: it closes the connection at once, or stops behind `recv` or
    `send`, or comes to its end. -/
inductive TurnPath (c : Client) : Client × List ServiceEvent → List Act → Prop
  | fails (why : Why) (hwhy : why.isFailure = true) : TurnPath c (closeClient c) [.closed why]
  | receives (hstops : (receive command t c).2.2 = false) :
    TurnPath c ((receive command t c).1, (receive command t c).2.1) (receiveActs command t c)
  | transmits {c' : Client} {received : List ServiceEvent}
    (hreceived : receive command t c = (c', received, true))
    (hstops : (transmit t c').2.2 = false) :
    TurnPath c ((transmit t c').1, received ++ (transmit t c').2.1)
      (receiveActs command t c ++ transmitActs t c')
  | finishes {c' c'' : Client} {received transmitted : List ServiceEvent}
    (hreceived : receive command t c = (c', received, true))
    (htransmitted : transmit t c' = (c'', transmitted, true)) :
    TurnPath c ((finish c'').1, received ++ transmitted ++ (finish c'').2)
      (receiveActs command t c ++ (transmitActs t c' ++ finishActs c''))

theorem clientTurn_path (c : Client) :
    TurnPath command t c (clientTurn command t c) (clientActs command t c) := by
  rw [clientTurn, clientActs]
  by_cases hlate : t.now ≥ c.deadline
  · rw [decide_eq_true hlate, Bool.true_or, if_pos rfl, if_pos hlate]
    exact .fails .deadline rfl
  rw [decide_eq_false hlate, Bool.false_or, if_neg hlate]
  by_cases hevent : (t.flags.pollerr || t.flags.pollnval) = true
  · rw [if_pos hevent, if_pos hevent]
    exact .fails .event rfl
  rw [if_neg hevent, if_neg hevent]
  cases hreceived : receive command t c with
  | mk c' rest =>
    obtain ⟨received, more⟩ := rest
    cases more with
    | false =>
      have hpath := TurnPath.receives (c := c) (congrArg (fun r => r.2.2) hreceived)
      rw [hreceived] at hpath
      simpa using hpath
    | true =>
      cases htransmitted : transmit t c' with
      | mk c'' rest =>
        obtain ⟨transmitted, more⟩ := rest
        cases more with
        | false =>
          have hpath := TurnPath.transmits hreceived (congrArg (fun r => r.2.2) htransmitted)
          rw [htransmitted] at hpath
          simpa [htransmitted] using hpath
        | true => simpa [htransmitted] using TurnPath.finishes hreceived htransmitted

/-- A turn keeps the connection and what is known of it, or closes it with its
    response delivered. -/
theorem clientTurn_served (hok : c.Ok) (hfd : c.fd = some fd) (h : Tracks past c) :
    Served fd past (clientTurn command t c).1 (clientActs command t c) := by
  have hreceived := receive_served command t hok hfd h
  have hok₁ := (receive_passes command t hok hfd).1.ok
  have hpath := clientTurn_path command t c
  generalize clientTurn command t c = r at hpath ⊢
  generalize clientActs command t c = acts at hpath ⊢
  cases hpath with
  | fails why hwhy =>
    refine .close_nil why h fun hfailure => ?_
    rw [hwhy] at hfailure
    cases hfailure
  | receives => exact hreceived
  | transmits heq =>
    rw [heq] at hreceived hok₁
    refine hreceived.bind ?_ fun hfd₁ htracks₁ => transmit_served t hok₁ hfd₁ htracks₁
    rintro rfl
    exact ⟨rfl, rfl⟩
  | finishes heq heq' =>
    rw [heq] at hreceived hok₁
    refine hreceived.bind ?_ fun hfd₁ htracks₁ => ?_
    · rintro rfl
      cases heq'
      exact ⟨rfl, rfl⟩
    · have htransmitted := transmit_served t hok₁ hfd₁ htracks₁
      have hok₂ := (transmit_passes t hok₁ hfd₁).1.ok
      rw [heq'] at htransmitted hok₂
      refine htransmitted.bind ?_ fun hfd₂ htracks₂ => finish_served hok₂ hfd₂ htracks₂
      rintro rfl
      exact ⟨rfl, rfl⟩

end Tracks

-- ---------------------------------------------------------------------------
-- The log and the events
-- ---------------------------------------------------------------------------

/-- The events an act shows in. -/
def Act.events (fd : Nat) : Act → List ServiceEvent
  | .opened => [.accepted fd]
  | .refused => [.accepted fd, .closed fd]
  | .answered response => [.answered (some fd) response]
  | .closed _ => [.closed fd]
  | .received _ | .sent _ => []

def Deed.events (d : Deed) : List ServiceEvent := d.act.events d.fd

/-- The log does not say when a turn starts, and how much `recv` may return. -/
def ServiceEvent.isLogged : ServiceEvent → Bool
  | .applied .. | .recv _ => false
  | .answered .. | .accepted _ | .closed _ => true

/-- What is left out does not open or close anything. -/
theorem replay_logged (fds : Finset Nat) (events : List ServiceEvent) :
    replay fds (events.filter ServiceEvent.isLogged) = replay fds events := by
  induction events generalizing fds with
  | nil => rfl
  | cons e rest ih =>
    cases e with
    | applied | recv | answered => exact ih fds
    | accepted fd | closed fd =>
      simp only [List.filter_cons, ServiceEvent.isLogged, if_true, replay, ih]

/-- The acts show in the events. -/
def Logs (fd : Nat) (acts : List Act) (events : List ServiceEvent) : Prop :=
  acts.flatMap (Act.events fd) = events.filter ServiceEvent.isLogged

section Logs

variable {command : CStr → CStr} {t : Turn} {c : Client} {fd : Nat} {acts acts' : List Act}
  {events events' : List ServiceEvent}

theorem Logs.nil : Logs fd [] [] := rfl

theorem Logs.append (h : Logs fd acts events) (h' : Logs fd acts' events') :
    Logs fd (acts ++ acts') (events ++ events') := by
  rw [Logs, List.flatMap_append, List.filter_append, h, h']

theorem Logs.close (hfd : c.fd = some fd) (why : Why) :
    Logs fd [.closed why] (closeClient c).2 := by
  rw [closeClient, hfd]
  rfl

theorem Logs.recv (h : Logs fd acts events) (length : Nat) :
    Logs fd acts (.recv length :: events) :=
  h

variable (command) in
theorem accumulate_logs (hfd : c.fd = some fd) (bytes : CStr) :
    Logs fd (accumulateActs command bytes c) (accumulate command bytes c).2.1 := by
  rw [accumulateActs, accumulate]
  split
  · exact .close hfd _
  · split
    · simp only [hfd]
      rfl
    · exact .nil

variable (command t) in
theorem receive_logs (hfd : c.fd = some fd) :
    Logs fd (receiveActs command t c) (receive command t c).2.1 := by
  rw [receiveActs, receive]
  split
  · cases t.recv c.room with
    | again => exact .nil
    | fail => exact (Logs.close hfd .recv).recv _
    | bytes bytes => exact (accumulate_logs command hfd bytes).recv _
  · exact .nil

variable (t) in
theorem transmit_logs (hfd : c.fd = some fd) :
    Logs fd (transmitActs t c) (transmit t c).2.1 := by
  rw [transmitActs, transmit]
  cases hresponse : c.response with
  | none => exact .nil
  | some response =>
    simp only
    split
    · cases t.send (response.length - c.sent) with
      | again => exact .nil
      | fail => exact .close hfd .send
      | sent count =>
        cases count with
        | zero => exact .close hfd _
        | succ count =>
          simp only
          split
          · exact Logs.close (c := { c with sent := c.sent + (count + 1) }) hfd .complete
          · rfl
    · exact .nil

theorem finish_logs (hfd : c.fd = some fd) : Logs fd (finishActs c) (finish c).2 := by
  rw [finishActs, finish]
  split
  · exact .close hfd _
  · exact .nil

variable (command t) in
/-- The acts of a turn are those its events show. -/
theorem clientTurn_logs (hok : c.Ok) (hfd : c.fd = some fd) :
    Logs fd (clientActs command t c) (clientTurn command t c).2 := by
  have hreceived := receive_logs command t hfd
  obtain ⟨hturned, hpasses⟩ := receive_passes command t hok hfd
  have hpath := clientTurn_path command t c
  generalize clientTurn command t c = r at hpath ⊢
  generalize clientActs command t c = acts at hpath ⊢
  cases hpath with
  | fails why => exact .close hfd why
  | receives => exact hreceived
  | transmits heq =>
    rw [heq] at hreceived hpasses
    refine hreceived.append ?_
    rcases hpasses rfl with hfd₁ | rfl
    · exact transmit_logs t hfd₁
    · rfl
  | finishes heq heq' =>
    rw [heq] at hreceived hpasses hturned
    rw [List.append_assoc]
    refine hreceived.append ?_
    rcases hpasses rfl with hfd₁ | rfl
    · have htransmitted := transmit_logs t hfd₁
      have hpasses' := (transmit_passes t hturned.ok hfd₁).2
      rw [heq'] at htransmitted hpasses'
      refine htransmitted.append ?_
      rcases hpasses' rfl with hfd₂ | rfl
      · exact finish_logs hfd₂
      · rfl
    · cases heq'
      rfl

end Logs

-- ---------------------------------------------------------------------------
-- One round
-- ---------------------------------------------------------------------------

section Round

variable {command : CStr → CStr} {o : Outside} {clients clients' : List Client} {c : Client}
  {fd : Nat} {deeds : List Deed}

theorem actsOn_append (deeds more : List Deed) :
    actsOn fd (deeds ++ more) = actsOn fd deeds ++ actsOn fd more :=
  List.filterMap_append

theorem actsOn_eq_nil (h : ∀ d ∈ deeds, d.fd ≠ fd) : actsOn fd deeds = [] :=
  List.filterMap_eq_nil_iff.mpr fun d hd => if_neg (h d hd)

theorem mem_deeds {d : Deed} {acts : List Act} :
    d ∈ c.deeds acts ↔ c.fd = some d.fd ∧ d.act ∈ acts := by
  rw [Client.deeds, List.mem_flatMap]
  constructor
  · rintro ⟨fd', hfd', hd⟩
    obtain ⟨act, hact, rfl⟩ := List.mem_map.mp hd
    exact ⟨Option.mem_toList.mp hfd', hact⟩
  · rintro ⟨hfd, hact⟩
    exact ⟨d.fd, Option.mem_toList.mpr hfd, List.mem_map.mpr ⟨d.act, hact, rfl⟩⟩

theorem actsOn_deeds (hfd : c.fd = some fd) (acts : List Act) : actsOn fd (c.deeds acts) = acts := by
  rw [Client.deeds, hfd, actsOn]
  simp [List.filterMap_map]

variable (command o) in
/-- What the turn of a client does. -/
def Client.turnDeeds (c : Client) : List Deed :=
  c.deeds (clientActs command (o.turn (o.poll c.fd) c.fd) c)

variable (command) in
theorem dispatchDeeds_eq {slots : List Nat} {fds : List PollFd} (l : List Nat) (n : Nat)
    (hnodup : l.Nodup) (hlisted : ∀ j i, l[j]? = some i → Listed o slots fds clients (n + j) i) :
    dispatchDeeds command o slots fds (List.range' n l.length) clients =
      .ok (l.flatMap fun i => (clientAt clients i).turnDeeds command o) := by
  induction l generalizing n clients with
  | nil => rfl
  | cons i rest ih =>
    obtain ⟨hi, hrest⟩ := List.nodup_cons.mp hnodup
    have hfirst : Listed o slots fds clients n i := hlisted 0 i rfl
    have hne : ∀ {j}, j ∈ rest → i ≠ j := by
      rintro j hj rfl
      exact hi hj
    have hlater : ∀ j i', rest[j]? = some i' → Listed o slots fds
        (clients.set i ((clientAt clients i).takeTurn command o).1) (n + 1 + j) i' := by
      intro j i' hj
      rw [Nat.add_right_comm, Nat.add_assoc]
      exact (hlisted (j + 1) i' hj).set (hne (List.mem_of_getElem? hj)) _
    have hmore := ih (n + 1) hrest hlater
    have hdispatch := dispatchClient_eq command hfirst []
    obtain ⟨hslot, hlt, p, hp, -, hrevents⟩ := hfirst
    rw [List.length_cons, List.range'_succ, List.flatMap_cons]
    simp only [dispatchDeeds, getAt_eq hslot, getAt_clientAt hlt, getAt_eq hp, hdispatch, hmore,
      hrevents, ok_bind]
    refine congrArg (fun more => Except.ok (_ ++ more)) (List.flatMap_congr fun j hj => ?_)
    rw [clientAt_set_ne (hne hj)]

/-- The accept loop speaks of descriptors that were not open, and one that gets a
    slot is not spoken of again. -/
structure Admits (clients clients' : List Client) (events : List ServiceEvent)
    (deeds : List Deed) : Prop where
  logs : deeds.flatMap Deed.events = events.filter ServiceEvent.isLogged
  fresh : ∀ d ∈ deeds, d.fd ∉ openFds clients
  opened : ∀ {before after : List Deed} {fd : Nat}, deeds = before ++ ⟨fd, .opened⟩ :: after →
    actsOn fd after = [] ∧
      ∃ (i : Nat) (c : Client), clients'[i]? = some c ∧ c.fd = some fd ∧ Tracks [] c

theorem Admits.nil (clients clients' : List Client) : Admits clients clients' [] [] where
  logs := rfl
  fresh d hd := by cases hd
  opened h := by simp at h

/-- There is no slot for a connection. -/
theorem Admits.refused {events : List ServiceEvent} {deeds : List Deed} {fd : Nat}
    (h : Admits clients clients' events deeds) (hfresh : fd ∉ openFds clients) :
    Admits clients clients' ([.accepted fd, .closed fd] ++ events) (⟨fd, .refused⟩ :: deeds) where
  logs := congrArg ([ServiceEvent.accepted fd, .closed fd] ++ ·) h.logs
  fresh := List.forall_mem_cons.mpr ⟨hfresh, h.fresh⟩
  opened {before after fd'} hsplit := by
    cases before with
    | nil => simp at hsplit
    | cons d before => exact h.opened (List.cons.inj hsplit).2

/-- A connection gets a slot, and is left alone by the rest of the loop. -/
theorem Admits.admitted {events : List ServiceEvent} {deeds : List Deed} {c client : Client}
    {fd slot : Nat} (h : Admits (clients.set slot client) clients' events deeds)
    (hc : clients[slot]? = some c) (hfree : c.fd = none) (hfresh : fd ∉ openFds clients)
    (hfd : client.fd = some fd) (hkeeps : clients'[slot]? = some client)
    (htracks : Tracks [] client) :
    Admits clients clients' ([.accepted fd] ++ events) (⟨fd, .opened⟩ :: deeds) where
  logs := congrArg ([ServiceEvent.accepted fd] ++ ·) h.logs
  fresh := List.forall_mem_cons.mpr ⟨hfresh, fun d hd hmem =>
    h.fresh d hd (openFds_subset_set hc hfree _ hmem)⟩
  opened {before after fd'} hsplit := by
    cases before with
    | nil =>
      cases hsplit
      refine ⟨actsOn_eq_nil fun d hd heq => h.fresh d hd ?_, slot, client, hkeeps, hfd, htracks⟩
      have hlt : slot < clients.length := (List.getElem?_eq_some_iff.mp hc).1
      exact List.mem_filterMap.mpr ⟨client, List.mem_set hlt client, by rw [hfd, heq]⟩
    | cons d before => exact h.opened (List.cons.inj hsplit).2

theorem acceptDeeds_admits {limit : Nat} (h : ClientsOk limit clients)
    (hlimit : limit ≤ clients.length) (left : Nat) {events : List ServiceEvent}
    (haccept : acceptClients o limit left clients = .ok (clients', events)) :
    ∃ deeds, acceptDeeds o limit left clients = .ok deeds ∧ Admits clients clients' events deeds := by
  induction left generalizing clients events with
  | zero =>
    cases haccept
    exact ⟨[], rfl, .nil _ _⟩
  | succ left ih =>
    rw [acceptClients] at haccept
    rw [acceptDeeds]
    cases hfd : o.accept left (openFds clients) with
    | none =>
      rw [hfd] at haccept
      cases haccept
      exact ⟨[], rfl, .nil _ _⟩
    | some fd =>
      have hfresh := o.accept_fresh hfd
      obtain ⟨slot, hslot, hcase⟩ := freeSlot_spec hlimit limit (Nat.le_refl limit)
      simp only [hfd, hslot, ok_bind] at haccept ⊢
      by_cases hfull : slot = limit
      · obtain ⟨clients₁, events₁, haccept₁, -⟩ := acceptClients_follows (o := o) h hlimit left
        rw [if_pos hfull, haccept₁, ok_bind] at haccept
        cases haccept
        obtain ⟨deeds, hdeeds, hadmits⟩ := ih h hlimit haccept₁
        rw [if_pos hfull, hdeeds, ok_bind]
        exact ⟨_, rfl, hadmits.refused hfresh⟩
      · obtain ⟨hlt, hfree⟩ := hcase.resolve_left hfull
        have hc := getElem?_clientAt (i := slot) (show slot < clients.length by omega)
        have hok := (h.opened hlt hc hfree hfresh (o.now + 5 * 1000000)).1
        obtain ⟨clients₁, events₁, haccept₁, -, haccepts⟩ :=
          acceptClients_follows (o := o) hok (by rwa [List.length_set]) left
        rw [if_neg hfull, getAt_clientAt (by omega), ok_bind, setAt_eq _ (by omega), ok_bind,
          haccept₁, ok_bind] at haccept
        cases haccept
        obtain ⟨deeds, hdeeds, hadmits⟩ := ih hok (by rwa [List.length_set]) haccept₁
        rw [if_neg hfull, getAt_clientAt (by omega), ok_bind, setAt_eq _ (by omega), ok_bind,
          hdeeds, ok_bind]
        have hat : (clients.set slot { clientAt clients slot with
            fd := some fd, deadline := o.now + 5 * 1000000 })[slot]? = _ :=
          List.getElem?_set_self (by omega)
        exact ⟨_, rfl, hadmits.admitted hc hfree hfresh rfl (haccepts.keeps hat rfl)
          (.of_free (h.ok _ (List.mem_of_getElem? hc)) hfree _)⟩

variable {s s' : Service} {i listener : Nat} {events : List ServiceEvent} {past : List Act}

variable (command o) in
/-- What the turns of a round do. -/
def Service.turnDeeds (s : Service) : List Deed :=
  s.openSlots.flatMap fun i => (clientAt s.clients i).turnDeeds command o

theorem turnDeeds_logs (hok : c.Ok) (hopen : c.isOpen = true) :
    (c.turnDeeds command o).flatMap Deed.events =
      (c.takeTurn command o).2.filter ServiceEvent.isLogged := by
  obtain ⟨fd, hfd⟩ := Option.isSome_iff_exists.mp hopen
  have hlogs := clientTurn_logs command (o.turn (o.poll c.fd) c.fd) hok hfd
  rw [Logs, hfd] at hlogs
  rw [Client.turnDeeds, Client.takeTurn, Client.deeds, hfd, ← hlogs]
  simp [List.flatMap_map, Deed.events]

theorem takeTurns_logs (l : List Nat) (hnodup : l.Nodup)
    (hl : ∀ i ∈ l, (clientAt clients i).Ok ∧ (clientAt clients i).isOpen = true) :
    (l.flatMap fun i => (clientAt clients i).turnDeeds command o).flatMap Deed.events =
      (takeTurns command o l clients).2.filter ServiceEvent.isLogged := by
  induction l generalizing clients with
  | nil => rfl
  | cons i rest ih =>
    obtain ⟨hi, hrest⟩ := List.nodup_cons.mp hnodup
    obtain ⟨⟨hok, hopen⟩, hl⟩ := List.forall_mem_cons.mp hl
    have hsame : ∀ j ∈ rest, ∀ c', clientAt (clients.set i c') j = clientAt clients j := by
      intro j hj c'
      refine clientAt_set_ne ?_ c'
      rintro rfl
      exact hi hj
    have hrest' : rest.flatMap (fun j => (clientAt clients j).turnDeeds command o) =
        rest.flatMap fun j => (clientAt (clients.set i ((clientAt clients i).takeTurn command o).1)
          j).turnDeeds command o :=
      List.flatMap_congr fun j hj => by rw [hsame j hj]
    rw [takeTurns, List.flatMap_cons, List.flatMap_append, turnDeeds_logs hok hopen, hrest',
      ih hrest fun j hj => by rw [hsame j hj]; exact hl j hj, ← List.filter_append]
    rfl

theorem roundDeeds_eq (hok : s.Ok) (hlistener : s.listener = some listener)
    (hround : serviceRound command o s = .ok (s', events)) :
    ∃ accepted admitted, roundDeeds command o s = .ok (s.turnDeeds command o ++ accepted) ∧
      events = (takeTurns command o s.openSlots s.clients).2 ++ admitted ∧
      Admits (takeTurns command o s.openSlots s.clients).1 s'.clients admitted accepted := by
  obtain ⟨clients', admitted, hphase, -⟩ := acceptPhase_follows (o := o) hok hok.turns.ok
  rw [serviceRound_eq hok hlistener, hphase] at hround
  cases hround
  have hturns := dispatchClients_eq command s.openSlots 1 (nodup_openSlots s)
    (fun j i hj => hok.listed (o := o) hj) []
  have hdeeds := dispatchDeeds_eq command s.openSlots 1 (nodup_openSlots s)
    (fun j i hj => hok.listed (o := o) hj)
  obtain ⟨fds, hpoll, hfds⟩ := hok.servicePollfds_eq o hlistener
  rw [roundDeeds, hpoll, ok_bind]
  simp only [Nat.add_sub_cancel_left, hfds, hdeeds, hturns, ok_bind, hok.getAt_listener]
  rw [if_neg (by omega)]
  rw [acceptPhase] at hphase
  split at hphase
  · next hready =>
    obtain ⟨accepted, haccepted, hadmits⟩ := acceptDeeds_admits hok.turns.ok
      (by rw [hok.turns.ok.length]; exact hok.limit_le) 16 hphase
    simp only [if_pos hready, haccepted, ok_bind]
    exact ⟨accepted, admitted, rfl, rfl, hadmits⟩
  · next hidle =>
    cases hphase
    simp only [if_neg hidle]
    exact ⟨[], [], by rw [List.append_nil]; rfl, rfl, .nil _ _⟩

theorem Service.Ok.openSlot {s : Service} (hok : s.Ok) (hi : i ∈ s.openSlots) :
    (clientAt s.clients i).Ok ∧ (clientAt s.clients i).isOpen = true := by
  obtain ⟨hlt, hopen⟩ := mem_openSlots hi
  have hlimit := hok.limit_le
  refine ⟨hok.clients.ok _ (List.mem_of_getElem? (getElem?_clientAt ?_)), hopen⟩
  rw [hok.clients.length]
  omega

/-- The log of a round is about the same round as its events. -/
theorem roundDeeds_logs (hok : s.Ok) (hlistener : s.listener = some listener)
    (hround : serviceRound command o s = .ok (s', events)) :
    ∃ deeds, roundDeeds command o s = .ok deeds ∧
      deeds.flatMap Deed.events = events.filter ServiceEvent.isLogged := by
  obtain ⟨accepted, admitted, hdeeds, rfl, hadmits⟩ := roundDeeds_eq hok hlistener hround
  refine ⟨_, hdeeds, ?_⟩
  rw [List.flatMap_append, List.filter_append, hadmits.logs, Service.turnDeeds,
    takeTurns_logs s.openSlots (nodup_openSlots s) fun i hi => hok.openSlot hi]

/-- Among the turns of a round, the connection on `fd` has its own. -/
theorem actsOn_turnDeeds (hok : s.Ok) (h : Holds s i fd c) :
    actsOn fd (s.turnDeeds command o) = clientActs command (o.turnOf fd) c := by
  have hturn : actsOn fd ((clientAt s.clients i).turnDeeds command o) =
      clientActs command (o.turnOf fd) c := by
    rw [h.clientAt_eq, Client.turnDeeds, actsOn_deeds h.fd_eq, h.fd_eq, Outside.turnOf]
  have hother : ∀ j ∈ s.openSlots, i ≠ j →
      ∀ d ∈ (clientAt s.clients j).turnDeeds command o, d.fd ≠ fd := by
    intro j hj hij d hd
    obtain ⟨-, fd', hne, hfd'⟩ := h.elsewhere hok hij hj
    obtain ⟨hfd, -⟩ := mem_deeds.mp hd
    rw [hfd'] at hfd
    cases hfd
    exact hne
  obtain ⟨l, l', hl⟩ := List.append_of_mem (h.mem_openSlots hok)
  have hnodup := nodup_openSlots s
  rw [Service.turnDeeds]
  rw [hl] at hnodup hother ⊢
  obtain ⟨hi, -⟩ := List.nodup_cons.mp (List.nodup_middle.mp hnodup)
  have hquiet : ∀ l₀ : List Nat, (∀ j ∈ l₀, j ∈ l ++ i :: l' ∧ i ≠ j) →
      actsOn fd (l₀.flatMap fun j => (clientAt s.clients j).turnDeeds command o) = [] := by
    intro l₀ hl₀
    refine actsOn_eq_nil fun d hd => ?_
    obtain ⟨j, hj, hd⟩ := List.mem_flatMap.mp hd
    exact hother j (hl₀ j hj).1 (hl₀ j hj).2 d hd
  have hne : ∀ {j}, j ∈ l ++ l' → i ≠ j := by
    rintro j hj rfl
    exact hi hj
  rw [List.flatMap_append, List.flatMap_cons, actsOn_append, actsOn_append, hturn,
    hquiet l fun j hj => ⟨List.mem_append_left _ hj, hne (List.mem_append_left _ hj)⟩,
    hquiet l' fun j hj => ⟨List.mem_append_right _ (List.mem_cons_of_mem _ hj),
      hne (List.mem_append_right _ hj)⟩, List.nil_append, List.append_nil]

/-- How a connection in slot `i` fares: it is still there, or it was closed. -/
inductive Fares (s : Service) (i fd : Nat) (past acts : List Act) : Prop
  | stays (c : Client) (hholds : Holds s i fd c) (htracks : Tracks (past ++ acts) c)
  | closed (before after : List Act) (why : Why) (heq : acts = before ++ .closed why :: after)
    (hunclosed : ∀ why', .closed why' ∉ before)
    (hdelivered : Delivered (past ++ (before ++ [.closed why])))

theorem serviceRound_fares (hok : s.Ok) (hlistener : s.listener = some listener)
    (h : Holds s i fd c) (htracks : Tracks past c)
    (hround : serviceRound command o s = .ok (s', events)) :
    ∃ deeds, roundDeeds command o s = .ok deeds ∧ Fares s' i fd past (actsOn fd deeds) := by
  obtain ⟨accepted, admitted, hdeeds, -, hadmits⟩ := roundDeeds_eq hok hlistener hround
  refine ⟨_, hdeeds, ?_⟩
  rw [actsOn_append, actsOn_turnDeeds hok h]
  have hserved := clientTurn_served command (o.turnOf fd)
    (hok.clients.ok c (List.mem_of_getElem? h.at_slot)) h.fd_eq htracks
  have hkeeps := fun hkept => serviceRound_keeps hok hlistener h hkept hround
  have hclient := (takeTurns_projects command o hok h).2
  generalize clientTurn command (o.turnOf fd) c = r at hserved hkeeps hclient
  generalize clientActs command (o.turnOf fd) c = acts at hserved ⊢
  obtain ⟨c', events⟩ := r
  cases hserved with
  | kept hfd htracks' =>
    have hnone : actsOn fd accepted = [] := by
      refine actsOn_eq_nil fun d hd heq => hadmits.fresh d hd ?_
      rw [heq]
      refine mem_openFds_of_clientAt (i := i) ?_
      rw [hclient]
      exact hfd
    rw [hnone, List.append_nil]
    exact .stays _ (hkeeps hfd) htracks'
  | closed hunclosed hdelivered =>
    rw [List.append_assoc]
    exact .closed _ _ _ rfl hunclosed hdelivered

end Round

-- ---------------------------------------------------------------------------
-- Runs
-- ---------------------------------------------------------------------------

section Run

variable {command : CStr → CStr} {o : Outside} {s s' : Service} {c : Client} {i fd listener : Nat}
  {deeds : List Deed} {past acts : List Act}

/-- Rounds go through, with their log. -/
theorem serviceLog_follows (rounds : List ((CStr → CStr) × Outside)) (hok : s.Ok)
    (hlistener : s.listener = some listener) :
    ∃ s' deeds, serviceLog rounds s = .ok (s', deeds) ∧ s'.Ok ∧ s'.listener = some listener := by
  induction rounds generalizing s with
  | nil => exact ⟨s, [], rfl, hok, hlistener⟩
  | cons round rest ih =>
    obtain ⟨command, o⟩ := round
    obtain ⟨s₁, events, hround, hok₁, hlistener₁, -⟩ := serviceRound_follows command o hok hlistener
    obtain ⟨accepted, admitted, hdeeds, -⟩ := roundDeeds_eq hok hlistener hround
    obtain ⟨s', more, hrest, hok', hlistener'⟩ := ih hok₁ (hlistener₁.trans hlistener)
    refine ⟨s', s.turnDeeds command o ++ accepted ++ more, ?_, hok', hlistener'⟩
    simp only [serviceLog, hdeeds, hround, hrest, ok_bind]
    rfl

/-- The first round of a log. -/
theorem serviceLog_cons (rest : List ((CStr → CStr) × Outside)) (hok : s.Ok)
    (hlistener : s.listener = some listener)
    (hlog : serviceLog ((command, o) :: rest) s = .ok (s', deeds)) :
    ∃ s₁ events first more, serviceRound command o s = .ok (s₁, events) ∧ s₁.Ok ∧
      s₁.listener = some listener ∧ roundDeeds command o s = .ok first ∧
      serviceLog rest s₁ = .ok (s', more) ∧ deeds = first ++ more := by
  obtain ⟨s₁, events, hround, hok₁, hlistener₁, -⟩ := serviceRound_follows command o hok hlistener
  obtain ⟨accepted, admitted, hdeeds, -⟩ := roundDeeds_eq hok hlistener hround
  obtain ⟨s₂, more, hrest, -⟩ := serviceLog_follows rest hok₁ (hlistener₁.trans hlistener)
  simp only [serviceLog, hdeeds, hround, hrest, ok_bind] at hlog
  cases hlog
  exact ⟨s₁, events, _, more, hround, hok₁, hlistener₁.trans hlistener, hdeeds, hrest, rfl⟩

/-- A connection stays with its slot until it is closed, whatever comes after that. -/
theorem serviceLog_fares (rounds : List ((CStr → CStr) × Outside)) (hok : s.Ok)
    (hlistener : s.listener = some listener) (h : Holds s i fd c) (htracks : Tracks past c)
    (hlog : serviceLog rounds s = .ok (s', deeds)) : Fares s' i fd past (actsOn fd deeds) := by
  induction rounds generalizing s c past deeds with
  | nil =>
    cases hlog
    refine .stays c h ?_
    show Tracks (past ++ []) c
    rwa [List.append_nil]
  | cons round rest ih =>
    obtain ⟨s₁, events, first, more, hround, hok₁, hlistener₁, hfirst, hrest, rfl⟩ :=
      serviceLog_cons rest hok hlistener hlog
    obtain ⟨deeds, hdeeds, hfares⟩ := serviceRound_fares hok hlistener h htracks hround
    cases hfirst.symm.trans hdeeds
    rw [actsOn_append]
    cases hfares with
    | stays c₁ hholds₁ htracks₁ =>
      cases ih hok₁ hlistener₁ hholds₁ htracks₁ hrest with
      | stays c' hholds' htracks' => exact .stays c' hholds' (by rwa [← List.append_assoc])
      | closed before after why heq hunclosed hdelivered =>
        refine .closed (actsOn fd first ++ before) after why ?_ ?_ ?_
        · rw [heq, List.append_assoc]
        · intro why' hmem
          rcases List.mem_append.mp hmem with hmem | hmem
          · exact htracks₁.unclosed why' (List.mem_append_right _ hmem)
          · exact hunclosed why' hmem
        · rwa [List.append_assoc, ← List.append_assoc past]
    | closed before after why heq hunclosed hdelivered =>
      refine .closed before (after ++ actsOn fd more) why ?_ hunclosed hdelivered
      rw [heq, List.append_assoc, List.cons_append]

variable (command o fd) in
theorem opened_notMem_turnDeeds (hok : s.Ok) : ⟨fd, .opened⟩ ∉ s.turnDeeds command o := by
  intro hmem
  obtain ⟨i, hi, hmem⟩ := List.mem_flatMap.mp hmem
  obtain ⟨hfd, hopened⟩ := mem_deeds.mp hmem
  obtain ⟨hc, -⟩ := hok.openSlot hi
  -- it would show in the events of the turn
  have hevent : .accepted fd ∈ ((clientAt s.clients i).takeTurn command o).2 := by
    have hlogs := clientTurn_logs command (o.turn (o.poll (some fd)) (some fd)) hc hfd
    have hlogged : .accepted fd ∈ (clientActs command
        (o.turn (o.poll (some fd)) (some fd)) (clientAt s.clients i)).flatMap (Act.events fd) := by
      rw [hfd] at hopened
      exact List.mem_flatMap.mpr ⟨.opened, hopened, List.mem_singleton.mpr rfl⟩
    rw [hlogs] at hlogged
    rw [Client.takeTurn, hfd]
    exact (List.mem_filter.mp hlogged).1
  have hturned := clientTurn_turned command
    (o.turn (o.poll (clientAt s.clients i).fd) (clientAt s.clients i).fd) hc hfd
  rw [Client.takeTurn] at hevent
  generalize clientTurn _ _ _ = r at hevent hturned
  obtain ⟨c', events⟩ := r
  cases hturned with
  | kept _ _ hquiet => exact hquiet _ hevent
  | closed hquiet =>
    rcases List.mem_append.mp hevent with hevent | hevent
    · exact hquiet _ hevent
    · simp at hevent

/-- Where an element stands in the concatenation of two lists. -/
theorem append_cons_eq_append {α : Type} {x : α} {before after a b : List α}
    (h : before ++ x :: after = a ++ b) :
    (∃ rest, a = before ++ x :: rest ∧ after = rest ++ b) ∨
      ∃ rest, before = a ++ rest ∧ b = rest ++ x :: after := by
  rcases List.append_eq_append_iff.mp h with ⟨rest, ha, hb⟩ | ⟨rest, ha, hb⟩
  · rcases List.cons_eq_append_iff.mp hb with ⟨rfl, hb'⟩ | ⟨rest, rfl, hb'⟩
    · rw [List.append_nil] at ha
      exact .inr ⟨[], by rw [List.append_nil, ha], hb'⟩
    · exact .inl ⟨rest, ha, hb'⟩
  · exact .inr ⟨rest, ha, hb⟩

/-- A connection that gets a slot, from there on. -/
theorem serviceLog_opened (rounds : List ((CStr → CStr) × Outside)) {before after : List Deed}
    (hok : s.Ok) (hlistener : s.listener = some listener)
    (hlog : serviceLog rounds s = .ok (s', before ++ ⟨fd, .opened⟩ :: after)) :
    ∃ i, Fares s' i fd [] (actsOn fd after) := by
  induction rounds generalizing s before with
  | nil =>
    have hempty := congrArg Prod.snd (Except.ok.inj hlog)
    simp at hempty
  | cons round rest ih =>
    obtain ⟨s₁, events, first, more, hround, hok₁, hlistener₁, hfirst, hrest, hsplit⟩ :=
      serviceLog_cons rest hok hlistener hlog
    obtain ⟨accepted, admitted, hdeeds, -, hadmits⟩ := roundDeeds_eq hok hlistener hround
    cases hfirst.symm.trans hdeeds
    rcases append_cons_eq_append hsplit with ⟨later, hfirst', rfl⟩ | ⟨before', -, rfl⟩
    · rcases append_cons_eq_append hfirst'.symm with ⟨later', hturns, -⟩ | ⟨before', -, haccepted⟩
      · refine absurd ?_ (opened_notMem_turnDeeds round.1 round.2 fd hok)
        rw [hturns]
        simp
      · obtain ⟨hnone, i, c, hat, hfd, htracks⟩ := hadmits.opened haccepted
        rw [actsOn_append, hnone, List.nil_append]
        exact ⟨i, serviceLog_fares rest hok₁ hlistener₁ ⟨hat, hfd⟩ htracks hrest⟩
    · exact ih hok₁ hlistener₁ hrest

-- ---------------------------------------------------------------------------
-- Every run
-- ---------------------------------------------------------------------------

theorem upToClose_eq_self (h : ∀ why, .closed why ∉ acts) : upToClose acts = acts := by
  induction acts with
  | nil => rfl
  | cons act rest ih =>
    have hrest := ih fun why hmem => h why (List.mem_cons_of_mem _ hmem)
    cases act with
    | closed why => exact absurd (List.mem_cons_self ..) (h why)
    | opened | refused | received | answered | sent => rw [upToClose, hrest]; simp

theorem upToClose_append_closed (h : ∀ why, .closed why ∉ acts) (why : Why) (after : List Act) :
    upToClose (acts ++ .closed why :: after) = acts ++ [.closed why] := by
  induction acts with
  | nil => rfl
  | cons act rest ih =>
    have hrest := ih fun why hmem => h why (List.mem_cons_of_mem _ hmem)
    cases act with
    | closed why => exact absurd (List.mem_cons_self ..) (h why)
    | opened | refused | received | answered | sent =>
      rw [List.cons_append, upToClose, hrest, List.cons_append]
      simp

/-- What has become of a connection. -/
theorem Fares.connection (h : Fares s i fd past (actsOn fd deeds)) :
    Delivered (past ++ connection fd deeds) ∧
      ((∀ why, .closed why ∉ connection fd deeds) →
        ∃ c, Holds s i fd c ∧ responses (past ++ connection fd deeds) = c.response.toList) := by
  rw [Softgre.connection]
  cases h with
  | stays c hholds htracks =>
    rw [upToClose_eq_self fun why hmem => htracks.unclosed why (List.mem_append_right _ hmem)]
    exact ⟨htracks.delivered, fun _ => ⟨c, hholds, htracks.responses_eq⟩⟩
  | closed before after why heq hunclosed hdelivered =>
    rw [heq, upToClose_append_closed hunclosed]
    exact ⟨hdelivered, fun hopen => absurd (by simp) (hopen why)⟩

/-- Some acts lead to any client there is. -/
theorem exists_tracks (c : Client) : ∃ past, Tracks past c := by
  cases hresponse : c.response with
  | none =>
    refine ⟨[.received c.input], by simp, List.append_nil _, by rw [hresponse]; rfl, ?_⟩
    rw [hresponse]
    exact List.take_nil.symm
  | some response =>
    refine ⟨[.received c.input, .answered response, .sent (response.take c.sent)], by simp,
      List.append_nil _, by rw [hresponse]; rfl, ?_⟩
    rw [hresponse]
    exact List.append_nil _

end Run

/-- However sends are cut, whatever the other clients do and whoever had the slot or
    the descriptor before: a connection that gets a slot is sent a prefix of its one
    response, all of it if it is not closed for a failure or for a NUL byte. Once
    computed, the response stays in the slot until the connection is closed. -/
theorem responses_delivered_exactly (listener limit : Nat)
    (hlimit : 1 ≤ limit ∧ limit ≤ serviceMaxClients)
    (earlier later : List ((CStr → CStr) × Outside)) :
    ∃ s s' deeds deeds', serviceLog earlier (serviceInit listener limit) = .ok (s, deeds) ∧
      serviceLog later s = .ok (s', deeds') ∧
      (∀ before fd after, deeds = before ++ ⟨fd, .opened⟩ :: after →
        Delivered (connection fd after) ∧
        ((∀ why, .closed why ∉ connection fd after) →
          ∃ i c, Holds s i fd c ∧ responses (connection fd after) = c.response.toList)) ∧
      ∀ i fd c response, Holds s i fd c → c.response = some response →
        responses (connection fd deeds') = [] ∧
        ((∀ why, .closed why ∉ connection fd deeds') →
          ∃ c', Holds s' i fd c' ∧ c'.response = some response) := by
  obtain ⟨s, deeds, hlog, hok, hlistener⟩ :=
    serviceLog_follows earlier (serviceInit_ok listener hlimit) rfl
  obtain ⟨s', deeds', hlog', -⟩ := serviceLog_follows later hok hlistener
  refine ⟨s, s', deeds, deeds', hlog, hlog', ?_, ?_⟩
  · rintro before fd after rfl
    obtain ⟨i, hfares⟩ := serviceLog_opened earlier (serviceInit_ok listener hlimit) rfl hlog
    obtain ⟨hdelivered, hopen⟩ := hfares.connection
    exact ⟨hdelivered, fun h => ⟨i, hopen h⟩⟩
  · intro i fd c response hholds hresponse
    obtain ⟨past, htracks⟩ := exists_tracks c
    have hpast : responses past = [response] := by rw [htracks.responses_eq, hresponse]; rfl
    obtain ⟨hdelivered, hopen⟩ :=
      (serviceLog_fares later hok hlistener hholds htracks hlog').connection
    have hnone : responses (connection fd deeds') = [] := by
      have hsingle := hdelivered.single
      rw [responses_append, hpast, List.length_append, List.length_singleton] at hsingle
      exact List.length_eq_zero_iff.mp (by omega)
    refine ⟨hnone, fun h => ?_⟩
    obtain ⟨c', hholds', heq⟩ := hopen h
    rw [responses_append, hpast, hnone, List.append_nil] at heq
    exact ⟨c', hholds', Option.toList_eq_singleton_iff.mp heq.symm⟩

/-- Descriptor 4 takes at most `count` bytes. -/
def Sample.takes (count : Nat) : Outside :=
  { sends [] with
    poll fd := ⟨false, fd == some 4, false, false, false⟩
    send _ length := .sent (min count length)
    send_le h := by
      cases h
      exact Nat.min_le_right _ _ }

/-- A line comes, and the answer to it goes out in two pieces. -/
def Sample.pieces : List ((CStr → CStr) × Outside) :=
  [arrival, sends ['A', '\n'], takes 1, takes 5].map fun o => (fun _ => ['O', 'K', '\n'], o)

theorem Sample.log_pieces : (serviceLog Sample.pieces (serviceInit 3 1)).map Prod.snd =
    .ok ([.opened, .received ['A', '\n'], .answered ['O', 'K', '\n'], .sent ['O'],
      .sent ['K', '\n'], .closed .complete].map (Deed.mk 4)) := by
  decide +kernel

theorem responses_delivered_exactly_pieces :
    ∃ s after, serviceLog Sample.pieces (serviceInit 3 1) = .ok (s, ⟨4, .opened⟩ :: after) ∧
      Delivered (connection 4 after) ∧ responses (connection 4 after) = [['O', 'K', '\n']] := by
  obtain ⟨s, -, deeds, -, hlog, -, hdelivered, -⟩ :=
    responses_delivered_exactly 3 1 (by decide) Sample.pieces []
  have heval := Sample.log_pieces
  rw [hlog] at heval
  cases heval
  exact ⟨s, _, hlog, (hdelivered [] 4 _ rfl).1, rfl⟩

end Softgre
