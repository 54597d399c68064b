-- SUMMARY: The client table of `service.c`: polling, one turn of a client, accepting.
import Softgre.Compat
import Softgre.Payload

/-!
# The status server

`service_pollfds` lists the open clients and remembers their slots, and
`service_dispatch` gives each of them a turn and then accepts new ones. Array
accesses are checked, so that an index out of range is a fault of the model.

What the kernel answers in one round is `Outside`. What the server does to
descriptors is reported as a list of events.
-/

namespace Softgre

def serviceMaxClients : Nat := 128
def serviceMaxRequest : Nat := 256
def serviceMaxResponse : Nat := 1024 * 1024

/-- A file descriptor; `none` is -1. -/
abbrev Descriptor := Option Nat

-- ---------------------------------------------------------------------------
-- Clients
-- ---------------------------------------------------------------------------

/-- `struct client`. `input` holds the `used` bytes received so far. -/
structure Client where
  fd : Descriptor
  input : CStr
  sent : Nat
  response : Option CStr
  deadline : Int
deriving DecidableEq, Repr

/-- A cleared slot, as `memset` and `fd = -1` leave it. -/
def Client.free : Client := ⟨none, [], 0, none, 0⟩

def Client.used (c : Client) : Nat := c.input.length

def Client.isOpen (c : Client) : Bool := c.fd.isSome

/-- What can be observed of a round. -/
inductive ServiceEvent where
  /-- The events polled for one descriptor are applied to the client that holds
      the other. -/
  | applied (polled held : Descriptor)
  | recv (length : Nat)
  | answered (fd : Descriptor) (response : CStr)
  | accepted (fd : Nat)
  | closed (fd : Nat)
deriving DecidableEq, Repr

structure Flags where
  pollin : Bool
  pollout : Bool
  pollerr : Bool
  pollhup : Bool
  pollnval : Bool
deriving DecidableEq, Repr

/-- The result of `recv`. No bytes at all is the end of the stream; `again` is
    `EAGAIN` or `EINTR`. -/
inductive Recv where
  | bytes (bytes : CStr)
  | again
  | fail

inductive Send where
  | sent (count : Nat)
  | again
  | fail

/-- What one round holds for one client. -/
structure Turn where
  now : Int
  flags : Flags
  recv : Nat → Recv
  send : Nat → Send
  recv_le : ∀ {length bytes}, recv length = .bytes bytes → bytes.length ≤ length
  send_le : ∀ {length count}, send length = .sent count → count ≤ length

def closeClient (c : Client) : Client × List ServiceEvent := (.free, c.fd.toList.map .closed)

def requestTooLarge : CStr := "RESULT: INVALID\nBODY: Request too large\n".toList

def responseTooLarge : CStr := "RESULT: INVALID\nBODY: Response too large\n".toList

def capResponse (response : CStr) : CStr :=
  if response.length > serviceMaxResponse then responseTooLarge else response

section Turn

-- `command` is `service_command` in the provisioning state of the moment
variable (command : CStr → CStr)

/-- The response to what was received; without a line feed in it, the string ends
    where the input does. -/
def respond (input : CStr) : CStr :=
  capResponse
    (if !input.contains '\n' && input.length == serviceMaxRequest - 1 then requestTooLarge
      else command (input.takeWhile (· != '\n')))

/-- What is left of the buffer, next to the terminator. -/
def Client.room (c : Client) : Nat := serviceMaxRequest - 1 - c.used

/-- The client is asked for its request. -/
def Client.reads (c : Client) (flags : Flags) : Bool :=
  c.response.isNone && (flags.pollin || flags.pollhup)

/-- What follows a `recv` that succeeded. The flag is false where the source goes
    on to the next client. -/
def accumulate (bytes : CStr) (c : Client) : Client × List ServiceEvent × Bool :=
  let input := c.input ++ bytes
  if input.contains '\x00' then ((closeClient c).1, (closeClient c).2, false)
  else if input.contains '\n' || bytes.isEmpty || input.length == serviceMaxRequest - 1 then
    ({ c with input, response := some (respond command input) },
      [.answered c.fd (respond command input)], true)
  else ({ c with input }, [], true)

/-- The receiving half of a turn. -/
def receive (t : Turn) (c : Client) : Client × List ServiceEvent × Bool :=
  if c.reads t.flags then
    match t.recv c.room with
    | .again => (c, [.recv c.room], false)
    | .fail => ((closeClient c).1, .recv c.room :: (closeClient c).2, false)
    | .bytes bytes =>
      let (c', events, more) := accumulate command bytes c
      (c', .recv c.room :: events, more)
  else (c, [], true)

/-- The sending half of a turn. -/
def transmit (t : Turn) (c : Client) : Client × List ServiceEvent × Bool :=
  match c.response with
  | none => (c, [], true)
  | some response =>
    if t.flags.pollout || t.flags.pollhup then
      match t.send (response.length - c.sent) with
      | .again => (c, [], false)
      | .fail | .sent 0 => ((closeClient c).1, (closeClient c).2, false)
      | .sent count =>
        let c := { c with sent := c.sent + count }
        if c.sent == response.length then ((closeClient c).1, (closeClient c).2, true)
        else (c, [], true)
    else (c, [], true)

/-- An empty response ends the connection. -/
def finish (c : Client) : Client × List ServiceEvent :=
  if c.response = some [] then closeClient c else (c, [])

/-- The body of the client loop of `service_dispatch`. -/
def clientTurn (t : Turn) (c : Client) : Client × List ServiceEvent :=
  if t.now ≥ c.deadline || (t.flags.pollerr || t.flags.pollnval) then closeClient c
  else
    let (c, received, more) := receive command t c
    if !more then (c, received)
    else
      let (c, transmitted, more) := transmit t c
      if !more then (c, received ++ transmitted)
      else
        let (c, finished) := finish c
        (c, received ++ transmitted ++ finished)

end Turn

-- ---------------------------------------------------------------------------
-- The table
-- ---------------------------------------------------------------------------

def getAt {α : Type} (l : List α) (i : Nat) : Except Fault α :=
  match l[i]? with
  | some a => .ok a
  | none => .error (.outOfBounds i)

def setAt {α : Type} (l : List α) (i : Nat) (a : α) : Except Fault (List α) :=
  if i < l.length then .ok (l.set i a) else .error (.outOfBounds i)

/-- `struct pollfd`, with `POLLOUT` or `POLLIN` requested. -/
structure PollFd where
  fd : Descriptor
  out : Bool
  revents : Flags
deriving DecidableEq, Repr

def Flags.none : Flags := ⟨false, false, false, false, false⟩

/-- The static variables of `service.c`. -/
structure Service where
  listener : Descriptor
  clients : List Client
  pollSlots : List Nat
  limit : Nat

/-- `service_init`, with the listening socket it got. -/
def serviceInit (listener : Nat) (limit : Nat) : Service :=
  ⟨some listener, List.replicate serviceMaxClients .free, List.replicate serviceMaxClients 0, limit⟩

/-- One round of the loop of `service_pollfds`, over `poll_slots`, `fds` and
    `count`. -/
def pollClient (clients : List Client) :
    List Nat × List PollFd × Nat → Nat → Except Fault (List Nat × List PollFd × Nat)
  | (slots, fds, count), i => do
    let client ← getAt clients i
    if client.isOpen then
      let slots ← setAt slots (count - 1) i
      let fds ← setAt fds count ⟨client.fd, client.response.isSome, .none⟩
      return (slots, fds, count + 1)
    else return (slots, fds, count)

def servicePollfds (s : Service) (fds : List PollFd) :
    Except Fault (Service × List PollFd × Nat) := do
  if s.listener.isNone then return (s, fds, 0)
  let fds ← setAt fds 0 ⟨s.listener, false, .none⟩
  let (slots, fds, count) ←
    (List.range s.limit).foldlM (pollClient s.clients) (s.pollSlots, fds, 1)
  return ({ s with pollSlots := slots }, fds, count)

/-- What the kernel answers in one round. A descriptor that `accept4` returns is
    not one of those that are open. -/
structure Outside where
  now : Int
  poll : Descriptor → Flags
  recv : Descriptor → Nat → Recv
  send : Descriptor → Nat → Send
  accept : Nat → List Nat → Option Nat
  recv_le : ∀ {fd length bytes}, recv fd length = .bytes bytes → bytes.length ≤ length
  send_le : ∀ {fd length count}, send fd length = .sent count → count ≤ length
  accept_fresh : ∀ {batch opened fd}, accept batch opened = some fd → fd ∉ opened

/-- `poll` fills in what it reports for the descriptor of an entry. -/
def Outside.fill (o : Outside) (p : PollFd) : PollFd := { p with revents := o.poll p.fd }

/-- The turn of the client that holds `fd`, with the flags polled for it. -/
def Outside.turn (o : Outside) (flags : Flags) (fd : Descriptor) : Turn where
  now := o.now
  flags := flags
  recv := o.recv fd
  send := o.send fd
  recv_le := o.recv_le
  send_le := o.send_le

section Dispatch

variable (command : CStr → CStr) (o : Outside)

/-- The descriptors the clients hold. -/
def openFds (clients : List Client) : List Nat := clients.filterMap Client.fd

def dispatchClient (slots : List Nat) (fds : List PollFd) :
    List Client × List ServiceEvent → Nat → Except Fault (List Client × List ServiceEvent)
  | (clients, events), n => do
    let slot ← getAt slots (n - 1)
    let client ← getAt clients slot
    let polled ← getAt fds n
    let (client', more) := clientTurn command (o.turn polled.revents client.fd) client
    let clients ← setAt clients slot client'
    return (clients, events ++ .applied polled.fd client.fd :: more)

/-- The search for a free slot, over the `left` slots before `limit`. -/
def freeSlot (clients : List Client) (limit : Nat) : Nat → Except Fault Nat
  | 0 => return limit
  | left + 1 => do
    let client ← getAt clients (limit - (left + 1))
    if client.isOpen then freeSlot clients limit left else return limit - (left + 1)

/-- The accept loop, with the number of connections that may still come. -/
def acceptClients (limit : Nat) : Nat → List Client → Except Fault (List Client × List ServiceEvent)
  | 0, clients => return (clients, [])
  | left + 1, clients => do
    match o.accept left (openFds clients) with
    | none => return (clients, [])
    | some fd =>
      let slot ← freeSlot clients limit limit
      if slot = limit then
        let (clients, events) ← acceptClients limit left clients
        return (clients, .accepted fd :: .closed fd :: events)
      else
        let client ← getAt clients slot
        let clients ← setAt clients slot
          { client with fd := some fd, deadline := o.now + 5 * 1000000 }
        let (clients, events) ← acceptClients limit left clients
        return (clients, .accepted fd :: events)

def serviceDispatch (s : Service) (fds : List PollFd) (count : Nat) :
    Except Fault (Service × List ServiceEvent) := do
  if count = 0 then return (s, [])
  let (clients, events) ←
    (List.range' 1 (count - 1)).foldlM (dispatchClient command o s.pollSlots fds) (s.clients, [])
  let first ← getAt fds 0
  if first.revents.pollin then
    let (clients, accepted) ← acceptClients o s.limit 16 clients
    return ({ s with clients }, events ++ accepted)
  else return ({ s with clients }, events)

/-- One round of the main loop: list the descriptors, poll them, dispatch. The
    array has room for the listener and every client. -/
def serviceRound (s : Service) : Except Fault (Service × List ServiceEvent) := do
  let (s, fds, count) ←
    servicePollfds s (List.replicate (1 + serviceMaxClients) ⟨none, false, .none⟩)
  serviceDispatch command o s (fds.map o.fill) count

end Dispatch

/-- One round of the loop of `service_end`. -/
def endClient : List Client × List ServiceEvent → Nat →
    Except Fault (List Client × List ServiceEvent)
  | (clients, events), i => do
    let client ← getAt clients i
    let (client', closed) := closeClient client
    let clients ← setAt clients i client'
    return (clients, events ++ closed)

/-- `service_end`. That the listener is closed is not an event of a client. -/
def serviceEnd (s : Service) : Except Fault (Service × List ServiceEvent) := do
  if s.listener.isNone then return (s, [])
  let (clients, events) ← (List.range s.limit).foldlM endClient (s.clients, [])
  return ({ s with listener := none, clients }, events)

/-- Rounds, with the events of all of them. -/
def serviceRun (command : CStr → CStr) :
    List Outside → Service → Except Fault (Service × List ServiceEvent)
  | [], s => return (s, [])
  | o :: rest, s => do
    let (s, events) ← serviceRound command o s
    let (s, more) ← serviceRun command rest s
    return (s, events ++ more)

end Softgre
