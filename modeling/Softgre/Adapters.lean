-- SUMMARY: The dashboard's TCP adapter and the DHCP lease hook, which read the daemon's answers.
import Softgre.Base.Regex
import Softgre.Compat.Inet
import Softgre.Config

/-!
# Adapters

`server.py` and `dhcp-lease-hook.py` are clients of the status server, written in
Python. They send a command, read until the server closes the connection, and
take the text apart with regular expressions.
-/

namespace Softgre

open Base (Regex)

-- ---------------------------------------------------------------------------
-- Python
-- ---------------------------------------------------------------------------

/-- `bytes.decode("utf-8", errors="strict")`. -/
def decodeUtf8 (bytes : List UInt8) : Option (List Char) :=
  (ByteArray.mk bytes.toArray).utf8Decode?.map Array.toList

/-- `bytes.decode("ascii", errors="replace")`. -/
def decodeAscii (bytes : List UInt8) : List Char :=
  bytes.map fun b => if b < 128 then Char.ofNat b.toNat else '\uFFFD'

/-- `str.isspace` of a character. -/
def pyIsSpace (c : Char) : Bool :=
  let n := c.toNat
  (9 ≤ n && n ≤ 13) || (28 ≤ n && n ≤ 32) || n == 0x85 || n == 0xa0 || n == 0x1680 ||
    (0x2000 ≤ n && n ≤ 0x200a) || n == 0x2028 || n == 0x2029 || n == 0x202f || n == 0x205f ||
    n == 0x3000

/-- `str.strip()`. -/
def strip (s : List Char) : List Char := (s.dropWhile pyIsSpace).rdropWhile pyIsSpace

/-- `str.rstrip("\r\n")`. -/
def rstripNewlines (s : List Char) : List Char := s.rdropWhile fun c => c == '\r' || c == '\n'

/-- `[entry for entry in s.split(";") if entry]`. -/
def splitEntries (s : List Char) : List (List Char) := (s.splitOn ';').filter (!·.isEmpty)

/-- `str.partition`: the text before the separator, whether there is one, and the
    text behind it. -/
def partition (s : List Char) (sep : Char) : List Char × Bool × List Char :=
  let (head, tail) := strchr s sep
  (head, tail.isSome, tail.getD [])

/-- `str(ipaddress.IPv4Address(value))`. An octet is one to three digits without a
    superfluous zero in front, as for `inet_pton`. -/
def ipv4 (value : List Char) : Option (List Char) := (inetPton value).map inetNtop

/-- `\w`. The texts searched for it are ASCII, apart from U+FFFD, which is not a
    word character. -/
def isWord (c : Char) : Bool := isAlnum c || c == '_'

-- ---------------------------------------------------------------------------
-- The connection
-- ---------------------------------------------------------------------------

/-- How a connection to the daemon goes. `cut n` is one less than what the network
    delivers at most after the first `n` bytes. -/
inductive Connection where
  | timeout
  | failed
  | replies (stream : List UInt8) (cut : Nat → Nat)

/-- What a connection becomes when the command is sent over it. -/
abbrev Backend := List Char → Connection

/-- What `recv` returns after `received` bytes. -/
def recv (stream : List UInt8) (cut : Nat → Nat) (received limit : Nat) : List UInt8 :=
  (stream.drop received).take (min limit (cut received + 1))

-- ---------------------------------------------------------------------------
-- `server.py`
-- ---------------------------------------------------------------------------

def maxResponse : Nat := 1024 * 1024

structure AdapterError where
  code : Nat
  status : String
  body : String
deriving DecidableEq, Repr

def backendTimeout : AdapterError := ⟨504, "ERROR", "Backend timeout"⟩
def backendUnavailable : AdapterError := ⟨502, "ERROR", "Backend unavailable"⟩
def backendTooLarge : AdapterError := ⟨502, "ERROR", "Backend response too large"⟩
def invalidBackend : AdapterError := ⟨502, "ERROR", "Invalid backend response"⟩
def invalidOverview : AdapterError := ⟨502, "ERROR", "Invalid overview response"⟩
def invalidTunnel : AdapterError := ⟨502, "ERROR", "Invalid tunnel response"⟩

/-- The loop over `backend.recv`, after `size` bytes. -/
def receiveChunks (stream : List UInt8) (cut : Nat → Nat) :
    Nat → Nat → Except AdapterError (List UInt8)
  | 0, _ => return []
  | fuel + 1, size => do
    let chunk := recv stream cut size (min 8192 (maxResponse + 1 - size))
    if chunk.isEmpty then return []
    if size + chunk.length > maxResponse then throw backendTooLarge
    let rest ← receiveChunks stream cut fuel (size + chunk.length)
    return chunk ++ rest

/-- `RESULT: (OK|NULL|NOTFOUND|INVALID)\n(?:BODY: ([\s\S]*))?` -/
def responsePattern : Regex :=
  .concat [.text "RESULT: ".toList,
    .group 1 (.oneOf (.text "OK".toList)
      [.text "NULL".toList, .text "NOTFOUND".toList, .text "INVALID".toList]),
    .text ['\n'],
    .optional (.concat [.text "BODY: ".toList, .group 2 (.chars (fun _ => true) 0 none)])]

/-- `[a-zA-Z0-9_.-]{1,15}` -/
def namePattern : Regex :=
  .chars (fun c => isAlnum c || c == '_' || c == '.' || c == '-') 1 (some 15)

inductive Action where
  | status
  | tunnels
  | ues
  | cpe
  | version
  | help
deriving DecidableEq, Repr

structure Response where
  status : List Char
  body : List Char
deriving DecidableEq, Repr

/-- The text of a response, taken apart. -/
def parseResponse (action : Action) (reply : List Char) : Except AdapterError Response :=
  if action = .help then return ⟨"OK".toList, reply⟩
  else
    match responsePattern.fullmatch reply with
    | none => throw invalidBackend
    | some groups =>
      return ⟨(groups.lookup 1).getD [], rstripNewlines ((groups.lookup 2).getD [])⟩

/-- What `backend_query` makes of the bytes it received. -/
def decodeResponse (action : Action) (bytes : List UInt8) : Except AdapterError Response :=
  match decodeUtf8 bytes with
  | none => throw invalidBackend
  | some reply => parseResponse action reply

def backendQuery (backend : Backend) (action : Action) (command : List Char) :
    Except AdapterError Response := do
  match backend command with
  | .timeout => throw backendTimeout
  | .failed => throw backendUnavailable
  | .replies stream cut =>
    let bytes ← receiveChunks stream cut (stream.length + 1) 0
    decodeResponse action bytes

structure TunnelView where
  remote : List Char
  interface : List Char
  macs : List (List Char)
deriving DecidableEq, Repr

/-- The body of the loop of `overview` over the entries. -/
def viewTunnel (backend : Backend) (entry : List Char) : Except AdapterError TunnelView := do
  let (remote, separator, name) := partition entry '@'
  match ipv4 remote with
  | none => throw invalidTunnel
  | some remote =>
    if !separator || (namePattern.fullmatch name).isNone then throw invalidTunnel
    let macs ← backendQuery backend .ues ("LMIP ".toList ++ remote ++ ['\n'])
    return ⟨remote, name, splitEntries macs.body⟩

/-- What `overview` returns of the daemon. -/
structure Overview where
  body : List Char
  tunnels : List TunnelView
  tunnelCount : Nat
  truncated : Bool
deriving DecidableEq, Repr

def overview (backend : Backend) : Except AdapterError Overview := do
  let status ← backendQuery backend .status "STAT\n".toList
  let listing ← backendQuery backend .tunnels "STUN\n".toList
  if status.status != "OK".toList ||
      !(listing.status == "OK".toList || listing.status == "NULL".toList) then
    throw invalidOverview
  let entries := splitEntries (strip listing.body)
  let tunnels ← (entries.take 64).mapM (viewTunnel backend)
  return ⟨status.body, tunnels, entries.length, entries.length > 64⟩

-- ---------------------------------------------------------------------------
-- `dhcp-lease-hook.py`
-- ---------------------------------------------------------------------------

def maxReply : Nat := 4096

/-- `RESULT: OK\nBODY: ([0-9.]+)@([\w.-]+)\n` -/
def leasePattern : Regex :=
  .concat [.text "RESULT: OK\nBODY: ".toList,
    .group 1 (.chars (fun c => isDigit c || c == '.') 1 none), .text ['@'],
    .group 2 (.chars (fun c => isWord c || c == '.' || c == '-') 1 none), .text ['\n']]

/-- The loop over `api.recv`, after `size` bytes. -/
def receiveReply (stream : List UInt8) (cut : Nat → Nat) : Nat → Nat → List UInt8
  | 0, _ => []
  | fuel + 1, size =>
    if size ≤ maxReply then
      let chunk := recv stream cut size maxReply
      if chunk.isEmpty then []
      else chunk ++ receiveReply stream cut fuel (size + chunk.length)
    else []

def tunnelOf (backend : Backend) (mac : List Char) : Option (List Char × List Char) :=
  match backend ("GTMC ".toList ++ mac ++ ['\n']) with
  | .timeout | .failed => none
  | .replies stream cut =>
    let reply := receiveReply stream cut (stream.length + 1) 0
    (leasePattern.fullmatch (decodeAscii reply)).map fun groups =>
      ((groups.lookup 1).getD [], (groups.lookup 2).getD [])

end Softgre
