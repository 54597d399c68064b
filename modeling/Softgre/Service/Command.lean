-- SUMMARY: The commands of `service_cmd.c` over the provisioning state, and the text of their answers.
import Softgre.Compat.Inet
import Softgre.Provision.Program
import Softgre.Service.Clients

/-!
# Commands

`service_command` reads the provisioning tables and writes its answer as text. It
runs in the same monad as provisioning, so that leaving the state alone is
something to prove.
-/

namespace Softgre

-- ---------------------------------------------------------------------------
-- Arguments
-- ---------------------------------------------------------------------------

def isXdigit (c : Char) : Bool := isDigit c || ('a' ≤ c && c ≤ 'f') || ('A' ≤ c && c ≤ 'F')

/-- `ascii_tolower`. -/
def toLower (c : Char) : Char := if 'A' ≤ c && c ≤ 'Z' then Char.ofNat (c.toNat + 32) else c

/-- `valid_mac`, with what it leaves in `normalized`. -/
def validMac (text : CStr) : Option CStr :=
  if text.length == 17 &&
      text.zipIdx.all fun e => if e.2 % 3 == 2 then e.1 == ':' else isXdigit e.1 then
    some (text.map toLower)
  else none

/-- The delimiters of `strtok_r`. -/
def isDelim (c : Char) : Bool := c == ' ' || c == '\t' || c == '\r' || c == '\n'

/-- The tokens `strtok_r` returns one after the other. -/
def strtok (s : CStr) : List CStr := (s.splitOnP isDelim).filter (!·.isEmpty)

-- ---------------------------------------------------------------------------
-- Answers
-- ---------------------------------------------------------------------------

def resultOk : CStr := "RESULT: OK\nBODY: ".toList
def resultNotFound : CStr := "RESULT: NOTFOUND\n".toList
def resultNull : CStr := "RESULT: NULL\n".toList
def resultInvalid : CStr := "RESULT: INVALID\nBODY: Use HELP for command syntax\n".toList

def helpText : CStr :=
  ("HELP - command list\nVERS - version\nQUIT - close\n" ++
    "LMIP <IPv4> - list MACs\nGTMC <MAC> - find tunnel\n" ++
    "STUN - list tunnels\nSTAT - system status\n").toList

/-- The `%ld` conversion. -/
def decInt (n : Int) : CStr := if n < 0 then '-' :: dec n.natAbs else dec n.natAbs

/-- What `uname`, `sysinfo` and the build tell, and when the configuration was
    loaded. -/
structure HostInfo where
  sysname : CStr
  release : CStr
  version : CStr
  machine : CStr
  uptime : Int
  packageVersion : CStr
  startedTime : Int
deriving DecidableEq, Repr

def statText (host : HostInfo) : CStr :=
  resultOk ++ host.sysname ++ [' '] ++ host.release ++ [';'] ++ host.version ++ [';'] ++
    host.machine ++ [';'] ++ decInt host.uptime ++ [';'] ++ host.packageVersion ++ [';'] ++
    decInt host.startedTime ++ ['\n']

/-- The remote and the interface of a tunnel. -/
def TunnelContext.entry (tun : TunnelContext) : CStr :=
  inetNtop tun.ipRemote ++ '@' :: tun.ifgre

/-- The loop that writes the addresses of a tunnel, in the order it is given. -/
def macLines (macs : List CStr) : CStr :=
  macs.zipIdx.flatMap fun e => e.1 ++ if e.2 + 1 < macs.length then [';'] else ['\n']

def compareMac (a b : CStr) : Int := strcmp a b

/-- `qsort` by `compare_mac`. -/
def sortMacs (macs : List CStr) : List CStr := macs.mergeSort fun a b => compareMac a b ≤ 0

/-- `LMIP`. -/
def listMacs (arg : CStr) : ProvM CStr := do
  match inetPton arg with
  | none => return resultInvalid
  | some addr =>
    let s ← get
    match provisionGetTunnelByip s addr with
    | none => return resultNotFound
    | some p =>
      let macs := sortMacs (s.deref p).macs.keys
      return resultOk ++ macLines macs ++ if macs.length = 0 then ['\n'] else []

/-- `GTMC`. -/
def findTunnel (arg : CStr) : ProvM CStr := do
  match validMac arg with
  | none => return resultInvalid
  | some mac =>
    let s ← get
    match provisionGetTunnelByMac s mac with
    | none => return resultNotFound
    | some p => return resultOk ++ (s.deref p).entry ++ ['\n']

/-- The loop of `STUN` over the table. -/
def tunnelLines : Nat → Iter → ProvM CStr
  | 0, _ => return []
  | fuel + 1, iter => do
    let s ← get
    match s.tunnels.iterNext iter with
    | (none, _) => return []
    | (some (_, p), iter) => return (s.deref p).entry ++ ';' :: (← tunnelLines fuel iter)

/-- `STUN`. -/
def listTunnels : ProvM CStr := do
  let s ← get
  if s.tunnels.size = 0 then return resultNull
  else return resultOk ++ (← tunnelLines (s.tunnels.cap + 1) Table.iterInit) ++ ['\n']

/-- The commands without an argument. -/
def plainCommand (host : HostInfo) (cmd : CStr) : ProvM CStr :=
  if cmd = "VERS".toList then return resultOk ++ host.packageVersion ++ ['\n']
  else if cmd = "QUIT".toList then return []
  else if cmd = "HELP".toList then return helpText
  else if cmd = "STAT".toList then return statText host
  else if cmd = "STUN".toList then listTunnels
  else return resultInvalid

def serviceCommand (host : HostInfo) (command : CStr) : ProvM CStr :=
  if command.length ≥ serviceMaxRequest then return resultInvalid
  else
    match strtok command with
    | [cmd] =>
      if cmd = "LMIP".toList || cmd = "GTMC".toList then return resultInvalid
      else plainCommand host cmd
    | [cmd, arg] =>
      if cmd = "LMIP".toList then listMacs arg
      else if cmd = "GTMC".toList then findTunnel arg
      else return resultInvalid
    | _ => return resultInvalid

end Softgre
