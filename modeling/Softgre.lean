import Softgre.Hashmap.Bundle
import Softgre.Base.Wp
import Softgre.Base.Trail
import Softgre.Compat
import Softgre.Compat.Text
import Softgre.Compat.Inet
import Softgre.Base.Folds
import Softgre.Config
import Softgre.Config.Ini
import Softgre.Config.Load
import Softgre.Payload
import Softgre.Host.Kernel
import Softgre.Host.World
import Softgre.Iface.Links
import Softgre.Iface.Ebtables
import Softgre.Provision.State
import Softgre.Provision.Program
import Softgre.Iface.Names
import Softgre.Ledger.Machine
import Softgre.Ledger.Tables
import Softgre.Ledger.Links
import Softgre.Ledger.Jumps
import Softgre.Ledger.Filter
import Softgre.Ledger.Invariant
import Softgre.Ledger.Commands
import Softgre.Ledger.Ownership
import Softgre.Ledger.Permissions
import Softgre.Ledger.Rules
import Softgre.Provision.Refine
import Softgre.Provision.Setup
import Softgre.Provision.Learn
import Softgre.Provision.Cleanup
import Softgre.Provision.Shutdown
import Softgre.Provision.Removal
import Softgre.Provision.Reset
import Softgre.Daemon.Calls
import Softgre.Daemon.Boot
import Softgre.Daemon.Tables
import Softgre.Daemon.Provenance
import Softgre.Daemon.Kernel
import Softgre.Daemon.Permissions
import Softgre.Daemon.Recovery
import Softgre.Daemon.Backoff
import Softgre.Daemon.Shutdown
import Softgre.Base.Transducer
import Softgre.Hashmap.Refinement
import Softgre.Base.Bytes
import Softgre.Base.Checked
import Softgre.Payload.Frame
import Softgre.Payload.Exact
import Softgre.Base.Bpf
import Softgre.Payload.Filter
import Softgre.Service.Clients
import Softgre.Service.Table
import Softgre.Service.Rounds
import Softgre.Service.Framing
import Softgre.Config.Allowlist
import Softgre.Config.Bridges
import Softgre.Service.Answers
import Softgre.Service.Requests
import Softgre.Service.Delivery
import Softgre.Service.Sizes
import Softgre.Daemon.Foreign
import Softgre.Base.Registry
import Softgre.Daemon.Smooth
import Softgre.Daemon.Peers
import Softgre.Daemon.Bulk
import Softgre.Daemon.Retry
import Softgre.Daemon.Whole
import Softgre.Daemon.Heal
import Softgre.Hashmap.Passes
import Softgre.Hashmap.Loops
import Softgre.Hashmap.Usage
import Softgre.Base.Latest
import Softgre.Config.Grammar
import Softgre.Payload.Bounds
import Softgre.Payload.Capture
import Softgre.Base.Regex
import Softgre.Adapters
import Softgre.Adapters.Decode
import Softgre.Adapters.Roundtrip
import Softgre.Base.Netlink
import Softgre.Iface.Netlink
import Softgre.Iface.Reply
import Softgre.Iface.Wire
import Softgre.Iface.Operations
import Softgre.Daemon.PidFile
import Softgre.Daemon.Loop
import Softgre.Daemon.Conversations
import Softgre.Daemon.Restore
import Softgre.Base.Held
import Softgre.Daemon.Main
import Softgre.Base.Budget
import Softgre.Daemon.Storm
import Softgre.Host.Helper
import Softgre.Base.CText
import Softgre.Compat.InPlace
import Softgre.Config.InPlace
import Softgre.Compat.Strbuf
import Softgre.Service.InPlace
