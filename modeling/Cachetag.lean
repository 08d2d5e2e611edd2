import Cachetag.Lib.Machine
import Cachetag.Lib.LinearProbe
import Cachetag.Lib.Chains
import Cachetag.Lib.Quickselect
import Cachetag.Lib.Rounds
import Cachetag.Lib.Scan
import Cachetag.Lib.LittleEndian
import Cachetag.Lib.Buffer
import Cachetag.Lib.Numeral
import Cachetag.Lib.Frames
import Cachetag.Lib.Prog
import Cachetag.Purgemap.Table
import Cachetag.Purgemap.TableOps
import Cachetag.Purgemap.Map
import Cachetag.Purgemap.Spec
import Cachetag.Purgemap.Calls
import Cachetag.Purgemap.Refine
import Cachetag.Purgemap.Select
import Cachetag.Header.Tokens
import Cachetag.Header.Agree
import Cachetag.EpochGate
import Cachetag.Purgemap.PruneGap
import Cachetag.Purgemap.Reclaim
import Cachetag.Purgemap.Life
import Cachetag.Purgemap.Cap
import Cachetag.Purgemap.Locked
import Cachetag.ReaderGate
import Cachetag.Freshness
import Cachetag.Certificate
import Cachetag.StaleMemo
import Cachetag.SideTable.Table
import Cachetag.SideTable.Index
import Cachetag.SideTable.Filed
import Cachetag.SideTable.Counts
import Cachetag.SideTable.Sections
import Cachetag.SideTable.Room
import Cachetag.Intern.Registry
import Cachetag.Intern.Shared
import Cachetag.Volatile.Directory
import Cachetag.Volatile.Segments
import Cachetag.Volatile.Headroom
import Cachetag.Volatile.Membership
import Cachetag.Volatile.Index
import Cachetag.Volatile.Invariant
import Cachetag.Volatile.Sections
import Cachetag.Volatile.Refine
import Cachetag.Volatile.Sweep
import Cachetag.Volatile.Interned
import Cachetag.Volatile.Footing
import Cachetag.Volatile.Maintenance
import Cachetag.Volatile.Drain
import Cachetag.Volatile.Workers
import Cachetag.Volatile.Timing
import Cachetag.Fellow.Envelope
import Cachetag.Fellow.Visit
import Cachetag.Fellow.Canonical
import Cachetag.Fellow.Attr
import Cachetag.Fellow.RoundTrip
import Cachetag.Wal.Frame
import Cachetag.Wal.KeyPurge
import Cachetag.Wal.LastPurge
import Cachetag.Wal.Path
import Cachetag.Wal.Segment
import Cachetag.Wal.Disk
import Cachetag.Wal.State
import Cachetag.Wal.Manifest
import Cachetag.Wal.Log
import Cachetag.Wal.Restore
import Cachetag.Wal.Append
import Cachetag.Wal.Grammar
import Cachetag.Wal.RoundTrip
import Cachetag.Vcl.Namespace
import Cachetag.Vcl.Registry
import Cachetag.Vcl.Warm
import Cachetag.Vcl.Tracked
import Cachetag.Vcl.Lifecycle
