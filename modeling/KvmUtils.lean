import KvmUtils.Lib.Machine
import KvmUtils.Lib.TimedGate
import KvmUtils.Lib.GreedyPairing
import KvmUtils.KvmWrmsr.Msr
import KvmUtils.KvmWrmsr.OtherListing
import KvmUtils.KvmWrmsr.OtherSlots
import KvmUtils.KvmWrmsr.Handler
import KvmUtils.KvmWrmsr.Listing
import KvmUtils.KvmWrmsr.Window
import KvmUtils.KvmExitReason.ExitReason
import KvmUtils.KvmExitReason.Handlers
import KvmUtils.KvmExitReason.Gate
import KvmUtils.KvmExitReason.Accounting
import KvmUtils.KvmExitReason.Reports
import KvmUtils.KvmExitReason.Init
import KvmUtils.KvmWrmsr.Interleaved
import KvmUtils.KvmWrmsr.Gate
import KvmUtils.Reporters
import KvmUtils.IpiBench.Bench
import KvmUtils.Lib.Census
import KvmUtils.IpiBench.Counters
import KvmUtils.IpiBench.Barrier
import KvmUtils.IpiBench.Stuck
import KvmUtils.IpiBench.Picks
import KvmUtils.IpiBench.Pairing
import KvmUtils.IpiBench.Assignment
import KvmUtils.IpiBench.Ipitime
import KvmUtils.IpiBench.Paths
import KvmUtils.IpiBench.Lifetime
import KvmUtils.IpiBench.Sequence
import KvmUtils.KvmWrmsr.Alone
import KvmUtils.IpiBench.CpuUses
import KvmUtils.IpiBench.Params
import KvmUtils.IpiBench.ValidCpus
import KvmUtils.IpiBench.Callbacks
import KvmUtils.IpiBench.Broadcast
import KvmUtils.IpiBench.Delivery
import KvmUtils.IpiBench.BroadcastEnd
import KvmUtils.Lib.AddressSpace
import KvmUtils.TlbShootdown.Bench
import KvmUtils.TlbShootdown.Buffers
import KvmUtils.KvmExitReason.Totals
import KvmUtils.KvmExitReason.Unload
import KvmUtils.IpiBench.Printing
import KvmUtils.IpiBench.Memory
import KvmUtils.IpiBench.Readings
import KvmUtils.IpiBench.WorkDone
import KvmUtils.IpiBench.Snapshot
import KvmUtils.IpiBench.Throughput
import KvmUtils.IpiBench.Divisions
import KvmUtils.IpiBench.RunDelay
import KvmUtils.ApicIpi.Bench
import KvmUtils.ApicIpi.Sends
import KvmUtils.MsrBench.Bench
import KvmUtils.Lib.SiblingWalk
import KvmUtils.PioMmioBench.Walk
import KvmUtils.PioMmioBench.Ports
import KvmUtils.Lib.Progress
import KvmUtils.Lib.Rounds
import KvmUtils.Lib.Frames
import KvmUtils.KvmExitReason.Progress
import KvmUtils.KvmExitReason.Log
import KvmUtils.KvmExitReason.Names
import KvmUtils.KvmWrmsr.Unload
import KvmUtils.KvmWrmsr.Log
import KvmUtils.Lib.LockedObject
import KvmUtils.KvmWrmsr.TableLock
import KvmUtils.IpiBench.MainThread
import KvmUtils.IpiBench.Release
import KvmUtils.IpiBench.Redraw
import KvmUtils.TlbShootdown.Moves
import KvmUtils.TlbShootdown.Sums
import KvmUtils.TlbShootdown.Turns
