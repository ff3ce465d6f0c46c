import Jbm.Base.Exec
import Jbm.Base.Trail
import Jbm.Base.Filing
import Jbm.Base.BoundedMap
import Jbm.Base.Fixed
import Jbm.Base.Lines
import Jbm.Base.Cuts
import Jbm.Base.Latest
import Jbm.Base.Layout
import Jbm.Base.Simulation
import Jbm.Base.Buffers
import Jbm.Common
import Jbm.Wire
import Jbm.Ebpf.Kernel
import Jbm.Ebpf.TryJbm
import Jbm.Ebpf.Stacks
import Jbm.Stream.Event
import Jbm.Stream.Match
import Jbm.Stream.Visit
import Jbm.Stream.Sweep
import Jbm.Stream.Add
import Jbm.Stream.Fill
import Jbm.Stream.History
import Jbm.Stream.Intake
import Jbm.Stream.Process
import Jbm.Stream.Call
import Jbm.System
import Jbm.Laws.Ebpf.Genuine
import Jbm.Laws.Ebpf.Complete
import Jbm.Laws.Ebpf.Occupancy
import Jbm.Laws.Ebpf.Pressure
import Jbm.Laws.Ebpf.Overlap
import Jbm.Laws.Stream.Delivery
import Jbm.Laws.Stream.Exact
import Jbm.Laws.Stream.Schedule
import Jbm.Laws.Stream.LookAhead
import Jbm.Laws.Stream.Isolation
import Jbm.Laws.Stream.Threads
import Jbm.Laws.Stream.Arrival
import Jbm.Laws.Stream.Chunks
import Jbm.Laws.Stream.Window
import Jbm.Laws.Stream.Ideal
import Jbm.Laws.Stream.Reference
import Jbm.Laws.Stream.Rest
import Jbm.Laws.Stream.Pairing
import Jbm.Laws.Stream.Contest
import Jbm.Laws.Stream.Batching
import Jbm.Laws.Stream.Failure
import Jbm.Laws.Stream.Clocks
import Jbm.Laws.System.Refines
import Jbm.Laws.System.Custody
import Jbm.Laws.System.Provenance
import Jbm.Laws.System.Storage
import Jbm.Laws.System.Drain
import Jbm.Base.Readable
import Jbm.Session.Report
import Jbm.Laws.Session.Printed
import Jbm.Laws.Session.Lifecycle
import Jbm.Laws.Session.Log
import Jbm.Laws.Stream.Handover
import Jbm.Laws.Stream.Retention
import Jbm.Laws.Stream.Solo
import Jbm.Laws.Stream.Parallel
import Jbm.Laws.System.Blocks
