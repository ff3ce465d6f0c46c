import Jbm.Base.Simulation
import Jbm.Ebpf.Kernel
import Jbm.Ebpf.Stacks
import Jbm.Stream.Process
import Jbm.Wire

/-!
# The whole system

The kernel that runs `try_jbm` and the control program that runs `process`, with everything that
passes between them: the perf buffers, whose samples are bytes, and the stack map. A context switch
leaves its event as a sample in the perf buffer of its CPU, unless the buffer has no room for it;
`process` copies events out of the samples and looks their stacks up. Both programs read one
monotonic clock.

The stack map `M` is a parameter. `System.monitor` is what `process` has of the system: the buffers
as events. The records `wakes`, `dropped` and `warnings` are not in the source, no step reads them.
-/

set_option autoImplicit false

namespace Jbm

open Base

/-- `STACK_STORAGE_SIZE_CHECK_COUNT`. -/
def stackStorageSizeCheckCount : UInt64 := 100

/-- The end of `add_bpf_event`: what it warns of when `eventCount` events have been added and the
stack map holds `curSize` stacks. -/
def storageWarning (eventCount : UInt64) (curSize : Nat) : Option String :=
  if eventCount % stackStorageSizeCheckCount = 0 then
    if stackStorageSize ≤ curSize then
      some ("Stacktraces storage is full, some stacks may be missing in output: " ++
        toString curSize ++ "/" ++ toString stackStorageSize)
    else none
  else none

/-- An event the eBPF program output, the stacks its thread had then, and whether the perf buffer
lost it. -/
structure Wake where
  event : BlockEvent
  kernelStack : List UInt64
  userStack : List UInt64
  lost : Bool

/-- The kernel, the latest reading of the monotonic clock, the stack map, the perf buffers of the
CPUs with the oldest sample first, where the current call of `process` stands, and its stream;
what was output, what a failing call dropped, and what was warned of. -/
structure System (M : StackMap) (cap : Nat) where
  kernel : Kernel
  clock : UInt64
  stackTraces : M.Map cap
  rings : List (List (List UInt8))
  stage : Stage
  history : History
  wakes : List Wake
  dropped : List BlockEvent
  warnings : List String

/-- The room of the stack map. -/
def Config.stackCap (config : Config) : Nat := config.stackStorageSize.toNat

/-- The system when `Jbm::new` returns. -/
def System.boot (M : StackMap) {config : Config} (b : Boot config) :
    System M config.stackCap where
  kernel := .boot b
  clock := 0
  stackTraces := M.create config.stackCap
  rings := List.replicate b.running.length []
  stage := Monitor.begin b.running.length
  history := .new
  wakes := []
  dropped := []
  warnings := []

/-- The steps of the system: those of the kernel, and those of `process`. -/
inductive SystemOp
  | fork (t : TaskStruct)
  /-- a context switch; the perf buffer pads the sample with `padding`, or loses it -/
  | switch (cpu : Nat) (next : TaskStruct) (exits : Bool) (h : Helpers) (walks : Walks)
      (padding : List UInt8) (lost : Bool)
  | read (cpu : Nat)
  | join
  /-- a lookup of a stack may fail; what it finds is up to the stack map -/
  | add (host : Host)
  | fill (text : List Char) (ok : Bool)
  | sweep (now : UInt64) (order : List UInt32)

/-- The events a call of `process` has read and not added yet. -/
def Stage.inHand : Stage → List BlockEvent
  | .reading results => batchOf results
  | .adding batch => batch
  | .sweeping => []

namespace System

variable {M : StackMap} {cap : Nat}

/-- The events the perf buffers took. -/
def delivered (s : System M cap) : List BlockEvent :=
  (s.wakes.filter (!·.lost)).map Wake.event

/-- The system as `process` sees it. -/
def monitor (s : System M cap) : Monitor where
  perfBuffers := s.rings.map (·.filterMap readSample)
  woken := s.delivered
  stage := s.stage
  history := s.history

/-- A step of `process` that leaves the perf buffers alone. -/
def adopt (s : System M cap) (m : Monitor) : System M cap :=
  { s with stage := m.stage, history := m.history }

/-- What the host answers, the stack map being this one: a lookup that does not fail on the host
finds what the map has. -/
def hostOf (s : System M cap) (host : Host) : Host :=
  { host with
    stackTrace := fun id => (host.stackTrace id).bind fun _ => M.get s.stackTraces id }

/-- What `add_bpf_event` leaves besides the stream: a failing call ends `process`, a successful one
may warn. -/
def afterAdd (s : System M cap) (m : Monitor) : System M cap :=
  match m.stage with
  | .adding _ =>
    { s with
      warnings := s.warnings ++
        (storageWarning m.history.stream.eventCount (M.size s.stackTraces)).toList }
  | _ => { s with dropped := s.dropped ++ s.stage.inHand }

/-- What a switch on `cpu` leaves of the events `try_jbm` outputs during it. -/
def emit (s : System M cap) (cpu : Nat) (output : List BlockEvent) (walks : Walks)
    (padding : List UInt8) (lost : Bool) : System M cap :=
  { s with
    rings := if lost then s.rings else s.rings.modify cpu (· ++ output.map (sampleOf · padding))
    wakes := s.wakes ++ output.map fun event => ⟨event, walks.kernel, walks.user, lost⟩ }

section Machine

variable (config : Config) (o : Overflow) (decode : List Char → Option JvmEvent)

/-- One step. -/
def step (s : System M cap) : SystemOp → Option (System M cap)
  | .fork t => (s.kernel.step config (.fork t)).map fun kernel => { s with kernel := kernel }
  | .switch cpu next exits h walks padding lost =>
    match s.kernel.running[cpu]? with
    | none => none
    | some prev =>
      if s.clock ≤ h.ts then
        let answered :=
          stackIds config prev next h walks s.kernel.startTimes s.stackTraces
        let output := (tryJbm config prev next answered.1 s.kernel.startTimes).output
        (s.kernel.step config (.switch cpu next exits answered.1)).map fun kernel =>
          { s.emit cpu output walks padding lost with
            kernel := kernel
            clock := h.tEnd
            stackTraces := answered.2 }
      else none
  | .read cpu =>
    match s.stage, s.rings[cpu]? with
    | .reading results, some ring =>
      if results[cpu]? = some none then
        -- a sample shorter than a `BlockEvent` would be read past its end
        ((ring.take readBatch).mapM readSample).map fun events =>
          { s with
            rings := s.rings.set cpu (ring.drop readBatch)
            stage := .reading (results.set cpu (some events)) }
      else none
    | _, _ => none
  | .add host =>
    if s.clock ≤ host.nowKtime then
      (s.monitor.step o decode (.add (s.hostOf host))).map fun m =>
        { (s.afterAdd m).adopt m with clock := host.nowKtime }
    else none
  | .join => (s.monitor.step o decode .join).map s.adopt
  | .fill text ok => (s.monitor.step o decode (.fill text ok)).map s.adopt
  | .sweep now order => (s.monitor.step o decode (.sweep now order)).map s.adopt

/-- A run of the system. -/
def run (M : StackMap) {config : Config} (b : Boot config) (o : Overflow)
    (decode : List Char → Option JvmEvent) (ops : List SystemOp) :
    Option (System M config.stackCap) :=
  exec (step config o decode) (.boot M b) ops

end Machine

/-- What a step does, by the operation. -/
inductive Steps (config : Config) (o : Overflow) (decode : List Char → Option JvmEvent)
    (s : System M cap) : SystemOp → System M cap → Prop
  | fork {t : TaskStruct} {kernel : Kernel} :
      s.kernel.step config (.fork t) = some kernel →
      Steps config o decode s (.fork t) { s with kernel := kernel }
  | switch {cpu : Nat} {prev next : TaskStruct} {exits : Bool} {h : Helpers} {walks : Walks}
      {padding : List UInt8} {lost : Bool} {kernel : Kernel} {answered : Helpers × M.Map cap}
      {output : List BlockEvent} :
      s.kernel.running[cpu]? = some prev → s.clock ≤ h.ts →
      answered = stackIds config prev next h walks s.kernel.startTimes s.stackTraces →
      output = (tryJbm config prev next answered.1 s.kernel.startTimes).output →
      s.kernel.step config (.switch cpu next exits answered.1) = some kernel →
      Steps config o decode s (.switch cpu next exits h walks padding lost)
        { s.emit cpu output walks padding lost with
          kernel := kernel
          clock := h.tEnd
          stackTraces := answered.2 }
  | read {cpu : Nat} {results : List (Option (List BlockEvent))} {ring : List (List UInt8)}
      {events : List BlockEvent} :
      s.stage = .reading results → s.rings[cpu]? = some ring → results[cpu]? = some none →
      (ring.take readBatch).mapM readSample = some events →
      Steps config o decode s (.read cpu)
        { s with
          rings := s.rings.set cpu (ring.drop readBatch)
          stage := .reading (results.set cpu (some events)) }
  | add {host : Host} {m : Monitor} :
      s.clock ≤ host.nowKtime → s.monitor.step o decode (.add (s.hostOf host)) = some m →
      Steps config o decode s (.add host) { (s.afterAdd m).adopt m with clock := host.nowKtime }
  | join {m : Monitor} :
      s.monitor.step o decode .join = some m → Steps config o decode s .join (s.adopt m)
  | fill {text : List Char} {ok : Bool} {m : Monitor} :
      s.monitor.step o decode (.fill text ok) = some m →
      Steps config o decode s (.fill text ok) (s.adopt m)
  | sweep {now : UInt64} {order : List UInt32} {m : Monitor} :
      s.monitor.step o decode (.sweep now order) = some m →
      Steps config o decode s (.sweep now order) (s.adopt m)

theorem steps_of_step {config : Config} {o : Overflow} {decode : List Char → Option JvmEvent}
    {s s' : System M cap} {op : SystemOp} (h : s.step config o decode op = some s') :
    Steps config o decode s op s' := by
  cases op with
  | fork t =>
    obtain ⟨kernel, hk, rfl⟩ := Option.map_eq_some_iff.mp h
    exact .fork hk
  | switch cpu next exits helpers walks padding lost =>
    simp only [step] at h
    split at h
    · cases h
    · next prev hprev =>
      split at h
      · next hclock =>
        obtain ⟨kernel, hk, rfl⟩ := Option.map_eq_some_iff.mp h
        exact .switch hprev hclock rfl rfl hk
      · cases h
  | read cpu =>
    simp only [step] at h
    split at h
    · next results ring hstage hring =>
      split at h
      · next hres =>
        obtain ⟨events, hevents, rfl⟩ := Option.map_eq_some_iff.mp h
        exact .read hstage hring hres hevents
      · cases h
    · cases h
  | add host =>
    simp only [step] at h
    split at h
    · next hclock =>
      obtain ⟨m, hm, rfl⟩ := Option.map_eq_some_iff.mp h
      exact .add hclock hm
    · cases h
  | join =>
    obtain ⟨m, hm, rfl⟩ := Option.map_eq_some_iff.mp h
    exact .join hm
  | fill text ok =>
    obtain ⟨m, hm, rfl⟩ := Option.map_eq_some_iff.mp h
    exact .fill hm
  | sweep now order =>
    obtain ⟨m, hm, rfl⟩ := Option.map_eq_some_iff.mp h
    exact .sweep hm

/-- A switch that the kernel takes. -/
theorem step_switch {config : Config} {o : Overflow} {decode : List Char → Option JvmEvent}
    {s : System M cap} {cpu : Nat} {prev next : TaskStruct} {exits : Bool} {h : Helpers}
    {walks : Walks} {padding : List UInt8} {lost : Bool} {kernel : Kernel}
    {answered : Helpers × M.Map cap} (hprev : s.kernel.running[cpu]? = some prev)
    (hclock : s.clock ≤ h.ts)
    (hids : stackIds config prev next h walks s.kernel.startTimes s.stackTraces = answered)
    (hk : s.kernel.step config (.switch cpu next exits answered.1) = some kernel) :
    s.step config o decode (.switch cpu next exits h walks padding lost) = some
      { s.emit cpu (tryJbm config prev next answered.1 s.kernel.startTimes).output walks padding
          lost with
        kernel := kernel
        clock := h.tEnd
        stackTraces := answered.2 } := by
  simp only [step, hprev, if_pos hclock, hids, hk, Option.map_some]

end System

/-! ## A sample run

Thread 7 of the sample host leaves the CPU and is back 4 ms later; `process` reads, adds and
returns its block. -/

/-- A stack map with 16384 slots, in which the first address of a stack picks the slot. -/
def sampleStackMap : StackMap := slotMap fun stack => (stack.headD 0).toUInt32 % 16384

/-- The stacks of a thread. -/
def sampleWalks : Walks := ⟨[0xffff0010], [0x1000, 0x2000]⟩

def sampleSystem : List SystemOp :=
  [.switch 0 sampleIdle false (sampleHelpers 1000000) sampleWalks [] false,
    .switch 0 sampleThread false (sampleHelpers 5000000) sampleWalks [0, 0, 0, 0] false,
    .read 0, .join, .add (sampleHost 6000000 6), .fill (sampleLine ++ ['\n']) true,
    .sweep 40000 [7]]

theorem sampleSystem_runs :
    (System.run sampleStackMap sampleBoot .abort sampleDecode sampleSystem).isSome := by decide

def sampleSystemEnd : System sampleStackMap sampleConfig.stackCap :=
  (System.run sampleStackMap sampleBoot .abort sampleDecode sampleSystem).get sampleSystem_runs

end Jbm
