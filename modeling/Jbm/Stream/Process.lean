import Jbm.Stream.History

/-!
# `Jbm::process`

The monitor between the kernel and the event stream. The eBPF program appends each `BlockEvent`
to the perf buffer of the CPU on which the thread wakes; a call of `process` reads up to five
events from every buffer, adds what it read buffer by buffer, fills the JVM queues and sweeps.

The call is cut into steps, so that the kernel can append events anywhere inside it: one step for
each buffer read, one where the reads are joined, one for each event added. A buffer whose read
timed out or failed by the time of the join contributes nothing. The first error, of an
`add_bpf_event` or of the line reader, ends the call, and what was left of the batch is gone.
-/

set_option autoImplicit false

namespace Jbm

open Base

/-- How many events one call reads from one perf buffer at most. -/
def readBatch : Nat := 5

/-- Where a call of `process` stands. -/
inductive Stage
  /-- waiting for the reads; by CPU, what has been read -/
  | reading (results : List (Option (List BlockEvent)))
  /-- adding the events read -/
  | adding (batch : List BlockEvent)
  /-- the JVM queues are filled -/
  | sweeping

/-- The reads of a call that has not joined them yet. -/
def Stage.results? : Stage → Option (List (Option (List BlockEvent)))
  | .reading results => some results
  | _ => none

/-- `Jbm`: the perf buffers of the online CPUs, oldest event first, the stream with its history,
and where the current call stands. `woken` lists every event the eBPF program ever output; no
step of `process` reads it. -/
structure Monitor where
  perfBuffers : List (List BlockEvent)
  woken : List BlockEvent
  stage : Stage
  history : History

/-- A call that has read nothing yet. -/
def Monitor.begin (cpus : Nat) : Stage := .reading (List.replicate cpus none)

/-- `Jbm::new` on a host with that many CPUs. -/
def Monitor.new (cpus : Nat) : Monitor :=
  ⟨List.replicate cpus [], [], Monitor.begin cpus, .new⟩

/-- The steps of the kernel and of `process`. -/
inductive Act
  /-- the eBPF program outputs an event on a CPU -/
  | wake (cpu : Nat) (event : BlockEvent)
  /-- the read of a CPU's perf buffer completes -/
  | read (cpu : Nat)
  /-- `join_all` returns -/
  | join
  /-- `add_bpf_event` on the next event read -/
  | add (host : Host)
  /-- `fill_queue`; the reader may end in an error behind `text` -/
  | fill (text : List Char) (ok : Bool)
  /-- `sweep` -/
  | sweep (now : UInt64) (order : List UInt32)

/-- The batch of a call: what was read, CPU by CPU. -/
def batchOf (results : List (Option (List BlockEvent))) : List BlockEvent :=
  results.flatMap (·.getD [])

section Machine

variable (o : Overflow) (decode : List Char → Option JvmEvent)

/-- One step. A thread's successive events have strictly increasing `tEnd`. -/
def Monitor.step (s : Monitor) : Act → Option Monitor
  | .wake cpu event =>
    if cpu < s.perfBuffers.length ∧ ∀ e ∈ s.woken, e.pid = event.pid → e.tEnd < event.tEnd then
      some
        { s with
          perfBuffers := s.perfBuffers.modify cpu (· ++ [event])
          woken := s.woken ++ [event] }
    else none
  | .read cpu =>
    match s.stage, s.perfBuffers[cpu]? with
    | .reading results, some buffer =>
      if results[cpu]? = some none then
        some
          { s with
            perfBuffers := s.perfBuffers.set cpu (buffer.drop readBatch)
            stage := .reading (results.set cpu (some (buffer.take readBatch))) }
      else none
    | _, _ => none
  | .join =>
    match s.stage with
    | .reading results => some { s with stage := .adding (batchOf results) }
    | _ => none
  | .add host =>
    match s.stage with
    | .adding (event :: batch) =>
      match s.history.stream.addBpfEvent o host event with
      | none => none
      | some (.error _) => some { s with stage := Monitor.begin s.perfBuffers.length }
      | some (.ok _) =>
        (s.history.step o decode (.add host event)).map fun history =>
          { s with stage := .adding batch, history := history }
    | _ => none
  | .fill text ok =>
    match s.stage with
    | .adding [] =>
      (s.history.step o decode (.fill text)).map fun history =>
        { s with
          stage := if ok then .sweeping else Monitor.begin s.perfBuffers.length
          history := history }
    | _ => none
  | .sweep now order =>
    match s.stage with
    | .sweeping =>
      (s.history.step o decode (.sweep now order)).map fun history =>
        { s with stage := Monitor.begin s.perfBuffers.length, history := history }
    | _ => none

/-- A run of the monitor on a host with `cpus` CPUs. -/
def Monitor.run (cpus : Nat) (acts : List Act) : Option Monitor :=
  exec (Monitor.step o decode) (.new cpus) acts

end Machine

/-- What a step does, by the act. -/
inductive Monitor.Steps (o : Overflow) (decode : List Char → Option JvmEvent) (s : Monitor) :
    Act → Monitor → Prop
  | wake {cpu : Nat} {event : BlockEvent} :
      (∀ e ∈ s.woken, e.pid = event.pid → e.tEnd < event.tEnd) →
      Steps o decode s (.wake cpu event)
        { s with
          perfBuffers := s.perfBuffers.modify cpu (· ++ [event])
          woken := s.woken ++ [event] }
  | read {cpu : Nat} {buffer : List BlockEvent} {results : List (Option (List BlockEvent))} :
      s.stage = .reading results → s.perfBuffers[cpu]? = some buffer →
      Steps o decode s (.read cpu)
        { s with
          perfBuffers := s.perfBuffers.set cpu (buffer.drop readBatch)
          stage := .reading (results.set cpu (some (buffer.take readBatch))) }
  | join {results : List (Option (List BlockEvent))} :
      s.stage = .reading results →
      Steps o decode s .join { s with stage := .adding (batchOf results) }
  | added {host : Host} {event : BlockEvent} {batch : List BlockEvent} {history : History} :
      s.stage = .adding (event :: batch) →
      History.Steps o decode s.history (.add host event) history →
      Steps o decode s (.add host) { s with stage := .adding batch, history := history }
  | failed {host : Host} :
      Steps o decode s (.add host) { s with stage := Monitor.begin s.perfBuffers.length }
  | fill {text : List Char} {ok : Bool} {history : History} :
      History.Steps o decode s.history (.fill text) history →
      Steps o decode s (.fill text ok)
        { s with
          stage := if ok then .sweeping else Monitor.begin s.perfBuffers.length
          history := history }
  | sweep {now : UInt64} {order : List UInt32} {history : History} :
      History.Steps o decode s.history (.sweep now order) history →
      Steps o decode s (.sweep now order)
        { s with stage := Monitor.begin s.perfBuffers.length, history := history }

theorem Monitor.steps_of_step {o : Overflow} {decode : List Char → Option JvmEvent}
    {s s' : Monitor} {act : Act} (h : s.step o decode act = some s') :
    Monitor.Steps o decode s act s' := by
  cases act with
  | wake cpu event =>
    simp only [Monitor.step] at h
    split at h
    · next hw =>
      cases h
      exact .wake hw.2
    · cases h
  | read cpu =>
    simp only [Monitor.step] at h
    split at h
    · next results buffer hstage hbuf =>
      split at h
      · cases h
        exact .read hstage hbuf
      · cases h
    · cases h
  | join =>
    simp only [Monitor.step] at h
    split at h
    · next results hstage =>
      cases h
      exact .join hstage
    · cases h
  | add host =>
    simp only [Monitor.step] at h
    split at h
    · next event batch hstage =>
      split at h
      · cases h
      · cases h
        exact .failed
      · obtain ⟨history, hadd, rfl⟩ := Option.map_eq_some_iff.mp h
        exact .added hstage (History.steps_of_step hadd)
    · cases h
  | fill text ok =>
    simp only [Monitor.step] at h
    split at h
    · obtain ⟨history, hfill, rfl⟩ := Option.map_eq_some_iff.mp h
      exact .fill (History.steps_of_step hfill)
    · cases h
  | sweep now order =>
    simp only [Monitor.step] at h
    split at h
    · obtain ⟨history, hsweep, rfl⟩ := Option.map_eq_some_iff.mp h
      exact .sweep (History.steps_of_step hsweep)
    · cases h

end Jbm
