import Jbm.Stream.Add
import Jbm.Stream.Fill

/-!
# Runs of an event stream

The event stream as a machine: successful `add_bpf_event` calls, `fill_queue` calls and sweeps,
in any order. A label carries what the world decides (what a call reads from outside, the text
the reader has, the clock, the order of the map's keys); a call that fails, panics, or is given
an order that does not list the keys is not a step.

`History` is the stream together with everything that ever went in or came out of it. The
records beside `stream` are not in the source: no step reads them.
-/

set_option autoImplicit false

namespace Jbm

open Base

/-- A stream and what has happened to it, oldest first. -/
structure History where
  stream : EventStream
  /-- the events added, each with the `BlockEvent` it was made of -/
  added : List (BlockEvent × BpfEvent)
  /-- the JVM events filed -/
  filed : List JvmEvent
  /-- the pairs all sweeps returned -/
  returned : List Pair
  /-- the JVM events all sweeps trashed -/
  trashed : List Trashed

/-- A new stream, to which nothing has happened. -/
def History.new : History := ⟨.new, [], [], [], []⟩

/-- The operations on a stream. -/
inductive Op
  | add (host : Host) (event : BlockEvent)
  | fill (text : List Char)
  | sweep (now : UInt64) (order : List UInt32)

section Machine

variable (o : Overflow) (decode : List Char → Option JvmEvent)

/-- One operation. -/
def History.step (s : History) : Op → Option History
  | .add host event =>
    match toBpfEvent o host event, s.stream.addBpfEvent o host event with
    | some (.ok e), some (.ok stream) =>
      some { s with stream := stream, added := s.added ++ [(event, e)] }
    | _, _ => none
  | .fill text =>
    some
      { s with
        stream := { s.stream with jvmEvents := fillQueue decode text s.stream.jvmEvents }
        filed := s.filed ++ eventsOf decode text }
  | .sweep now order =>
    if s.stream.bpfEvents.Visits order then
      (s.stream.sweep o now order).map fun out =>
        { s with
          stream := out.stream
          returned := s.returned ++ out.returned
          trashed := s.trashed ++ out.trash }
    else none

/-- A run from a new stream. -/
def History.run (ops : List Op) : Option History := exec (History.step o decode) .new ops

end Machine

/-- What a step does, by the operation. -/
inductive History.Steps (o : Overflow) (decode : List Char → Option JvmEvent) (s : History) :
    Op → History → Prop
  | add {host : Host} {event : BlockEvent} {e : BpfEvent} :
      toBpfEvent o host event = some (.ok e) → (s.stream.countUp o).isSome →
      Steps o decode s (.add host event)
        { s with stream := s.stream.file e, added := s.added ++ [(event, e)] }
  | fill {text : List Char} :
      Steps o decode s (.fill text)
        { s with
          stream :=
            { s.stream with jvmEvents := s.stream.jvmEvents.pushAll (eventsOf decode text) }
          filed := s.filed ++ eventsOf decode text }
  | sweep {now : UInt64} {order : List UInt32} {out : Swept} :
      s.stream.bpfEvents.Visits order → s.stream.sweep o now order = some out →
      Steps o decode s (.sweep now order)
        { s with
          stream := out.stream
          returned := s.returned ++ out.returned
          trashed := s.trashed ++ out.trash }

theorem History.steps_of_step {o : Overflow} {decode : List Char → Option JvmEvent}
    {s s' : History} {op : Op} (h : History.step o decode s op = some s') :
    History.Steps o decode s op s' := by
  cases op with
  | add host event =>
    simp only [History.step] at h
    split at h
    · next e stream he hs =>
      obtain ⟨e', he', hcount, rfl⟩ := addBpfEvent_ok hs
      rw [he] at he'
      cases he'
      cases h
      exact .add he hcount
    · cases h
  | fill text =>
    simp only [History.step, fillQueue_eq, Option.some.injEq] at h
    subst h
    exact .fill
  | sweep now order =>
    simp only [History.step] at h
    split at h
    · next hv =>
      obtain ⟨out, hout, rfl⟩ := Option.map_eq_some_iff.mp h
      exact .sweep hv hout
    · cases h

/-- The ways a step can go are the steps. -/
theorem History.step_of_steps {o : Overflow} {decode : List Char → Option JvmEvent}
    {s s' : History} {op : Op} (h : History.Steps o decode s op s') :
    History.step o decode s op = some s' := by
  cases h with
  | @add host event e he hcount => simp [History.step, addBpfEvent_of_made he hcount, he]
  | fill => simp [History.step, fillQueue_eq]
  | sweep hv hout => simp [History.step, hv, hout]

/-! ## The count -/

/-- The count of a stream is the number of its events at 64 bits, and with overflow checks it is
that number. -/
structure History.Counted (o : Overflow) (s : History) : Prop where
  count : s.stream.eventCount = UInt64.ofNat s.added.length
  room : o = .abort → s.added.length < 2 ^ 64

theorem History.counted_new (o : Overflow) : History.new.Counted o := ⟨rfl, fun _ => by decide⟩

theorem History.Counted.toNat {s : History} (hs : s.Counted .abort) :
    s.stream.eventCount.toNat = s.added.length := by
  rw [hs.count, UInt64.toNat_ofNat_of_lt' (hs.room rfl)]

theorem History.Counted.step {o : Overflow} {decode : List Char → Option JvmEvent} {s s' : History}
    {op : Op} (hs : s.Counted o) (h : History.Steps o decode s op s') : s'.Counted o := by
  cases h with
  | @add host event e _ hcount =>
    refine ⟨?_, ?_⟩
    · show s.stream.eventCount + 1 = UInt64.ofNat (s.added ++ [(event, e)]).length
      rw [List.length_append, List.length_singleton, UInt64.ofNat_add, hs.count]
      rfl
    · rintro rfl
      obtain ⟨n, hn⟩ := Option.isSome_iff_exists.mp hcount
      have hlt := lt_of_addU64_abort hn
      rw [hs.toNat] at hlt
      rw [List.length_append, List.length_singleton]
      exact hlt
  | fill => exact ⟨hs.count, hs.room⟩
  | sweep _ hout =>
    obtain ⟨l, _, rfl⟩ := sweep_eq_some.mp hout
    exact ⟨hs.count, hs.room⟩

/-- Every reachable stream is counted. -/
theorem History.counted_of_run {o : Overflow} {decode : List Char → Option JvmEvent} {ops : List Op}
    {s : History} (h : History.run o decode ops = some s) : s.Counted o :=
  exec_keeps (fun _ _ _ hI hstep => hI.step (History.steps_of_step hstep)) (History.counted_new o) h

/-! ## A sample world

A host on which every lookup succeeds with an empty stack and both clocks stand at the given
readings, so that an event ending at `nowKtime` is stamped `now`. -/

def sampleHost (nowKtime now : UInt64) : Host where
  stackTraceMap := true
  stackTrace _ := some []
  kernelSymbol _ := none
  symbolize _ _ := some []
  nowKtime := nowKtime
  now := now

/-- An interval of 2 ms of thread `tid` that ended at `tEnd`. -/
def sampleBlock (tid : UInt32) (tEnd : UInt64) : BlockEvent where
  pid := tid
  tgid := 100
  userStackId := 0
  kernelStackId := 0
  name := Vector.replicate taskCommLen 0
  offtime := 2000
  tStart := tEnd - 2000000
  tEnd := tEnd

/-- The event that thread `tid` woke at wall time `now`, the monotonic clock showing the same
time. -/
def sampleAdd (tid : UInt32) (now : UInt64) : Op :=
  .add (sampleHost (now * 1000000) now) (sampleBlock tid (now * 1000000))

/-- The `BpfEvent` of `sampleAdd`. -/
def sampleBpf (tid : UInt32) (now : UInt64) : BpfEvent where
  timestamp := now
  pid := 100
  tid := tid
  comm := ""
  duration := ⟨2000000⟩
  stacktrace := []

/-- A JVM sample without frames. -/
def sampleJvm (tid : UInt32) (timestamp : UInt64) : JvmEvent := ⟨timestamp, tid, []⟩

/-- A line of the JVM's event stream, `\x7b"timestamp":5,"tid":7,"frames":[]\x7d`. -/
def sampleLine : List Char := "\x7b\"timestamp\":5,\"tid\":7,\"frames\":[]\x7d".toList

/-- The decoder on `sampleLine`; it refuses everything else. -/
def sampleDecode (line : List Char) : Option JvmEvent :=
  if line = sampleLine then some (sampleJvm 7 5) else none

end Jbm
