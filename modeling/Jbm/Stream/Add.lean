import Jbm.Stream.Sweep

/-!
# `EventStream::add_bpf_event`

The conversion of a `BlockEvent` into a `BpfEvent` and its filing under the thread's id. `Host`
is what the world outside the program answers during one call: the stack trace map, the kernel
symbol table, the user-space symbolizer, and the two clocks. The outer `none` of a result is a
panic, an inner error is an `Err` the call returns.
-/

set_option autoImplicit false

namespace Jbm

open Base

/-- The fields of a `SymbolizedResult` that the resolver reads. -/
structure SymbolizedResult where
  symbol : String
  path : String
  line : Nat

/-- What one call of `add_bpf_event` reads from outside. -/
structure Host where
  /-- whether `StackTraceMap::try_from` accepts the map -/
  stackTraceMap : Bool
  /-- `stack_traces.get(&id, 0)`: the instruction pointers of a stored stack -/
  stackTrace : UInt32 → Option (List UInt64)
  /-- the symbol that `kernel_stack.resolve(&self.ksyms)` finds for an address -/
  kernelSymbol : UInt64 → Option String
  /-- `symbolizer.symbolize` on a process and a stack -/
  symbolize : UInt32 → List UInt64 → Option (List (List SymbolizedResult))
  /-- `clock_gettime(CLOCK_MONOTONIC)` in ns -/
  nowKtime : UInt64
  /-- `time_now()`, in ms -/
  now : UInt64

/-- The errors `add_bpf_event` returns. -/
inductive AddError
  | stackTraceMap
  | stackTrace (id : UInt32)
  | symbolize
  | name
  deriving DecidableEq, Repr

/-- `Resolver::resolve`. -/
def resolve (host : Host) (pid : UInt32) (stack : List UInt64) :
    Except AddError (List (UInt64 × Option String)) :=
  match host.symbolize pid stack with
  | none => .error .symbolize
  | some symbols => .ok <| stack.mapIdx fun i address =>
    match symbols[i]? with
    | some (r :: _) => (address, some (r.symbol ++ "@" ++ r.path ++ ":" ++ toString r.line))
    | _ => (address, none)

/-- `stack_traces.get(&id, 0)?`; the id of a `BlockEvent` is cut to 32 bits. -/
def getStack (host : Host) (id : Int64) : Except AddError (List UInt64) :=
  match host.stackTrace id.toUInt64.toUInt32 with
  | some ips => .ok ips
  | none => .error (.stackTrace id.toUInt64.toUInt32)

def unknownSymbol : String := "[unknown symbol name]"

/-- The stack trace of an event: kernel frames, then user frames. -/
def readFrames (host : Host) (event : BlockEvent) : Except AddError (List (UInt64 × String)) := do
  if !host.stackTraceMap then
    throw .stackTraceMap
  let kernelStack ← getStack host event.kernelStackId
  let userStack ← getStack host event.userStackId
  let userFrames ← resolve host event.tgid userStack
  return kernelStack.map (fun ip => (ip, (host.kernelSymbol ip).getD unknownSymbol)) ++
    userFrames.map (fun frame => (frame.1, frame.2.getD unknownSymbol))

/-! ## The thread's name -/

/-- A UTF-8 lead byte: how many continuation bytes it announces, and the range of the first of
them. -/
def utf8Lead (b : UInt8) : Option (Nat × UInt8 × UInt8) :=
  if 0xC2 ≤ b ∧ b ≤ 0xDF then some (1, 0x80, 0xBF)
  else if b = 0xE0 then some (2, 0xA0, 0xBF)
  else if b = 0xED then some (2, 0x80, 0x9F)
  else if 0xE1 ≤ b ∧ b ≤ 0xEF then some (2, 0x80, 0xBF)
  else if b = 0xF0 then some (3, 0x90, 0xBF)
  else if 0xF1 ≤ b ∧ b ≤ 0xF3 then some (3, 0x80, 0xBF)
  else if b = 0xF4 then some (3, 0x80, 0x8F)
  else none

/-- Read `n` continuation bytes, the first in `lo..hi`: the code point if all are there, and the
bytes behind those that fit. -/
def utf8Continue : Nat → UInt8 → UInt8 → Nat → List UInt8 → Option Nat × List UInt8
  | 0, _, _, acc, bs => (some acc, bs)
  | n + 1, lo, hi, acc, b :: bs =>
    if lo ≤ b ∧ b ≤ hi then utf8Continue n 0x80 0xBF (acc * 64 + (b.toNat - 0x80)) bs
    else (none, b :: bs)
  | _ + 1, _, _, _, [] => (none, [])

/-- `to_string_lossy`: each maximal ill-formed run becomes one U+FFFD. Every round consumes a
byte, so the length of the input bounds the rounds. -/
def utf8Lossy : Nat → List UInt8 → List Char
  | 0, _ => []
  | _ + 1, [] => []
  | n + 1, b :: bs =>
    if b < 0x80 then Char.ofNat b.toNat :: utf8Lossy n bs
    else
      match utf8Lead b with
      | none => '\uFFFD' :: utf8Lossy n bs
      | some (k, lo, hi) =>
        let r := utf8Continue k lo hi (b.toNat % 2 ^ (6 - k)) bs
        (r.1.map Char.ofNat).getD '\uFFFD' :: utf8Lossy n r.2

/-- `CStr::from_bytes_until_nul(&event.name)?` and its lossy decoding. -/
def readComm (name : Vector UInt8 taskCommLen) : Except AddError String :=
  let bytes := name.toList.takeWhile (· ≠ 0)
  if name.toList.contains 0 then .ok (String.ofList (utf8Lossy bytes.length bytes))
  else .error .name

/-! ## The timestamp, and the filing -/

/-- `EventStream::compute_timestamp`. -/
def computeTimestamp (o : Overflow) (nowKtime now bpfKtime : UInt64) : Option UInt64 := do
  let offset ← subU64 o nowKtime bpfKtime
  let wall ← (Duration.fromMillis now).sub (Duration.fromNanos offset)
  return UInt64.ofNat wall.asMillis

/-- The `BpfEvent` that `add_bpf_event` makes of a `BlockEvent`. -/
def toBpfEvent (o : Overflow) (host : Host) (event : BlockEvent) :
    Option (Except AddError BpfEvent) :=
  match readFrames host event with
  | .error e => some (.error e)
  | .ok frames =>
    match readComm event.name with
    | .error e => some (.error e)
    | .ok comm =>
      (computeTimestamp o host.nowKtime host.now event.tEnd).map fun timestamp =>
        .ok
          { timestamp := timestamp
            pid := event.tgid
            tid := event.pid
            comm := comm
            duration := .fromMicros event.offtime
            stacktrace := frames }

/-- The updates of `add_bpf_event`, all of them after its fallible part. -/
def EventStream.file (s : EventStream) (e : BpfEvent) : EventStream :=
  { s with bpfEvents := s.bpfEvents.push e, eventCount := s.eventCount + 1 }

/-- `self.event_count += 1` -/
def EventStream.countUp (o : Overflow) (s : EventStream) : Option UInt64 := addU64 o s.eventCount 1

/-- `EventStream::add_bpf_event`. -/
def EventStream.addBpfEvent (o : Overflow) (host : Host) (event : BlockEvent)
    (s : EventStream) : Option (Except AddError EventStream) :=
  match toBpfEvent o host event with
  | none => none
  | some (.error e) => some (.error e)
  | some (.ok e) => (s.countUp o).map fun eventCount =>
    .ok { s with bpfEvents := s.bpfEvents.push e, eventCount := eventCount }

/-- The count goes up unless it overflows and the build checks that. -/
theorem EventStream.countUp_eq {o : Overflow} {s : EventStream} (h : (s.countUp o).isSome) :
    s.countUp o = some (s.eventCount + 1) := by
  obtain ⟨n, hn⟩ := Option.isSome_iff_exists.mp h
  rw [hn, eq_add_of_addU64 hn]

theorem EventStream.countUp_of_lt (o : Overflow) {s : EventStream}
    (h : s.eventCount.toNat + 1 < 2 ^ 64) : (s.countUp o).isSome := by
  rw [countUp, addU64_of_lt o h]
  rfl

theorem EventStream.countUp_wrap (s : EventStream) : (s.countUp .wrap).isSome := by
  unfold countUp addU64
  split <;> rfl

/-- An event is filed under the id of the thread that the kernel reported. -/
theorem toBpfEvent_tid {o : Overflow} {host : Host} {event : BlockEvent} {e : BpfEvent}
    (h : toBpfEvent o host event = some (.ok e)) : e.tid = event.pid := by
  unfold toBpfEvent at h
  split at h
  · cases h
  · split at h
    · cases h
    · obtain ⟨timestamp, _, h⟩ := Option.map_eq_some_iff.mp h
      cases h
      rfl

/-- A call that can make an event of its argument and count it files the event. -/
theorem addBpfEvent_of_made {o : Overflow} {host : Host} {event : BlockEvent} {s : EventStream}
    {e : BpfEvent} (he : toBpfEvent o host event = some (.ok e)) (hcount : (s.countUp o).isSome) :
    s.addBpfEvent o host event = some (.ok (s.file e)) := by
  simp only [EventStream.addBpfEvent, he, EventStream.countUp_eq hcount, Option.map_some]
  rfl

/-- A successful call files the event it made of its argument. -/
theorem addBpfEvent_ok {o : Overflow} {host : Host} {event : BlockEvent} {s s' : EventStream}
    (h : s.addBpfEvent o host event = some (.ok s')) :
    ∃ e, toBpfEvent o host event = some (.ok e) ∧ (s.countUp o).isSome ∧ s' = s.file e := by
  unfold EventStream.addBpfEvent at h
  split at h
  · cases h
  · cases h
  · next e he =>
    obtain ⟨n, hn, h⟩ := Option.map_eq_some_iff.mp h
    cases h
    refine ⟨e, he, by rw [hn]; rfl, ?_⟩
    rw [eq_add_of_addU64 hn]
    rfl

end Jbm
