import Jbm.Stream.Process

/-!
# The methods on `&mut EventStream`, statement by statement

`add_bpf_event` and the part of `process` behind its reads, as calls that return a `Result` and
leave the stream as far as they have come, whether they succeed or not. `addBpfEventCall_eq` says
that `add_bpf_event` leaves the stream alone when it fails, and otherwise files the event that
`toBpfEvent` makes; `Adding` is everything the loop over a batch can do.
-/

set_option autoImplicit false

namespace Jbm

open Base

/-- A method on `&mut EventStream`: its result and the stream it leaves, or a panic. -/
abbrev Call (ε α : Type) : Type := ExceptT ε (StateT EventStream Option) α

namespace Call

variable {ε α : Type}

/-- The value of an expression that may fail, by `?`. -/
def ofExcept (r : Except ε α) : Call ε α := fun s => some (r, s)

/-- The value of an expression that may panic. -/
def ofPanic (r : Option α) : Call ε α := fun s => r.map fun a => (.ok a, s)

end Call

/-- `self.event_count += 1` -/
def countCall {ε : Type} (o : Overflow) : Call ε Unit := fun s =>
  (s.countUp o).map fun eventCount => (.ok (), { s with eventCount := eventCount })

/-- `EventStream::add_bpf_event`. -/
def addBpfEventCall (o : Overflow) (host : Host) (event : BlockEvent) : Call AddError Unit := do
  let frames ← Call.ofExcept (readFrames host event)
  let comm ← Call.ofExcept (readComm event.name)
  let timestamp ← Call.ofPanic (computeTimestamp o host.nowKtime host.now event.tEnd)
  let bpfEvent : BpfEvent :=
    { timestamp := timestamp
      pid := event.tgid
      tid := event.pid
      comm := comm
      duration := .fromMicros event.offtime
      stacktrace := frames }
  modify fun s => { s with bpfEvents := s.bpfEvents.push bpfEvent }
  countCall o

/-- The errors `process` returns. -/
inductive ProcessError
  | add (e : AddError)
  /-- of the reader over the JVM's event stream -/
  | reader
  deriving DecidableEq, Repr

/-- The loop of `process` over the events read, each with what its `add_bpf_event` reads from
outside. -/
def addBatch (o : Overflow) (batch : List (Host × BlockEvent)) : Call ProcessError Unit :=
  batch.forM fun x => (addBpfEventCall o x.1 x.2).adapt .add

/-- `fill_queue`; `ok` says whether the reader ended without an error behind `text`. -/
def fillQueueCall (decode : List Char → Option JvmEvent) (text : List Char) (ok : Bool) :
    Call ProcessError Unit := do
  modify fun s => { s with jvmEvents := fillQueue decode text s.jvmEvents }
  if !ok then
    throw .reader

/-- `sweep`, the map's keys coming out in `order`. -/
def sweepCall {ε : Type} (o : Overflow) (now : UInt64) (order : List UInt32) :
    Call ε (List Pair) := fun s =>
  if s.bpfEvents.Visits order then
    (s.sweep o now order).map fun out => (.ok out.returned, out.stream)
  else none

/-- What the end of `process` reads from outside. -/
structure Ending where
  text : List Char
  ok : Bool
  now : UInt64
  order : List UInt32

/-- `Jbm::process` behind its reads. -/
def processBatch (o : Overflow) (decode : List Char → Option JvmEvent)
    (batch : List (Host × BlockEvent)) (ending : Ending) : Call ProcessError (List Pair) := do
  addBatch o batch
  fillQueueCall decode ending.text ending.ok
  sweepCall o ending.now ending.order

/-! ## What a call can do -/

/-- An event is pushed, and counted. -/
theorem countCall_eq {ε : Type} (o : Overflow) (e : BpfEvent) (s : EventStream) :
    countCall o { s with bpfEvents := s.bpfEvents.push e } =
      (s.countUp o).map fun _ => ((.ok () : Except ε Unit), s.file e) := by
  show (s.countUp o).map _ = (s.countUp o).map _
  cases hcount : s.countUp o with
  | none => rfl
  | some eventCount =>
    obtain rfl := eq_add_of_addU64 hcount
    rfl

/-- `add_bpf_event` changes the stream after everything that can fail. -/
theorem addBpfEventCall_eq (o : Overflow) (host : Host) (event : BlockEvent) (s : EventStream) :
    addBpfEventCall o host event s = match toBpfEvent o host event with
      | none => none
      | some (.error e) => some (.error e, s)
      | some (.ok e) => (s.countUp o).map fun _ => (.ok (), s.file e) := by
  unfold addBpfEventCall toBpfEvent
  cases readFrames host event with
  | error e => rfl
  | ok frames =>
    cases readComm event.name with
    | error e => rfl
    | ok comm =>
      cases computeTimestamp o host.nowKtime host.now event.tEnd with
      | none => rfl
      | some timestamp => exact countCall_eq o _ s

/-- The event an `add_bpf_event` call would add, if it succeeded. -/
def addable (o : Overflow) (x : Host × BlockEvent) : Option BpfEvent :=
  match toBpfEvent o x.1 x.2 with
  | some (.ok e) => some e
  | _ => none

/-- The call would return an error. -/
def Fails (o : Overflow) (x : Host × BlockEvent) : Prop :=
  ∃ e, toBpfEvent o x.1 x.2 = some (.error e)

/-- What the loop over a batch leaves and returns: it files the events up to the first whose call
fails, and returns that error. -/
inductive Adding (o : Overflow) :
    List (Host × BlockEvent) → EventStream → Except ProcessError Unit → EventStream → Prop
  | done (s : EventStream) : Adding o [] s (.ok ()) s
  | failed {x : Host × BlockEvent} {batch : List (Host × BlockEvent)} {s : EventStream}
      {e : AddError} :
      toBpfEvent o x.1 x.2 = some (.error e) → Adding o (x :: batch) s (.error (.add e)) s
  | added {x : Host × BlockEvent} {batch : List (Host × BlockEvent)} {s s' : EventStream}
      {e : BpfEvent} {r : Except ProcessError Unit} :
      toBpfEvent o x.1 x.2 = some (.ok e) → (s.countUp o).isSome →
      Adding o batch (s.file e) r s' → Adding o (x :: batch) s r s'

/-- The first round of the loop, and the loop after it. -/
theorem addBatch_cons (o : Overflow) (x : Host × BlockEvent) (batch : List (Host × BlockEvent))
    (s : EventStream) : addBatch o (x :: batch) s =
      match toBpfEvent o x.1 x.2 with
      | none => none
      | some (.error e) => some (.error (.add e), s)
      | some (.ok e) => (s.countUp o).bind fun _ => addBatch o batch (s.file e) := by
  have hcall := addBpfEventCall_eq o x.1 x.2 s
  have hround : addBatch o (x :: batch) s =
      ((addBpfEventCall o x.1 x.2).adapt ProcessError.add s).bind fun p =>
        ExceptT.bindCont (fun _ => addBatch o batch) p.1 p.2 := rfl
  have hadapt : (addBpfEventCall o x.1 x.2).adapt ProcessError.add s =
      (addBpfEventCall o x.1 x.2 s).bind fun p => some (p.1.mapError .add, p.2) := rfl
  rw [hround, hadapt, hcall]
  cases toBpfEvent o x.1 x.2 with
  | none => rfl
  | some made =>
    cases made with
    | error e => rfl
    | ok e => cases s.countUp o <;> rfl

theorem adding_of_addBatch {o : Overflow} {batch : List (Host × BlockEvent)} {s s' : EventStream}
    {r : Except ProcessError Unit} (h : addBatch o batch s = some (r, s')) :
    Adding o batch s r s' := by
  induction batch generalizing s with
  | nil =>
    cases h
    exact .done _
  | cons x batch ih =>
    rw [addBatch_cons] at h
    split at h
    · cases h
    · next hmake =>
      cases h
      exact .failed hmake
    · next hmake =>
      obtain ⟨n, hn, h⟩ := Option.bind_eq_some_iff.mp h
      exact .added hmake (by rw [hn]; rfl) (ih h)

/-- The ways a call of `process` behind its reads returns. -/
inductive Processes (o : Overflow) (decode : List Char → Option JvmEvent)
    (batch : List (Host × BlockEvent)) (ending : Ending) (s : EventStream) :
    Except ProcessError (List Pair) → EventStream → Prop
  /-- an `add_bpf_event` failed -/
  | failed {e : ProcessError} {s' : EventStream} :
      Adding o batch s (.error e) s' → Processes o decode batch ending s (.error e) s'
  /-- the reader failed -/
  | unread {m : EventStream} :
      Adding o batch s (.ok ()) m → ending.ok = false →
      Processes o decode batch ending s (.error .reader)
        { m with jvmEvents := fillQueue decode ending.text m.jvmEvents }
  | swept {m : EventStream} {out : Swept} :
      Adding o batch s (.ok ()) m → ending.ok = true → m.bpfEvents.Visits ending.order →
      EventStream.sweep o ending.now ending.order
        { m with jvmEvents := fillQueue decode ending.text m.jvmEvents } = some out →
      Processes o decode batch ending s (.ok out.returned) out.stream

theorem processes_of_processBatch {o : Overflow} {decode : List Char → Option JvmEvent}
    {batch : List (Host × BlockEvent)} {ending : Ending} {s s' : EventStream}
    {r : Except ProcessError (List Pair)}
    (h : processBatch o decode batch ending s = some (r, s')) :
    Processes o decode batch ending s r s' := by
  have hbatch : processBatch o decode batch ending s = (addBatch o batch s).bind fun p =>
      ExceptT.bindCont (fun _ => do
        fillQueueCall decode ending.text ending.ok
        sweepCall o ending.now ending.order) p.1 p.2 := rfl
  rw [hbatch, Option.bind_eq_some_iff] at h
  obtain ⟨⟨added, m⟩, hadd, h⟩ := h
  have hadding := adding_of_addBatch hadd
  cases added with
  | error e =>
    cases h
    exact .failed hadding
  | ok =>
    cases hok : ending.ok with
    | false =>
      rw [hok] at h
      cases h
      exact .unread hadding hok
    | true =>
      rw [hok] at h
      have hsweep : sweepCall o ending.now ending.order
          { m with jvmEvents := fillQueue decode ending.text m.jvmEvents } = some (r, s') := h
      unfold sweepCall at hsweep
      split at hsweep
      · next hv =>
        obtain ⟨out, hout, heq⟩ := Option.map_eq_some_iff.mp hsweep
        cases heq
        exact .swept hadding hok hv hout
      · cases hsweep

end Jbm
