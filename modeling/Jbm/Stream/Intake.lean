import Jbm.Stream.History

/-!
# What reaches a stream

The runs of `History` seen from the event stream: which BPF event, which JVM event comes next, and
when a sweep is made. How an event was made, of what the kernel reported or of a line of text, is
left out, so that a law can be about all histories of events; `History.intake` says that every run
is one of these.
-/

set_option autoImplicit false

namespace Jbm

open Base

/-- The next thing that happens to a stream. -/
inductive Intake
  | bpf (e : BpfEvent)
  | jvm (j : JvmEvent)
  | sweep (now : UInt64) (order : List UInt32)

/-- A stream and what its sweeps returned. -/
structure Collected where
  stream : EventStream
  returned : List Pair

/-- A new stream. -/
def Collected.new : Collected := ⟨.new, []⟩

/-- An event is filed, a sweep returns its pairs. -/
def Collected.step (o : Overflow) (s : Collected) : Intake → Option Collected
  | .bpf e => (s.stream.countUp o).map fun _ => { s with stream := s.stream.file e }
  | .jvm j => some { s with stream := { s.stream with jvmEvents := s.stream.jvmEvents.push j } }
  | .sweep now order =>
    if s.stream.bpfEvents.Visits order then
      (s.stream.sweep o now order).map fun out => ⟨out.stream, s.returned ++ out.returned⟩
    else none

/-- The BPF events of an intake, in order. -/
def bpfsOf : List Intake → List BpfEvent :=
  List.filterMap fun
    | .bpf e => some e
    | _ => none

/-- The JVM events of an intake, in order. -/
def jvmsOf : List Intake → List JvmEvent :=
  List.filterMap fun
    | .jvm j => some j
    | _ => none

/-- An event that can be counted is filed. -/
theorem Collected.step_bpf {o : Overflow} {s : Collected} (h : (s.stream.countUp o).isSome)
    (e : BpfEvent) : s.step o (.bpf e) = some { s with stream := s.stream.file e } := by
  rw [Collected.step, EventStream.countUp_eq h]
  rfl

section Lists

variable (e : BpfEvent) (j : JvmEvent) (now : UInt64) (order : List UInt32) (is ks : List Intake)

@[simp] theorem bpfsOf_nil : bpfsOf [] = [] := rfl
@[simp] theorem bpfsOf_bpf : bpfsOf (.bpf e :: is) = e :: bpfsOf is := rfl
@[simp] theorem bpfsOf_jvm : bpfsOf (.jvm j :: is) = bpfsOf is := rfl
@[simp] theorem bpfsOf_sweep : bpfsOf (.sweep now order :: is) = bpfsOf is := rfl
@[simp] theorem jvmsOf_nil : jvmsOf [] = [] := rfl
@[simp] theorem jvmsOf_bpf : jvmsOf (.bpf e :: is) = jvmsOf is := rfl
@[simp] theorem jvmsOf_jvm : jvmsOf (.jvm j :: is) = j :: jvmsOf is := rfl
@[simp] theorem jvmsOf_sweep : jvmsOf (.sweep now order :: is) = jvmsOf is := rfl

@[simp] theorem bpfsOf_append : bpfsOf (is ++ ks) = bpfsOf is ++ bpfsOf ks :=
  List.filterMap_append

@[simp] theorem jvmsOf_append : jvmsOf (is ++ ks) = jvmsOf is ++ jvmsOf ks :=
  List.filterMap_append

@[simp] theorem bpfsOf_map_bpf (es : List BpfEvent) : bpfsOf (es.map .bpf) = es := by
  induction es with
  | nil => rfl
  | cons e es ih => exact congrArg (e :: ·) ih

@[simp] theorem bpfsOf_map_jvm (js : List JvmEvent) : bpfsOf (js.map .jvm) = [] := by
  induction js with
  | nil => rfl
  | cons j js ih => exact ih

@[simp] theorem jvmsOf_map_bpf (es : List BpfEvent) : jvmsOf (es.map .bpf) = [] := by
  induction es with
  | nil => rfl
  | cons e es ih => exact ih

@[simp] theorem jvmsOf_map_jvm (js : List JvmEvent) : jvmsOf (js.map .jvm) = js := by
  induction js with
  | nil => rfl
  | cons j js ih => exact congrArg (j :: ·) ih

end Lists

/-- JVM events are filed one after another. -/
theorem exec_jvms (o : Overflow) (s : Collected) (js : List JvmEvent) :
    exec (Collected.step o) s (js.map .jvm) =
      some { s with
        stream := { s.stream with jvmEvents := s.stream.jvmEvents.pushAll js } } := by
  induction js generalizing s with
  | nil => rfl
  | cons j js ih =>
    rw [List.map_cons, exec, Collected.step, Option.bind_some, ih]
    rfl

/-- The intake of a history: the events it added and filed, with its sweeps, lead to the same stream
and the same pairs. -/
def Collected.Traces (o : Overflow) (is : List Intake) (s : History) : Prop :=
  exec (Collected.step o) .new is = some ⟨s.stream, s.returned⟩ ∧
    bpfsOf is = s.added.map Prod.snd ∧ jvmsOf is = s.filed

/-- **Every run of a stream is an intake.** -/
theorem History.intake {o : Overflow} {decode : List Char → Option JvmEvent} {ops : List Op}
    {s : History} (h : History.run o decode ops = some s) : ∃ is, Collected.Traces o is s := by
  have keep : ∀ (s : History) (op : Op) (s' : History), (∃ is, Collected.Traces o is s) →
      History.step o decode s op = some s' → ∃ is, Collected.Traces o is s' := by
    rintro s op s' ⟨is, hrun, hbpf, hjvm⟩ hstep
    cases History.steps_of_step hstep with
    | @add _ _ e _ hcount =>
      refine ⟨is ++ [.bpf e], exec_concat.mpr ⟨_, hrun, Collected.step_bpf hcount e⟩, ?_, ?_⟩
      · simp [hbpf]
      · simp [hjvm]
    | @fill text =>
      refine ⟨is ++ (eventsOf decode text).map .jvm, ?_, ?_, ?_⟩
      · rw [exec_append, hrun, Option.bind_some, exec_jvms]
      · simp [hbpf]
      · simp [hjvm]
    | @sweep now order out hv hout =>
      refine ⟨is ++ [.sweep now order], exec_concat.mpr ⟨_, hrun, ?_⟩, ?_, ?_⟩
      · rw [Collected.step, if_pos hv, hout, Option.map_some]
      · simp [hbpf]
      · simp [hjvm]
  exact exec_keeps keep ⟨[], rfl, rfl, rfl⟩ h

end Jbm
