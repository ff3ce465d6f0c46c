import Jbm.Base.Filing
import Jbm.Base.Lines
import Jbm.Stream.Event

/-!
# `AsyncProfilerStackTraceProvider::fill_queue`

The ingestion of the JVM's event stream: read every line the reader over the output file has,
decode it, and file the event under its thread. `decode` is `serde_json::from_str::<JvmEvent>`,
`none` being its error; a line it refuses is skipped.

A call leaves nothing unread, so what a call reads is the text appended since the last one. When
the reader fails in the middle the call returns its error with the lines before already filed:
the text of such a call is the part it read.
-/

set_option autoImplicit false

namespace Jbm

open Base

variable (decode : List Char → Option JvmEvent)

/-- The loop of `fill_queue`: one line a round. -/
def fillLoop : Nat → List Char → Filing JvmEvent.tid → Filing JvmEvent.tid
  | 0, _, queues => queues
  | n + 1, text, queues =>
    match nextLine text with
    | none => queues
    | some (line, rest) =>
      match decode line with
      | some jvmEvent => fillLoop n rest (queues.push jvmEvent)
      -- "Skipping malformed AsyncProfiler event"
      | none => fillLoop n rest queues

/-- `fill_queue` on the text not read before. Every line it reads is at least one character, so
the length of the text bounds the rounds. -/
def fillQueue (text : List Char) (queues : Filing JvmEvent.tid) : Filing JvmEvent.tid :=
  fillLoop decode text.length text queues

/-- The events of a text: its well-formed lines, in order. -/
def eventsOf (text : List Char) : List JvmEvent := (lines text).filterMap decode

theorem fillLoop_eq (n : Nat) (text : List Char) (queues : Filing JvmEvent.tid) :
    fillLoop decode n text queues = queues.pushAll ((readLines n text).filterMap decode) := by
  induction n generalizing text queues with
  | zero => rfl
  | succ n ih =>
    unfold fillLoop readLines
    cases nextLine text with
    | none => rfl
    | some p =>
      obtain ⟨line, rest⟩ := p
      simp only
      cases hd : decode line with
      | none =>
        rw [List.filterMap_cons_none hd]
        exact ih rest queues
      | some jvmEvent =>
        rw [List.filterMap_cons_some hd]
        exact ih rest (queues.push jvmEvent)

/-- `fill_queue` files the events of its text, in order, and nothing else. -/
theorem fillQueue_eq (text : List Char) (queues : Filing JvmEvent.tid) :
    fillQueue decode text queues = queues.pushAll (eventsOf decode text) :=
  fillLoop_eq decode text.length text queues

end Jbm
