import Jbm.Base.Readable
import Jbm.Stream.Event

/-!
# What `jbm` prints

The text of one report on standard output, and that of a trashed JVM event in the log.
`formatTime` is `format_time`: the local time in the format `%Y-%m-%d %H:%M:%S`, or a panic where
the timestamp is outside the range of the calendar.
-/

set_option autoImplicit false

namespace Jbm

open Base

/-- A number, formatted with `{}`. -/
def decimal (n : Nat) : List Char := Nat.toDigits 10 n

/-- A number, formatted with `{:x}`. -/
def hex (n : Nat) : List Char := Nat.toDigits 16 n

/-- A frame, formatted with `{}: [0x{:x}] {}` behind an indent. -/
def frameText (indent : List Char) (i : Nat) (frame : UInt64 × String) : List Char :=
  indent ++ (decimal i ++ (": [0x".toList ++ (hex frame.1.toNat ++ ("] ".toList ++ frame.2.toList))))

/-- The native frames, a line each. -/
def nativeStack (stacktrace : List (UInt64 × String)) : List Char :=
  numbered (fun i frame => frameText "  ".toList i frame ++ ['\n']) stacktrace 0

/-- What is printed of a frame of the JVM. -/
def JvmFrame.printed (f : JvmFrame) : UInt64 × String := (f.methodId, f.symbol)

/-- The frames of a JVM event, a line break in front of each but the first. -/
def jvmStack (frames : List (UInt64 × String)) : List Char :=
  numbered (fun i frame => (if i = 0 then [] else ['\n']) ++ frameText "  ".toList i frame) frames 0

/-- The first line of a report. -/
def reportHead (time : List Char) (b : BpfEvent) : List Char :=
  "=== ".toList ++ (time ++ (" ".toList ++ (decimal b.timestamp.toNat ++ (" PID: ".toList ++
    (decimal b.pid.toNat ++ (", TID: ".toList ++ (decimal b.tid.toNat ++ (" (".toList ++
      (b.comm.toList ++ ("), DURATION: ".toList ++ (decimal b.duration.asMicros ++
        " us\n".toList)))))))))))

/-- The lines between the two stacks. -/
def jvmHead (took : List Char) : List Char :=
  List.replicate 80 '-' ++ ('\n' :: ("JVM Stack (took: ".toList ++ (took ++ "):\n".toList)))

/-- The text of one report. -/
def report (formatTime : UInt64 → Option (List Char)) (p : Pair) : Option (List Char) := do
  let time ← formatTime p.1.timestamp
  let out := reportHead time p.1 ++ ("Native Stack:\n".toList ++ nativeStack p.1.stacktrace)
  match p.2 with
  | none => return out
  | some j =>
    let took ← formatTime j.timestamp
    return out ++ (jvmHead took ++ jvmStack (j.frames.map JvmFrame.printed))

/-- `println!` of some reports, one after the other. -/
def printReports (formatTime : UInt64 → Option (List Char)) : List Pair → Option (List Char)
  | [] => some []
  | p :: ps => do
    let out ← report formatTime p
    let rest ← printReports formatTime ps
    return out ++ '\n' :: rest

/-- `trash_jvm_event`: the line break comes behind every frame but the first. -/
def trashText (e : JvmEvent) : List Char :=
  "DISCARDED AP EVENT tid=".toList ++ (decimal e.tid.toNat ++ (", timestamp=".toList ++
    (decimal e.timestamp.toNat ++ ('\n' ::
      numbered (fun i frame => frameText [] i frame ++ if i = 0 then [] else ['\n'])
        (e.frames.map JvmFrame.printed) 0))))

end Jbm
