import Jbm.Base.Fixed
import Jbm.Stream.Event

/-!
# The inner loop of `EventStream::sweep`

The matching of one thread's BPF queue against its JVM queue, on the result vector that all
threads of one sweep share.

The vector is kept newest first, so that `ret.last_mut()` is the head. `none` stands for a
program that panicked: an overflow of one of the subtractions in a build with overflow checks.
Besides what the source returns, the loops record every JVM event
they trash together with the BPF queue it was trashed against; the source only logs it.
-/

set_option autoImplicit false

namespace Jbm

open Base

/-- A JVM event that `trash_jvm_event` discarded, and the BPF queue, front first, of the visit it
was discarded in. -/
structure Trashed where
  queue : List BpfEvent
  jvm : JvmEvent
  deriving DecidableEq

/-- What `find_matching_jvm_event` answers, and what it leaves of the JVM queue. -/
structure Matching where
  found : Option JvmEvent
  left : List JvmEvent
  trash : List JvmEvent

/-- `EventStream::find_matching_jvm_event`. -/
def findMatchingJvmEvent (o : Overflow) (timestamp : UInt64) :
    List JvmEvent → Option Matching
  | [] => some ⟨none, [], []⟩
  | jvmEvent :: jvmQueue => do
    let tsDiff ← subI64 o (signed jvmEvent.timestamp) (signed timestamp)
    if tsDiff < 0 then
      -- no BPF event left corresponds to it: trash it and look at the next one
      let m ← findMatchingJvmEvent o timestamp jvmQueue
      return { m with trash := jvmEvent :: m.trash }
    else if tsDiff < eventMatchTimeThresholdTime.asMillis then
      return ⟨some jvmEvent, jvmQueue, []⟩
    else
      return ⟨none, jvmEvent :: jvmQueue, []⟩

/-- The take-over test of `sweep` on the newest pair: its JVM event is later than `timestamp`,
and closer to `timestamp` than to its own BPF event. -/
def takesOver (o : Overflow) (lastBpf : BpfEvent) (lastJvm : JvmEvent) (timestamp : UInt64) :
    Option Bool := do
  let tsDiff ← subI64 o (signed lastJvm.timestamp) (signed timestamp)
  if 0 < tsDiff then
    let dist ← subU64 o lastJvm.timestamp lastBpf.timestamp
    return decide (tsDiff < signed dist)
  else
    return false

/-- The take-over test on the whole result vector: nothing to take over when it is empty or when
its newest pair has no JVM event. -/
def takeOver? (o : Overflow) (ret : List Pair) (timestamp : UInt64) : Option Bool :=
  match ret with
  | (lastBpf, some lastJvm) :: _ => takesOver o lastBpf lastJvm timestamp
  | _ => some false

/-- `now - bpf_event.timestamp >= EVENT_MATCH_GIVEUP_TIME`. -/
def givesUp (o : Overflow) (now timestamp : UInt64) : Option Bool := do
  let age ← subU64 o now timestamp
  return decide (eventMatchGiveupTime.asMillis ≤ age.toNat)

/-- Take the newest pair's JVM event away from it. -/
def detach : List Pair → List Pair
  | (lastBpf, _) :: older => (lastBpf, none) :: older
  | [] => []

/-- The newest pair's JVM event. -/
def lastJvm : List Pair → Option JvmEvent
  | (_, jvm) :: _ => jvm
  | [] => none

/-- How one iteration of the inner loop ends: the front BPF event is popped and reported, or the
loop breaks and the event stays at the front. -/
inductive Iteration
  | report (ret : List Pair) (jvmQueue : List JvmEvent) (trash : List JvmEvent)
  | wait (jvmQueue : List JvmEvent) (trash : List JvmEvent)

/-- One iteration of the inner loop of `sweep` on the front event of a BPF queue. -/
def sweepEvent (o : Overflow) (now : UInt64) (bpfEvent : BpfEvent) (jvmQueue : List JvmEvent)
    (ret : List Pair) : Option Iteration := do
  if ← takeOver? o ret bpfEvent.timestamp then
    return .report ((bpfEvent, lastJvm ret) :: detach ret) jvmQueue []
  else
    let m ← findMatchingJvmEvent o bpfEvent.timestamp jvmQueue
    match m.found with
    | some jvmEvent => return .report ((bpfEvent, some jvmEvent) :: ret) m.left m.trash
    | none =>
      if !m.left.isEmpty then
        return .report ((bpfEvent, none) :: ret) m.left m.trash
      else if ← givesUp o now bpfEvent.timestamp then
        return .report ((bpfEvent, none) :: ret) m.left m.trash
      else
        return .wait m.left m.trash

/-- What the inner loop leaves: both queues, the result vector, and what it trashed. -/
structure Visit where
  bpf : List BpfEvent
  jvm : List JvmEvent
  ret : List Pair
  trash : List Trashed

/-- The inner loop of `sweep`: the visit of one thread. -/
def sweepThread (o : Overflow) (now : UInt64) :
    List BpfEvent → List JvmEvent → List Pair → Option Visit
  | [], jvmQueue, ret => some ⟨[], jvmQueue, ret, []⟩
  | bpfEvent :: bpfQueue, jvmQueue, ret => do
    match ← sweepEvent o now bpfEvent jvmQueue ret with
    | .report ret' jvmQueue' trash =>
      let v ← sweepThread o now bpfQueue jvmQueue' ret'
      return { v with trash := trash.map (⟨bpfEvent :: bpfQueue, ·⟩) ++ v.trash }
    | .wait jvmQueue' trash =>
      return ⟨bpfEvent :: bpfQueue, jvmQueue', ret, trash.map (⟨bpfEvent :: bpfQueue, ·⟩)⟩

end Jbm
