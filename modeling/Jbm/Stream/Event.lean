import Jbm.Common

/-!
# Events of the two sources

What the control program holds for one BPF event and for one JVM event, and the durations it
computes with.
-/

set_option autoImplicit false

namespace Jbm

/-- `std::time::Duration`, counted in nanoseconds. -/
structure Duration where
  nanos : Nat
  deriving DecidableEq, Repr

namespace Duration

def fromSecs (s : UInt64) : Duration := ⟨s.toNat * 1000000000⟩
def fromMillis (ms : UInt64) : Duration := ⟨ms.toNat * 1000000⟩
def fromMicros (us : UInt64) : Duration := ⟨us.toNat * 1000⟩
def fromNanos (ns : UInt64) : Duration := ⟨ns.toNat⟩
def asMillis (d : Duration) : Nat := d.nanos / 1000000
def asMicros (d : Duration) : Nat := d.nanos / 1000

/-- `d - e` on durations panics on underflow in every build. -/
def sub (d e : Duration) : Option Duration :=
  if e.nanos ≤ d.nanos then some ⟨d.nanos - e.nanos⟩ else none

end Duration

/-- `EVENT_MATCH_TIME_THRESHOLD_TIME`. -/
def eventMatchTimeThresholdTime : Duration := .fromSecs 1

/-- `EVENT_MATCH_GIVEUP_TIME`. -/
def eventMatchGiveupTime : Duration := .fromSecs 30

theorem threshold_asMillis : eventMatchTimeThresholdTime.asMillis = 1000 := by decide

theorem giveup_asMillis : eventMatchGiveupTime.asMillis = 30000 := by decide

/-- `JvmFrame`. -/
structure JvmFrame where
  bci : Int64
  methodId : UInt64
  symbol : String
  deriving DecidableEq

/-- `JvmEvent`: one call trace sampled in the JVM, stamped with wall time in ms. -/
structure JvmEvent where
  timestamp : UInt64
  tid : UInt32
  frames : List JvmFrame
  deriving DecidableEq

/-- `BpfEvent`: one blocking interval, stamped with the wall time of its end in ms. -/
structure BpfEvent where
  timestamp : UInt64
  pid : UInt32
  tid : UInt32
  comm : String
  duration : Duration
  stacktrace : List (UInt64 × String)
  deriving DecidableEq

/-- What `sweep` reports for one BPF event: the event and the JVM event matched to it. -/
abbrev Pair := BpfEvent × Option JvmEvent

end Jbm
