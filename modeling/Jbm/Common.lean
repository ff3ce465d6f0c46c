import Mathlib.Data.Nat.Notation

/-!
# The records both programs share

`jbm-common`: the configuration the control program writes into the eBPF object, and the event
the eBPF program sends back.
-/

set_option autoImplicit false

namespace Jbm

/-- `STACK_STORAGE_SIZE`. -/
def stackStorageSize : Nat := 10240

/-- `TASK_COMM_LEN`. -/
def taskCommLen : Nat := 16

/-- `Config`. -/
structure Config where
  targetTgid : UInt32
  minBlockUs : UInt64
  maxBlockUs : UInt64
  stackStorageSize : UInt32
  deriving DecidableEq, Repr

/-- `BlockEvent`: one blocking interval as the eBPF program reports it. `pid` is the kernel's
word for a thread id, `tgid` its word for a process id; `tStart` and `tEnd` are monotonic
nanoseconds, `offtime` microseconds. -/
structure BlockEvent where
  pid : UInt32
  tgid : UInt32
  userStackId : Int64
  kernelStackId : Int64
  name : Vector UInt8 taskCommLen
  offtime : UInt64
  tStart : UInt64
  tEnd : UInt64
  deriving DecidableEq

end Jbm
