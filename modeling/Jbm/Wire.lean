import Jbm.Base.Layout
import Jbm.Common

/-!
# The shared records as bytes

Both records are `repr(C)`. The control program writes a `Config` over the symbol `CONFIG` of the
eBPF object, and `process` copies a `BlockEvent` out of the start of each sample it reads: a
sample is at least as long as the record, and the perf buffer pads it.

`BlockEvent` has no padding, so a sample is read as one event exactly when it starts with that
event's bytes (`readSample_eq_some_iff`). `Config` has padding behind its first and its last field,
which the eBPF program never looks at (`loadConfig_eq_some_iff`).
-/

set_option autoImplicit false

namespace Jbm

open Base

/-- `Config` in memory. -/
def configLayout : Layout Config :=
  (((((Layout.unit.field .u32).field .u64).field .u64).field .u32).close).map
    { toFun := fun (((((), targetTgid), minBlockUs), maxBlockUs), stackStorageSize) =>
        { targetTgid, minBlockUs, maxBlockUs, stackStorageSize }
      invFun := fun c =>
        (((((), c.targetTgid), c.minBlockUs), c.maxBlockUs), c.stackStorageSize)
      left_inv := fun _ => rfl
      right_inv := fun _ => rfl }

/-- `BlockEvent` in memory. -/
def blockEventLayout : Layout BlockEvent :=
  (((((((((Layout.unit.field .u32).field .u32).field .i64).field .i64).field
      (.bytes taskCommLen)).field .u64).field .u64).field .u64).close).map
    { toFun := fun
        (((((((((), pid), tgid), userStackId), kernelStackId), name), offtime), tStart), tEnd) =>
        { pid, tgid, userStackId, kernelStackId, name, offtime, tStart, tEnd }
      invFun := fun e =>
        (((((((((), e.pid), e.tgid), e.userStackId), e.kernelStackId), e.name), e.offtime),
          e.tStart), e.tEnd)
      left_inv := fun _ => rfl
      right_inv := fun _ => rfl }

theorem configLayout_size : configLayout.size = 32 := by decide

theorem blockEventLayout_size : blockEventLayout.size = 64 := by decide

theorem blockEventLayout_packed : blockEventLayout.Packed := by
  have h : ∀ i < 64, blockEventLayout.owns i = true := by decide
  intro i hi
  rw [blockEventLayout_size] at hi
  exact h i hi

/-- The bytes of a `Config` that are no padding. -/
theorem configLayout_owns {i : Nat} :
    configLayout.owns i = true ↔ i < 4 ∨ 8 ≤ i ∧ i < 28 := by
  by_cases hi : i < 32
  · have h : ∀ i < 32, configLayout.owns i = true ↔ i < 4 ∨ 8 ≤ i ∧ i < 28 := by decide
    exact h i hi
  · constructor
    · exact fun h => absurd (configLayout_size ▸ configLayout.lt_size h) hi
    · omega

/-! ## The configuration -/

/-- `set_global("CONFIG", config)`: the bytes of `config`, padding included. -/
def storeConfig (config : Config) (padding : Memory) : List UInt8 :=
  configLayout.toBytes config padding

/-- `read_volatile(&CONFIG)` on the bytes of the symbol. -/
def loadConfig (bs : List UInt8) : Option Config := configLayout.ofBytes bs

/-- **The eBPF program runs under the configuration it was given**: it reads `config` exactly when
the bytes of the symbol outside the padding, 4 to 7 and 28 to 31, are those `set_global` writes for
`config`, whatever the padding holds on either side. -/
theorem loadConfig_eq_some_iff (bs : List UInt8) (config : Config) (padding : Memory) :
    loadConfig bs = some config ↔
      32 ≤ bs.length ∧ ∀ i, i < 4 ∨ 8 ≤ i ∧ i < 28 →
        bs[i]? = (storeConfig config padding)[i]? := by
  rw [loadConfig, configLayout.ofBytes_eq_some_iff bs config padding, configLayout_size]
  refine and_congr_right fun hlen => forall_congr' fun i => ?_
  rw [configLayout_owns]
  refine imp_congr_right fun hi => ?_
  have hin : i < bs.length := by omega
  have hstore : (storeConfig config padding)[i]? = some (configLayout.write config padding i) := by
    have hi' : i < configLayout.size := by rw [configLayout_size]; omega
    simp [storeConfig, Layout.toBytes, Memory.first, hi']
  rw [Memory.ofList_of_lt hin, hstore, List.getElem?_eq_getElem hin, Option.some.injEq]

/-! ## The samples -/

/-- The sample that `EVENTS.output(&ctx, &event, 0)` leaves in a perf buffer: the bytes of the
event, and what the buffer pads it with. -/
def sampleOf (event : BlockEvent) (padding : List UInt8) : List UInt8 :=
  blockEventLayout.toBytes event (fun _ => 0) ++ padding

/-- The copy of a `BlockEvent` out of a sample; `none` is a copy past the end of the sample. -/
def readSample (buf : List UInt8) : Option BlockEvent := blockEventLayout.ofBytes buf

@[simp] theorem readSample_sampleOf (event : BlockEvent) (padding : List UInt8) :
    readSample (sampleOf event padding) = some event :=
  blockEventLayout.ofBytes_toBytes_append event (fun _ => 0) padding

/-- A sample that is read as an event is one of that event. -/
theorem eq_sampleOf_of_readSample {buf : List UInt8} {event : BlockEvent}
    (h : readSample buf = some event) : ∃ padding, buf = sampleOf event padding := by
  obtain ⟨padding, hbuf⟩ := (blockEventLayout_packed.ofBytes_eq_some_iff buf event _).mp h
  exact ⟨padding, hbuf.symm⟩

/-- **A sample says one event**: `process` reads a sample as `event` exactly when the sample is the
one the eBPF program outputs for `event`, however it is padded. -/
theorem readSample_eq_some_iff (buf : List UInt8) (event : BlockEvent) :
    readSample buf = some event ↔ ∃ padding, buf = sampleOf event padding := by
  constructor
  · exact eq_sampleOf_of_readSample
  · rintro ⟨padding, rfl⟩
    exact readSample_sampleOf event padding

/-- The last bytes of a sample are the end of the interval. -/
example : (sampleOf
    { pid := 7, tgid := 100, userStackId := -1, kernelStackId := 0,
      name := Vector.replicate taskCommLen 0, offtime := 2, tStart := 1, tEnd := 0x0102 } []).drop
      48 = [1, 0, 0, 0, 0, 0, 0, 0, 2, 1, 0, 0, 0, 0, 0, 0] := by decide

end Jbm
