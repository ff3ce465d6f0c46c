import Jbm.Stream.Visit

/-!
# The tests of `sweep` on timestamps below 2^63

The code compares timestamps through `i64` casts and `u64` subtractions. On timestamps below
2^63, a clock that is not behind the BPF event, and a pair whose JVM event is not before its BPF
event, each test is the comparison of integers it is meant to be, in both builds.
-/

set_option autoImplicit false

namespace Jbm

open Base

/-- A timestamp whose signed reading is itself. -/
abbrev Small (x : UInt64) : Prop := x.toNat < 2 ^ 63

/-- The take-over test: `ts` lies strictly between the two events of the pair. -/
theorem takesOver_eq (o : Overflow) {b : BpfEvent} {j : JvmEvent} {ts : UInt64}
    (hj : Small j.timestamp) (hts : Small ts) (hle : b.timestamp ≤ j.timestamp) :
    takesOver o b j ts = some (decide (b.timestamp < ts ∧ ts < j.timestamp)) := by
  have hle' := UInt64.le_iff_toNat_le.mp hle
  have hsub : (j.timestamp - b.timestamp).toNat = j.timestamp.toNat - b.timestamp.toNat :=
    UInt64.toNat_sub_of_le _ _ hle
  have hdist : signed (j.timestamp - b.timestamp) = (j.timestamp.toNat : Int) - b.timestamp.toNat := by
    rw [signed_of_lt (by omega), hsub]
    omega
  simp only [takesOver, subI64_signed o hj hts, subU64_of_le o hle, Option.bind_eq_bind,
    Option.bind_some, hdist, UInt64.lt_iff_toNat_lt]
  split
  · next hpos =>
    simp only [Option.pure_def, Option.some.injEq, decide_eq_decide]
    omega
  · next hpos =>
    simp only [Option.pure_def, Option.some.injEq]
    symm
    rw [decide_eq_false_iff_not]
    omega

/-- A JVM event before the BPF event is trashed. -/
theorem find_cons_before (o : Overflow) {ts : UInt64} {j : JvmEvent} (q : List JvmEvent)
    (hj : Small j.timestamp) (hts : Small ts) (h : j.timestamp < ts) :
    findMatchingJvmEvent o ts (j :: q) =
      (findMatchingJvmEvent o ts q).map fun m => { m with trash := j :: m.trash } := by
  have hlt := UInt64.lt_iff_toNat_lt.mp h
  simp only [findMatchingJvmEvent, subI64_signed o hj hts, Option.bind_eq_bind, Option.bind_some]
  rw [if_pos (by omega)]
  cases findMatchingJvmEvent o ts q <;> rfl

/-- A JVM event inside the matching window is popped. -/
theorem find_cons_near (o : Overflow) {ts : UInt64} {j : JvmEvent} (q : List JvmEvent)
    (hj : Small j.timestamp) (hts : Small ts) (hle : ts ≤ j.timestamp)
    (hnear : j.timestamp.toNat < ts.toNat + 1000) :
    findMatchingJvmEvent o ts (j :: q) = some ⟨some j, q, []⟩ := by
  have hle' := UInt64.le_iff_toNat_le.mp hle
  simp only [findMatchingJvmEvent, subI64_signed o hj hts, Option.bind_eq_bind, Option.bind_some,
    threshold_asMillis]
  rw [if_neg (by omega), if_pos (by omega)]
  rfl

/-- A JVM event behind the matching window stays where it is. -/
theorem find_cons_far (o : Overflow) {ts : UInt64} {j : JvmEvent} (q : List JvmEvent)
    (hj : Small j.timestamp) (hts : Small ts) (hfar : ts.toNat + 1000 ≤ j.timestamp.toNat) :
    findMatchingJvmEvent o ts (j :: q) = some ⟨none, j :: q, []⟩ := by
  simp only [findMatchingJvmEvent, subI64_signed o hj hts, Option.bind_eq_bind, Option.bind_some,
    threshold_asMillis]
  rw [if_neg (by omega), if_neg (by omega)]
  rfl

/-- The give-up test: the event is at least 30 s old. -/
theorem givesUp_eq (o : Overflow) {now ts : UInt64} (h : ts ≤ now) :
    givesUp o now ts = some (decide (ts.toNat + 30000 ≤ now.toNat)) := by
  have hle := UInt64.le_iff_toNat_le.mp h
  simp only [givesUp, subU64_of_le o h, giveup_asMillis, Option.bind_eq_bind, Option.bind_some,
    UInt64.toNat_sub_of_le _ _ h, Option.pure_def, Option.some.injEq, decide_eq_decide]
  omega

end Jbm
