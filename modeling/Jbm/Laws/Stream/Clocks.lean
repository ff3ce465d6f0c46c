import Jbm.Ebpf.Kernel
import Jbm.Laws.Stream.Exact
import Jbm.Stream.History

/-!
# The timestamp of a wake

`compute_timestamp` places a monotonic instant on the wall clock: it reads the monotonic clock,
then the wall clock, cuts the wall time to milliseconds, goes back by the nanoseconds since the
instant, and cuts again. The first cut makes the result early, by less than 1 ms beyond the second
cut; the time between the two reads makes it late.

`not_late_iff` gives the exact condition under which the result is not later than the instant
itself, and with it no JVM sample taken after the wake is trashed as older than it. `not_early` is
the other side: a block of at least 1 ms outweighs the early cut, so no sample from before the
block is newer than the result. The wall clock is the monotonic clock plus a fixed `δ`; wall times
are integers in nanoseconds, and a monotonic instant `t` has the wall time `t + δ`.
-/

set_option autoImplicit false

namespace Jbm

open Base

/-- The wall time of a monotonic instant. -/
def wallTime (δ : Int) (ktime : UInt64) : Int := ktime.toNat + δ

/-- A wall time cut to milliseconds. -/
def toMillis (wall : Int) : Int := wall / 1000000

/-- The readings of the two clocks in `compute_timestamp`: the wall clock is read `delay`
nanoseconds after the monotonic clock, and the instant in question is not after that. -/
structure ClockReads (δ : Int) (delay : Nat) (nowKtime now bpfKtime : UInt64) : Prop where
  past : bpfKtime ≤ nowKtime
  wall : (now.toNat : Int) = toMillis (wallTime δ nowKtime + delay)

/-- A JVM sample taken at a wall time. -/
def TakenAt (j : JvmEvent) (wall : Int) : Prop := (j.timestamp.toNat : Int) = toMillis wall

instance (j : JvmEvent) (wall : Int) : Decidable (TakenAt j wall) :=
  inferInstanceAs (Decidable (_ = _))

/-- `compute_timestamp`, when its subtractions do not underflow. -/
theorem computeTimestamp_eq (o : Overflow) {nowKtime now bpfKtime : UInt64}
    (hpast : bpfKtime ≤ nowKtime)
    (hoff : nowKtime.toNat - bpfKtime.toNat ≤ now.toNat * 1000000) :
    ∃ ts, computeTimestamp o nowKtime now bpfKtime = some ts ∧
      ts.toNat = (now.toNat * 1000000 - (nowKtime.toNat - bpfKtime.toNat)) / 1000000 := by
  have hsub := UInt64.toNat_sub_of_le _ _ hpast
  have hnow := now.toNat_lt
  have hle : (Duration.fromNanos (nowKtime - bpfKtime)).nanos ≤ (Duration.fromMillis now).nanos := by
    show (nowKtime - bpfKtime).toNat ≤ now.toNat * 1000000
    rw [hsub]
    exact hoff
  refine ⟨UInt64.ofNat
    ((now.toNat * 1000000 - (nowKtime - bpfKtime).toNat) / 1000000), ?_, ?_⟩
  · simp only [computeTimestamp, subU64_of_le o hpast, Option.bind_eq_bind, Option.bind_some,
      Duration.sub, if_pos hle]
    rfl
  · rw [hsub, UInt64.toNat_ofNat_of_lt']
    show _ < 2 ^ 64
    omega

/-! ## Not late -/

/-- The timestamp of a wake is not later than the wake, and no JVM sample taken at or after it is
older than the timestamp, or trashed as if it were. -/
structure NotLate (o : Overflow) (δ : Int) (nowKtime now bpfKtime : UInt64) : Prop where
  bound : ∃ ts, computeTimestamp o nowKtime now bpfKtime = some ts ∧
    (ts.toNat : Int) ≤ toMillis (wallTime δ bpfKtime)
  kept : ∀ ts, computeTimestamp o nowKtime now bpfKtime = some ts →
    ∀ wall j, wallTime δ bpfKtime ≤ wall → TakenAt j wall → j.timestamp.toNat < 2 ^ 63 →
      ts ≤ j.timestamp ∧ ∀ q m, findMatchingJvmEvent o ts q = some m → j ∉ m.trash

/-- A JVM event that is not older than the timestamp is not trashed. -/
theorem not_trashed {o : Overflow} {ts : UInt64} {q : List JvmEvent} {m : Matching}
    {j : JvmEvent} (hj : Small j.timestamp) (hle : ts ≤ j.timestamp)
    (hm : findMatchingJvmEvent o ts q = some m) : j ∉ m.trash := by
  intro hmem
  obtain ⟨d, hd, hneg⟩ := (find_spec hm).trashed j hmem
  have hle := UInt64.le_iff_toNat_le.mp hle
  have hts : Small ts := Nat.lt_of_le_of_lt hle hj
  rw [tsDiff, subI64_signed o hj hts, Option.some.injEq] at hd
  omega

/-- **The timestamp of a wake is not late exactly when** the wake's place within its wall
millisecond plus the time between the two reads is less than 1 ms plus what the time from the wake
to the first read lacks of whole milliseconds. -/
theorem not_late_iff (o : Overflow) {δ : Int} {delay : Nat} {nowKtime now bpfKtime : UInt64}
    (h : ClockReads δ delay nowKtime now bpfKtime)
    (hoff : nowKtime.toNat - bpfKtime.toNat ≤ now.toNat * 1000000) :
    NotLate o δ nowKtime now bpfKtime ↔
      wallTime δ bpfKtime % 1000000 + delay <
        1000000 + ((bpfKtime.toNat : Int) - nowKtime.toNat) % 1000000 := by
  obtain ⟨ts, hts, hval⟩ := computeTimestamp_eq o h.past hoff
  have hpast := UInt64.le_iff_toNat_le.mp h.past
  have hwall := h.wall
  unfold wallTime toMillis at hwall
  have hbound : (ts.toNat : Int) ≤ toMillis (wallTime δ bpfKtime) ↔
      wallTime δ bpfKtime % 1000000 + delay <
        1000000 + ((bpfKtime.toNat : Int) - nowKtime.toNat) % 1000000 := by
    unfold wallTime toMillis
    omega
  rw [← hbound]
  constructor
  · rintro ⟨⟨ts', hts', hle⟩, _⟩
    rw [hts, Option.some.injEq] at hts'
    exact hts' ▸ hle
  · intro hle
    refine ⟨⟨ts, hts, hle⟩, fun ts' hts' wall j hafter htaken hj => ?_⟩
    rw [hts, Option.some.injEq] at hts'
    subst hts'
    have hstamp : ts ≤ j.timestamp := by
      rw [UInt64.le_iff_toNat_le]
      unfold TakenAt toMillis at htaken
      unfold toMillis at hle
      omega
    exact ⟨hstamp, fun q m hm => not_trashed hj hstamp hm⟩

/-- A wake 1 ms before both reads. -/
theorem not_late_iff_sampleReads :
    NotLate .abort 0 6000000 6 5000000 ↔
      wallTime 0 5000000 % 1000000 + (0 : Nat) <
        1000000 + (((5000000 : UInt64).toNat : Int) - (6000000 : UInt64).toNat) % 1000000 :=
  not_late_iff .abort ⟨by decide, by decide⟩ (by decide)

/-- A wake 1 ns before a millisecond is over, the wall clock being read when it is: the result is
late by 1 ms, and a JVM sample taken at the wake is trashed. -/
theorem late_across_millisecond :
    ClockReads 0 1 5999999 6 5999999 ∧ ¬ NotLate .abort 0 5999999 6 5999999 ∧
      TakenAt (sampleJvm 7 5) (wallTime 0 5999999) ∧
      ∃ m, findMatchingJvmEvent .abort 6 [sampleJvm 7 5] = some m ∧
        m.trash = [sampleJvm 7 5] := by
  refine ⟨⟨by decide, by decide⟩, ?_, by decide, _, rfl, rfl⟩
  rintro ⟨⟨ts, hts, hle⟩, _⟩
  have hsix : computeTimestamp .abort 5999999 6 5999999 = some 6 := by decide
  rw [hsix, Option.some.injEq] at hts
  subst hts
  exact absurd hle (by decide)

/-! ## Not early -/

/-- A JVM event that is not newer than the timestamp is not taken over for it. -/
theorem not_takesOver {o : Overflow} {ts : UInt64} {j : JvmEvent} (hts : Small ts)
    (hle : j.timestamp ≤ ts) (lastBpf : BpfEvent) : takesOver o lastBpf j ts = some false := by
  have hle := UInt64.le_iff_toNat_le.mp hle
  have hj : Small j.timestamp := Nat.lt_of_le_of_lt hle hts
  simp only [takesOver, subI64_signed o hj hts, Option.bind_eq_bind, Option.bind_some]
  rw [if_neg (by omega)]
  rfl

/-- A JVM event that is not newer than the timestamp matches it at distance zero only. -/
theorem found_at_zero {o : Overflow} {ts : UInt64} {q : List JvmEvent} {m : Matching}
    {j : JvmEvent} (hts : Small ts) (hle : j.timestamp ≤ ts)
    (hm : findMatchingJvmEvent o ts q = some m) (hf : m.found = some j) : j.timestamp = ts := by
  obtain ⟨d, hd, hpos, _⟩ := (find_spec hm).found j hf
  have hle := UInt64.le_iff_toNat_le.mp hle
  have hj : Small j.timestamp := Nat.lt_of_le_of_lt hle hts
  rw [tsDiff, subI64_signed o hj hts, Option.some.injEq] at hd
  apply UInt64.toNat_inj.mp
  omega

/-- **No JVM sample from before a block is newer than the block's timestamp**, when the block
passed the filter of `try_jbm` at a minimum of at least 1 ms: a wall time up to the block's start
is not later in milliseconds, and a sample taken then is not taken over for the block, and matches
it at distance zero only. -/
theorem not_early {o : Overflow} {config : Config} {prev current : TaskStruct} {h : Helpers}
    {m : StartTimes} {event : BlockEvent} {δ : Int} {delay : Nat} {nowKtime now : UInt64}
    (hmin : 1000 ≤ config.minBlockUs)
    (hevent : event ∈ (tryJbm config prev current h m).output)
    (hreads : ClockReads δ delay nowKtime now event.tEnd) {wall : Nat}
    (hwall : (wall : Int) ≤ wallTime δ event.tStart) :
    ∃ ts, computeTimestamp o nowKtime now event.tEnd = some ts ∧ toMillis wall ≤ ts.toNat ∧
      (now.toNat < 2 ^ 63 → ∀ j, TakenAt j wall →
        (∀ lastBpf, takesOver o lastBpf j ts = some false) ∧
        ∀ q m, findMatchingJvmEvent o ts q = some m → m.found = some j → j.timestamp = ts) := by
  obtain ⟨_, _, tStart, _, _, hq, hblock⟩ := (probes_tryJbm config prev current h m).output hevent
  have hordered := UInt64.le_iff_toNat_le.mp hq.ordered
  -- the block takes at least 1 ms
  have hlong : tStart.toNat + 1000000 ≤ h.tEnd.toNat := by
    have hle := UInt64.le_iff_toNat_le.mp (UInt64.le_trans hmin hq.long)
    rw [offtime_toNat hq.ordered] at hle
    have hmin' : (1000 : UInt64).toNat = 1000 := rfl
    omega
  have hpast := UInt64.le_iff_toNat_le.mp hreads.past
  have hnow := hreads.wall
  rw [hblock.tEnd] at hpast
  unfold wallTime toMillis at hnow
  unfold wallTime at hwall
  rw [hblock.tStart] at hwall
  obtain ⟨ts, hts, hval⟩ := computeTimestamp_eq o hreads.past
    (show nowKtime.toNat - event.tEnd.toNat ≤ now.toNat * 1000000 by
      rw [hblock.tEnd]
      omega)
  rw [hblock.tEnd] at hval
  have hle : toMillis wall ≤ ts.toNat := by
    unfold toMillis
    omega
  refine ⟨ts, hts, hle, fun hsmall j htaken => ?_⟩
  have hstamp : j.timestamp ≤ ts := by
    rw [UInt64.le_iff_toNat_le]
    unfold TakenAt at htaken
    omega
  have hts_small : Small ts := by
    show ts.toNat < 2 ^ 63
    omega
  exact ⟨not_takesOver hts_small hstamp, fun q m hm hf => found_at_zero hts_small hstamp hm hf⟩

/-- The stamp of thread 7, which left the CPU at 1 ms. -/
def sampleStamped : StartTimes := (BoundedMap.empty.insert 7 1000000).get (by decide)

/-- The block it ends at 5 ms. -/
def sampleBlocked : BlockEvent :=
  { sampleBlock 7 5000000 with offtime := 4000, tStart := 1000000 }

/-- The event is read at 6 ms; a sample was taken at 0.9 ms. -/
theorem not_early_sampleBlocked :
    ∃ ts, computeTimestamp .abort 6000000 6 5000000 = some ts ∧
      toMillis (900000 : Nat) ≤ ts.toNat ∧
      ((6 : UInt64).toNat < 2 ^ 63 → ∀ j, TakenAt j (900000 : Nat) →
        (∀ lastBpf, takesOver .abort lastBpf j ts = some false) ∧
        ∀ q m, findMatchingJvmEvent .abort ts q = some m → m.found = some j →
          j.timestamp = ts) := by
  have hevent : sampleBlocked ∈
      (tryJbm sampleConfig sampleIdle sampleThread (sampleHelpers 5000000) sampleStamped).output := by
    decide
  have hreads : ClockReads 0 0 6000000 6 5000000 := ⟨by decide, by decide⟩
  exact not_early (by decide) hevent hreads (by decide)

end Jbm
