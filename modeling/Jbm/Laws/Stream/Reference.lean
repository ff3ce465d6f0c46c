import Jbm.Laws.Stream.Exact
import Jbm.Laws.Stream.LookAhead
import Jbm.Stream.History

/-!
# The sweep of one thread, in plain arithmetic

`reference` matches the two queues of one thread and never revises a pair: it drops the JVM events
older than the front BPF event, and decides about the next one by its distance and by the next
queued BPF event. Timestamps are compared as the numbers they are; nothing overflows, and nothing
is matched first and moved later.

`sweep_eq_reference` is the connection: where one thread has BPF events, the timestamps are below
2^63 and the clock is not behind, a sweep returns what `reference` emits and leaves what
`reference` leaves, in both builds. `lookAhead` stands between the two, so that the repair of the
result vector (`sweepThread_eq_lookAhead`) and the arithmetic (`lookAhead_eq_reference`) are two
arguments and not one.
-/

set_option autoImplicit false

namespace Jbm

open Base

/-- Whether a next event is queued strictly between `b` and `j`. -/
def nextBetween (b : BpfEvent) (j : JvmEvent) : List BpfEvent → Bool
  | [] => false
  | next :: _ => decide (b.timestamp < next.timestamp ∧ next.timestamp < j.timestamp)

/-- The JVM events that are not older than `b`, from the first such on. -/
def upFrom (b : BpfEvent) (jvm : List JvmEvent) : List JvmEvent :=
  jvm.dropWhile fun j => j.timestamp < b.timestamp

/-- The matcher of one thread's queues. -/
def reference (now : UInt64) : List BpfEvent → List JvmEvent → Outcome
  | [], jvm => ⟨[], [], jvm⟩
  | b :: bpf, jvm =>
    match upFrom b jvm with
    | j :: left =>
      if j.timestamp.toNat - b.timestamp.toNat < 1000 then
        if nextBetween b j bpf then (reference now bpf (j :: left)).cons (b, none)
        else (reference now bpf left).cons (b, some j)
      else (reference now bpf (j :: left)).cons (b, none)
    | [] =>
      if 30000 ≤ now.toNat - b.timestamp.toNat then (reference now bpf []).cons (b, none)
      else ⟨[], b :: bpf, []⟩

/-! ## The events that are not older -/

theorem upFrom_suffix (b : BpfEvent) (jvm : List JvmEvent) : upFrom b jvm <:+ jvm :=
  List.dropWhile_suffix _

theorem upFrom_of_before {b : BpfEvent} {j : JvmEvent} (jvm : List JvmEvent)
    (h : j.timestamp < b.timestamp) : upFrom b (j :: jvm) = upFrom b jvm :=
  List.dropWhile_cons_of_pos (by simpa using h)

theorem upFrom_of_le {b : BpfEvent} {j : JvmEvent} (jvm : List JvmEvent)
    (h : b.timestamp ≤ j.timestamp) : upFrom b (j :: jvm) = j :: jvm :=
  List.dropWhile_cons_of_neg (by simpa using h)

/-- The first event that is left is not older than `b`. -/
theorem le_of_upFrom {b : BpfEvent} {j : JvmEvent} {jvm left : List JvmEvent}
    (h : upFrom b jvm = j :: left) : b.timestamp ≤ j.timestamp := by
  have hhead := List.head?_dropWhile_not (fun j : JvmEvent => decide (j.timestamp < b.timestamp)) jvm
  unfold upFrom at h
  rw [h] at hhead
  simpa using hhead

/-- The matching of `b`: the events older than it go, and of the others the first is popped when
it is less than 1000 ms later. -/
theorem find_eq_upFrom (o : Overflow) {b : BpfEvent} {jvm : List JvmEvent}
    (hb : Small b.timestamp) (hj : ∀ j ∈ jvm, Small j.timestamp) :
    ∃ trash, findMatchingJvmEvent o b.timestamp jvm = some
      (match upFrom b jvm with
      | j :: left =>
        if j.timestamp.toNat - b.timestamp.toNat < 1000 then ⟨some j, left, trash⟩
        else ⟨none, j :: left, trash⟩
      | [] => ⟨none, [], trash⟩) := by
  induction jvm with
  | nil => exact ⟨[], rfl⟩
  | cons j jvm ih =>
    have hsmall := hj j List.mem_cons_self
    by_cases hlt : j.timestamp < b.timestamp
    · obtain ⟨trash, hrest⟩ := ih fun j' hj' => hj j' (List.mem_cons_of_mem _ hj')
      refine ⟨j :: trash, ?_⟩
      rw [find_cons_before o jvm hsmall hb hlt, hrest, upFrom_of_before jvm hlt, Option.map_some]
      cases upFrom b jvm with
      | nil => rfl
      | cons j' left => by_cases hnear : j'.timestamp.toNat - b.timestamp.toNat < 1000 <;> simp [hnear]
    · have hle : b.timestamp ≤ j.timestamp := UInt64.not_lt.mp hlt
      have hle' := UInt64.le_iff_toNat_le.mp hle
      refine ⟨[], ?_⟩
      rw [upFrom_of_le jvm hle]
      by_cases hnear : j.timestamp.toNat - b.timestamp.toNat < 1000
      · simp only [if_pos hnear]
        exact find_cons_near o jvm hsmall hb hle (by omega)
      · simp only [if_neg hnear]
        exact find_cons_far o jvm hsmall hb (by omega)

/-! ## The look-ahead matcher computes it -/

/-- Whether the next event takes a match over is whether it lies between. -/
theorem nextTakes_eq_nextBetween (o : Overflow) {b : BpfEvent} {j : JvmEvent}
    {bpf : List BpfEvent} (hbpf : ∀ e ∈ bpf, Small e.timestamp) (hj : Small j.timestamp)
    (hle : b.timestamp ≤ j.timestamp) : nextTakes o b j bpf = some (nextBetween b j bpf) := by
  cases bpf with
  | nil => rfl
  | cons next bpf => exact takesOver_eq o hj (hbpf next List.mem_cons_self) hle

/-- **The arithmetic of a visit**: on timestamps below 2^63 and a clock that is not behind, the
look-ahead matcher is the reference. -/
theorem lookAhead_eq_reference (o : Overflow) {now : UInt64} {bpf : List BpfEvent}
    {jvm : List JvmEvent} (hbpf : ∀ e ∈ bpf, Small e.timestamp)
    (hjvm : ∀ j ∈ jvm, Small j.timestamp) (hclock : ∀ e ∈ bpf, e.timestamp ≤ now) :
    lookAhead o now bpf jvm = some (reference now bpf jvm) := by
  induction bpf generalizing jvm with
  | nil => rfl
  | cons b bpf ih =>
    have hrest : ∀ {jvm' : List JvmEvent}, jvm' <:+ jvm →
        lookAhead o now bpf jvm' = some (reference now bpf jvm') := fun hsuf =>
      ih (fun e he => hbpf e (List.mem_cons_of_mem _ he)) (fun j hj => hjvm j (hsuf.subset hj))
        fun e he => hclock e (List.mem_cons_of_mem _ he)
    have hsuf := upFrom_suffix b jvm
    obtain ⟨trash, hfind⟩ := find_eq_upFrom o (hbpf b List.mem_cons_self) hjvm
    unfold lookAhead reference
    rw [hfind]
    cases hup : upFrom b jvm with
    | nil =>
      have hage := givesUp_eq o (hclock b List.mem_cons_self)
      simp only [Option.bind_eq_bind, Option.bind_some, List.isEmpty_nil, Bool.not_true,
        Bool.false_eq_true, if_false, hage, decide_eq_true_eq]
      by_cases hold : 30000 ≤ now.toNat - b.timestamp.toNat
      · rw [if_pos hold, if_pos (by omega), hrest List.nil_suffix]
        rfl
      · rw [if_neg hold, if_neg (by omega)]
        rfl
    | cons j left =>
      rw [hup] at hsuf
      have hle := le_of_upFrom hup
      by_cases hnear : j.timestamp.toNat - b.timestamp.toNat < 1000
      · have hnext := nextTakes_eq_nextBetween o
          (fun e he => hbpf e (List.mem_cons_of_mem _ he))
          (hjvm j (hsuf.subset List.mem_cons_self)) hle
        simp only [if_pos hnear, Option.bind_eq_bind, Option.bind_some, hnext]
        cases nextBetween b j bpf with
        | true =>
          rw [if_pos rfl, if_pos rfl, hrest hsuf]
          rfl
        | false =>
          rw [if_neg Bool.false_ne_true, if_neg Bool.false_ne_true,
            hrest ((List.suffix_cons j left).trans hsuf)]
          rfl
      · simp only [if_neg hnear, Option.bind_eq_bind, Option.bind_some, List.isEmpty_cons,
          Bool.not_false, if_true, hrest hsuf]
        rfl

/-! ## The sweep -/

/-- **The visit of one thread is the reference**, when nothing was reported before it. -/
theorem sweepThread_eq_reference (o : Overflow) {now : UInt64} {bpf : List BpfEvent}
    {jvm : List JvmEvent} (hbpf : ∀ e ∈ bpf, Small e.timestamp)
    (hjvm : ∀ j ∈ jvm, Small j.timestamp) (hclock : ∀ e ∈ bpf, e.timestamp ≤ now) :
    ∃ v, sweepThread o now bpf jvm [] = some v ∧
      v.ret.reverse = (reference now bpf jvm).pairs ∧ v.bpf = (reference now bpf jvm).bpf ∧
      v.jvm = (reference now bpf jvm).jvm := by
  have hvisit := @sweepThread_eq_lookAhead o now bpf jvm [] (fun _ _ => rfl)
  rw [lookAhead_eq_reference o hbpf hjvm hclock, Option.map_some, Option.map_eq_some_iff] at hvisit
  obtain ⟨v, hv, hout⟩ := hvisit
  have hret : v.ret = (reference now bpf jvm).pairs.reverse ++ [] := congrArg Outcome.pairs hout
  refine ⟨v, hv, ?_, congrArg Outcome.bpf hout, congrArg Outcome.jvm hout⟩
  rw [hret, List.append_nil, List.reverse_reverse]

/-- **A sweep with BPF events of one thread is the reference**: what it returns, the queues it
leaves of that thread, and that it touches no other. -/
theorem sweep_eq_reference (o : Overflow) {now : UInt64} {order : List UInt32} {s : EventStream}
    {tid : UInt32} (only : ∀ t, t ≠ tid → s.bpfEvents.queue t = [])
    (hbpf : ∀ b ∈ s.bpfEvents.queue tid, b.timestamp.toNat < 2 ^ 63)
    (hjvm : ∀ j ∈ s.jvmEvents.queue tid, j.timestamp.toNat < 2 ^ 63)
    (hclock : ∀ b ∈ s.bpfEvents.queue tid, b.timestamp ≤ now)
    (hv : s.bpfEvents.Visits order) :
    let r := reference now (s.bpfEvents.queue tid) (s.jvmEvents.queue tid)
    ∃ out, s.sweep o now order = some out ∧ out.returned = r.pairs ∧
      (∀ t, out.stream.bpfEvents.queue t = if t = tid then r.bpf else []) ∧
      ∀ t, out.stream.jvmEvents.queue t = if t = tid then r.jvm else s.jvmEvents.queue t := by
  intro r
  obtain ⟨v, hvisit, hvret, hvbpf, hvjvm⟩ := sweepThread_eq_reference o hbpf hjvm hclock
  obtain ⟨out, hsweep, hret, _, hbpf', hjvm'⟩ := sweep_single only hv hvisit
  refine ⟨out, hsweep, hret.trans hvret, fun t => ?_, fun t => ?_⟩
  · rw [hbpf' t, hvbpf]
  · rw [hjvm' t, hvjvm]

/-- Two blocks of thread 7, stamped 10 and 20, and a sample of it stamped 25. -/
def sampleTwoBlocks : EventStream :=
  ⟨Filing.empty.pushAll [sampleBpf 7 10, sampleBpf 7 20], 2, Filing.empty.pushAll [sampleJvm 7 25]⟩

theorem sampleTwoBlocks_bpf (t : UInt32) : sampleTwoBlocks.bpfEvents.queue t =
    if t = 7 then [sampleBpf 7 10, sampleBpf 7 20] else [] := by
  have hqueue : sampleTwoBlocks.bpfEvents.queue t =
      [] ++ [sampleBpf 7 10, sampleBpf 7 20].filter (·.tid = t) := by
    rw [← Filing.queue_empty t]
    exact Filing.queue_pushAll _ _ t
  rw [hqueue]
  by_cases ht : t = 7
  · rw [ht]
    rfl
  · have hne : ¬ (7 : UInt32) = t := fun h => ht h.symm
    simp [sampleBpf, ht, hne]

theorem sweep_eq_reference_sampleTwoBlocks :
    ∃ out, sampleTwoBlocks.sweep .abort 30 [7] = some out ∧
      out.returned = [(sampleBpf 7 10, none), (sampleBpf 7 20, some (sampleJvm 7 25))] := by
  obtain ⟨out, hout, hret, _⟩ :=
    @sweep_eq_reference .abort 30 [7] sampleTwoBlocks 7
      (fun t ht => (sampleTwoBlocks_bpf t).trans (if_neg ht)) (by decide) (by decide) (by decide)
      (by decide)
  exact ⟨out, hout, hret.trans (by decide)⟩

end Jbm
