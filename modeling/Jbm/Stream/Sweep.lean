import Jbm.Base.Exec
import Jbm.Base.Filing
import Jbm.Stream.Visit

/-!
# `EventStream::sweep`

The outer loop: it visits the threads that have BPF events in the order in which the map's keys
come out, which the caller passes as `order` because a hash map promises none. Both maps file an
event under the event's own thread id (`Base.Filing`), and a visit leaves a suffix of each queue,
so both facts survive every sweep by construction.
-/

set_option autoImplicit false

namespace Jbm

open Base

/-- `EventStream`, less the two symbol tables that only `add_bpf_event` reads. The `usize` of
`event_count` has 64 bits. -/
structure EventStream where
  bpfEvents : Filing BpfEvent.tid
  eventCount : UInt64
  jvmEvents : Filing JvmEvent.tid

/-- `EventStream::new`. -/
def EventStream.new : EventStream := ⟨.empty, 0, .empty⟩

/-- The state of the outer loop: the two maps, the result vector newest first, and what was
trashed so far. -/
structure SweepLoop where
  bpfEvents : Filing BpfEvent.tid
  jvmEvents : Filing JvmEvent.tid
  ret : List Pair
  trash : List Trashed

/-- One iteration of the outer loop: the visit of `tid`, and the removal of each of its two
entries that ran empty. A missing BPF queue is the `expect("bpf queue present")` panic. -/
def sweepTid (o : Overflow) (now : UInt64) (s : SweepLoop) (tid : UInt32) : Option SweepLoop :=
  if s.bpfEvents.queue tid = [] then none
  else
    match h : sweepThread o now (s.bpfEvents.queue tid) (s.jvmEvents.queue tid) s.ret with
    | none => none
    | some v =>
      some
        { bpfEvents := s.bpfEvents.settle tid v.bpf (visited_of_sweepThread h).bpf_suffix
          jvmEvents := s.jvmEvents.settle tid v.jvm (visited_of_sweepThread h).jvm_suffix
          ret := v.ret
          trash := s.trash ++ v.trash }

/-- What a sweep answers: the pairs in the order they were reported, what it trashed, and the
stream it leaves. -/
structure Swept where
  returned : List Pair
  trash : List Trashed
  stream : EventStream

/-- `EventStream::sweep` at the wall-clock reading `now`, its keys coming out in `order`. -/
def EventStream.sweep (o : Overflow) (now : UInt64) (order : List UInt32) (s : EventStream) :
    Option Swept :=
  (exec (sweepTid o now) ⟨s.bpfEvents, s.jvmEvents, [], []⟩ order).map fun l =>
    ⟨l.ret.reverse, l.trash, ⟨l.bpfEvents, s.eventCount, l.jvmEvents⟩⟩

/-- An iteration of the outer loop changes the queues of its own thread as the visit leaves
them, and no other queue. -/
structure SweptTid (o : Overflow) (now : UInt64) (s : SweepLoop) (tid : UInt32)
    (s' : SweepLoop) : Prop where
  visit : ∃ v, sweepThread o now (s.bpfEvents.queue tid) (s.jvmEvents.queue tid) s.ret = some v ∧
    s'.bpfEvents.queue tid = v.bpf ∧ s'.jvmEvents.queue tid = v.jvm ∧ s'.ret = v.ret ∧
    s'.trash = s.trash ++ v.trash
  bpf_other : ∀ t, t ≠ tid → s'.bpfEvents.queue t = s.bpfEvents.queue t
  jvm_other : ∀ t, t ≠ tid → s'.jvmEvents.queue t = s.jvmEvents.queue t

theorem sweptTid_of_sweepTid {o : Overflow} {now : UInt64} {s s' : SweepLoop} {tid : UInt32}
    (h : sweepTid o now s tid = some s') : SweptTid o now s tid s' := by
  unfold sweepTid at h
  split at h
  · cases h
  · split at h
    · cases h
    · next v hv =>
      cases h
      have hbpf := (visited_of_sweepThread hv).bpf_suffix
      have hjvm := (visited_of_sweepThread hv).jvm_suffix
      refine ⟨⟨v, hv, ?_, ?_, rfl, rfl⟩, fun t ht => ?_, fun t ht => ?_⟩
      · exact Filing.queue_settle_self _ _ _ hbpf
      · exact Filing.queue_settle_self _ _ _ hjvm
      · exact Filing.queue_settle_of_ne _ _ hbpf ht
      · exact Filing.queue_settle_of_ne _ _ hjvm ht

/-- The threads still to be visited keep their BPF events. -/
theorem SweptTid.unvisited {o : Overflow} {now : UInt64} {s s' : SweepLoop} {tid : UInt32}
    {order : List UInt32} (h : SweptTid o now s tid s') (htid : tid ∉ order)
    (hq : ∀ t ∈ tid :: order, s.bpfEvents.queue t ≠ []) :
    ∀ t ∈ order, s'.bpfEvents.queue t ≠ [] := by
  intro t ht
  rw [h.bpf_other t fun heq => htid (heq ▸ ht)]
  exact hq t (List.mem_cons_of_mem _ ht)

/-- The visit of a thread that has BPF events, run as an iteration of the outer loop. -/
theorem sweepTid_isSome {o : Overflow} {now : UInt64} {s : SweepLoop} {tid : UInt32} {v : Visit}
    (hq : s.bpfEvents.queue tid ≠ [])
    (hv : sweepThread o now (s.bpfEvents.queue tid) (s.jvmEvents.queue tid) s.ret = some v) :
    ∃ s', sweepTid o now s tid = some s' := by
  unfold sweepTid
  rw [if_neg hq]
  split
  · next h => rw [hv] at h; cases h
  · exact ⟨_, rfl⟩

/-- A sweep is an execution of the outer loop. -/
theorem sweep_eq_some {o : Overflow} {now : UInt64} {order : List UInt32} {s : EventStream}
    {out : Swept} : s.sweep o now order = some out ↔
      ∃ l, exec (sweepTid o now) ⟨s.bpfEvents, s.jvmEvents, [], []⟩ order = some l ∧
        out = ⟨l.ret.reverse, l.trash, ⟨l.bpfEvents, s.eventCount, l.jvmEvents⟩⟩ := by
  unfold EventStream.sweep
  rw [Option.map_eq_some_iff]
  exact exists_congr fun l => and_congr_right fun _ => eq_comm

/-- A sweep of a stream that has BPF events of one thread only is one visit. -/
theorem sweep_single {o : Overflow} {now : UInt64} {order : List UInt32} {s : EventStream}
    {tid : UInt32} {v : Visit} (only : ∀ t, t ≠ tid → s.bpfEvents.queue t = [])
    (hv : s.bpfEvents.Visits order)
    (hvisit : sweepThread o now (s.bpfEvents.queue tid) (s.jvmEvents.queue tid) [] = some v) :
    ∃ out, s.sweep o now order = some out ∧ out.returned = v.ret.reverse ∧ out.trash = v.trash ∧
      (∀ t, out.stream.bpfEvents.queue t = if t = tid then v.bpf else []) ∧
      ∀ t, out.stream.jvmEvents.queue t = if t = tid then v.jvm else s.jvmEvents.queue t := by
  rcases hv.single only with ⟨hq, rfl⟩ | ⟨hq, rfl⟩
  · -- nothing to visit: the visit of an empty queue changes nothing either
    rw [hq] at hvisit
    cases hvisit
    refine ⟨_, rfl, rfl, rfl, fun t => ?_, fun t => ?_⟩
    · by_cases ht : t = tid
      · rw [if_pos ht, ht]; exact hq
      · rw [if_neg ht]; exact only t ht
    · by_cases ht : t = tid
      · rw [if_pos ht, ht]
      · rw [if_neg ht]
  · obtain ⟨l, hl⟩ := @sweepTid_isSome o now ⟨s.bpfEvents, s.jvmEvents, [], []⟩ tid v hq hvisit
    obtain ⟨⟨v', hv', hbpf, hjvm, hret, htrash⟩, hbpf_other, hjvm_other⟩ := sweptTid_of_sweepTid hl
    rw [hvisit, Option.some.injEq] at hv'
    subst hv'
    refine ⟨_, sweep_eq_some.mpr ⟨l, by simp [exec, hl], rfl⟩, ?_, ?_, fun t => ?_, fun t => ?_⟩
    · rw [hret]
    · simpa using htrash
    · by_cases ht : t = tid
      · rw [if_pos ht, ht]; exact hbpf
      · rw [if_neg ht]; exact (hbpf_other t ht).trans (only t ht)
    · by_cases ht : t = tid
      · rw [if_pos ht, ht]; exact hjvm
      · rw [if_neg ht]; exact hjvm_other t ht

/-- Without overflow checks every sweep returns. -/
theorem sweep_wrap {now : UInt64} {order : List UInt32} {s : EventStream}
    (hv : s.bpfEvents.Visits order) : ∃ out, s.sweep .wrap now order = some out := by
  have hloop : ∀ (order : List UInt32) (l : SweepLoop), order.Nodup →
      (∀ t ∈ order, l.bpfEvents.queue t ≠ []) →
      ∃ l', exec (sweepTid .wrap now) l order = some l' := by
    intro order
    induction order with
    | nil => exact fun l _ _ => ⟨l, rfl⟩
    | cons t order ih =>
      intro l hn hq
      obtain ⟨ht, hn⟩ := List.nodup_cons.mp hn
      obtain ⟨v, hv⟩ := sweepThread_wrap now (l.bpfEvents.queue t) (l.jvmEvents.queue t) l.ret
      obtain ⟨m, hm⟩ := sweepTid_isSome (hq t List.mem_cons_self) hv
      obtain ⟨l', hl'⟩ := ih m hn ((sweptTid_of_sweepTid hm).unvisited ht hq)
      exact ⟨l', exec_cons.mpr ⟨m, hm, hl'⟩⟩
  obtain ⟨l, hl⟩ := hloop order ⟨s.bpfEvents, s.jvmEvents, [], []⟩ hv.1
    (fun t ht => (hv.mem_iff t).mp ht)
  exact ⟨_, sweep_eq_some.mpr ⟨l, hl, rfl⟩⟩

end Jbm
