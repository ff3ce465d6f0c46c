import Jbm.Laws.Stream.Contest
import Jbm.Stream.Intake

/-!
# Batching

One history of a thread can reach the stream in many ways: any interleaving of its BPF events and
its JVM events, with sweeps in between. A `Batching` is one of them, with every event still
pending less than 30 s old at each sweep, and a last sweep after 30 s that gives nothing more to
wait for. Two batchings should report the same pairs.

They do so unless a sample of the history is contested (`agree_iff`). A sweep repairs its own last
pair when the next event has the better claim to the sample, but that pair is gone with the sweep:
`OnCourse` is the invariant that holds as long as no repair is due, and
`canMislead_of_overreaches` sweeps after every event to find the one sample that a later event
should have had.
-/

set_option autoImplicit false

namespace Jbm

open Base

/-- The events of one thread, in order of time, with timestamps below 2^63. -/
structure ThreadHistory (tid : UInt32) where
  bpf : List BpfEvent
  jvm : List JvmEvent
  bpf_ordered : BpfOrdered bpf
  jvm_ordered : JvmOrdered jvm
  bpf_thread : ∀ b ∈ bpf, b.tid = tid ∧ Small b.timestamp
  jvm_thread : ∀ j ∈ jvm, j.tid = tid ∧ Small j.timestamp

/-- A sweep is made while every pending event, of each thread that has any, is less than 30 s old;
an event stamped ahead of the clock has no age. -/
def Collected.SweptYoung (s : Collected) : Intake → Prop
  | .sweep now order => s.stream.bpfEvents.Visits order ∧
      ∀ t ∈ order, ∀ b ∈ s.stream.bpfEvents.queue t,
        b.timestamp ≤ now ∧ now.toNat < b.timestamp.toNat + 30000
  | _ => True

instance (s : Collected) (i : Intake) : Decidable (s.SweptYoung i) :=
  match i with
  | .sweep _ order =>
    @instDecidableAnd _ _ inferInstance (@List.decidableBAll _ _ (fun _ => inferInstance) order)
  | .bpf _ | .jvm _ => .isTrue trivial

/-- The pending events of every thread are young, whether it has any or not. -/
theorem Collected.SweptYoung.pending {s : Collected} {now : UInt64} {order : List UInt32}
    (hy : s.SweptYoung (.sweep now order)) (t : UInt32) :
    ∀ b ∈ s.stream.bpfEvents.queue t, b.timestamp ≤ now ∧ now.toNat < b.timestamp.toNat + 30000 := by
  intro b hb
  exact hy.2 t ((hy.1.mem_iff t).mpr (List.ne_nil_of_mem hb)) b hb

/-- A way in which a history reaches a new stream and is reported. -/
structure Batching (o : Overflow) {tid : UInt32} (h : ThreadHistory tid) where
  /-- the deliveries, with the sweeps among them -/
  intake : List Intake
  bpf : bpfsOf intake = h.bpf
  jvm : jvmsOf intake = h.jvm
  young : Meets (Collected.step o) Collected.SweptYoung .new intake
  /-- the clock of the last sweep -/
  final : UInt64
  order : List UInt32
  bpf_late : ∀ b ∈ h.bpf, b.timestamp.toNat + 30000 < final.toNat
  jvm_late : ∀ j ∈ h.jvm, j.timestamp.toNat + 30000 < final.toNat
  visits : ∀ s ∈ exec (Collected.step o) .new intake, s.stream.bpfEvents.Visits order

/-- The deliveries, and the last sweep. -/
def Batching.run {o : Overflow} {tid : UInt32} {h : ThreadHistory tid} (d : Batching o h) :
    Option Collected :=
  exec (Collected.step o) .new (d.intake ++ [.sweep d.final d.order])

/-- Any two batchings return, and they return the same pairs. -/
def Agree (o : Overflow) {tid : UInt32} (h : ThreadHistory tid) : Prop :=
  ∀ d d' : Batching o h, ∃ s s', d.run = some s ∧ d'.run = some s' ∧
    ∀ p, p ∈ s.returned ↔ p ∈ s'.returned

/-! ## What is ahead -/

namespace Collected

/-- The BPF events of a thread that are pending or still to come. -/
def bpfAhead (s : Collected) (tid : UInt32) (is : List Intake) : List BpfEvent :=
  s.stream.bpfEvents.queue tid ++ bpfsOf is

/-- The JVM events of a thread that are queued or still to come. -/
def jvmAhead (s : Collected) (tid : UInt32) (is : List Intake) : List JvmEvent :=
  s.stream.jvmEvents.queue tid ++ jvmsOf is

@[simp] theorem bpfAhead_new (tid : UInt32) (is : List Intake) :
    Collected.new.bpfAhead tid is = bpfsOf is := by
  simp [bpfAhead, new, EventStream.new]

@[simp] theorem jvmAhead_new (tid : UInt32) (is : List Intake) :
    Collected.new.jvmAhead tid is = jvmsOf is := by
  simp [jvmAhead, new, EventStream.new]

end Collected

/-- A history is not long enough to overflow the count. -/
theorem ThreadHistory.length_bpf {tid : UInt32} (h : ThreadHistory tid) :
    h.bpf.length ≤ 2 ^ 63 := by
  have hnodup : (h.bpf.map (·.timestamp.toNat)).Nodup := by
    rw [List.Nodup, List.pairwise_map]
    exact h.bpf_ordered.imp fun hlt => Nat.ne_of_lt (UInt64.lt_iff_toNat_lt.mp hlt)
  have hsub : h.bpf.map (·.timestamp.toNat) ⊆ List.range (2 ^ 63) := by
    intro n hn
    obtain ⟨b, hb, rfl⟩ := List.mem_map.mp hn
    exact List.mem_range.mpr (h.bpf_thread b hb).2
  have hlen := (List.subperm_of_subset hnodup hsub).length_le
  rwa [List.length_map, List.length_range] at hlen

/-- Nothing but events of the history is ahead, no other thread has a BPF event, and the count has
room for what is to come. -/
structure Confined {tid : UInt32} (h : ThreadHistory tid) (s : Collected) (is : List Intake) :
    Prop where
  only : ∀ t, t ≠ tid → s.stream.bpfEvents.queue t = []
  bpf : ∀ b ∈ s.bpfAhead tid is, b ∈ h.bpf
  jvm : ∀ j ∈ s.jvmAhead tid is, j ∈ h.jvm
  room : s.stream.eventCount.toNat + (bpfsOf is).length ≤ 2 ^ 63

/-- A sweep of `s` to `s'` does what the reference does with the two queues of `tid`. -/
structure SweptAlone (tid : UInt32) (now : UInt64) (s s' : Collected) : Prop where
  returned : s'.returned = s.returned ++
    (reference now (s.stream.bpfEvents.queue tid) (s.stream.jvmEvents.queue tid)).pairs
  bpf : s'.stream.bpfEvents.queue tid =
    (reference now (s.stream.bpfEvents.queue tid) (s.stream.jvmEvents.queue tid)).bpf
  jvm : s'.stream.jvmEvents.queue tid =
    (reference now (s.stream.bpfEvents.queue tid) (s.stream.jvmEvents.queue tid)).jvm

namespace Confined

variable {o : Overflow} {tid : UInt32} {h : ThreadHistory tid} {s : Collected} {is : List Intake}

theorem start (hbpf : bpfsOf is = h.bpf) (hjvm : jvmsOf is = h.jvm) : Confined h .new is where
  only t _ := Filing.queue_empty t
  bpf b hb := by simpa [hbpf] using hb
  jvm j hj := by simpa [hjvm] using hj
  room := by
    rw [hbpf]
    exact (Nat.zero_add _).symm ▸ h.length_bpf

theorem bpf_tid {e : BpfEvent} (hs : Confined h s (.bpf e :: is)) : e.tid = tid :=
  (h.bpf_thread e (hs.bpf e (List.mem_append_right _ List.mem_cons_self))).1

theorem jvm_tid {j : JvmEvent} (hs : Confined h s (.jvm j :: is)) : j.tid = tid :=
  (h.jvm_thread j (hs.jvm j (List.mem_append_right _ List.mem_cons_self))).1

/-- A BPF event to come is filed. -/
theorem step_bpf {e : BpfEvent} (hs : Confined h s (.bpf e :: is)) :
    Collected.step o s (.bpf e) = some { s with stream := s.stream.file e } := by
  have hroom := hs.room
  rw [bpfsOf_bpf, List.length_cons] at hroom
  exact Collected.step_bpf (EventStream.countUp_of_lt o (by omega)) e

/-- A BPF event to come becomes a pending one. -/
theorem bpf_step {e : BpfEvent} (hs : Confined h s (.bpf e :: is)) :
    ({ s with stream := s.stream.file e } : Collected).bpfAhead tid is =
        s.bpfAhead tid (.bpf e :: is) ∧
      Confined h { s with stream := s.stream.file e } is := by
  have hahead : ({ s with stream := s.stream.file e } : Collected).bpfAhead tid is =
      s.bpfAhead tid (.bpf e :: is) := by
    rw [Collected.bpfAhead, EventStream.file, Filing.queue_push_self _ hs.bpf_tid,
      List.append_assoc]
    rfl
  refine ⟨hahead, fun t ht => ?_, fun b hb => hs.bpf b (hahead ▸ hb), hs.jvm, ?_⟩
  · have hne : e.tid ≠ t := fun heq => ht (heq.symm.trans hs.bpf_tid)
    exact (Filing.queue_push_of_ne _ hne).trans (hs.only t ht)
  · have hroom := hs.room
    rw [bpfsOf_bpf, List.length_cons] at hroom
    have hcount : (s.stream.eventCount + 1).toNat = s.stream.eventCount.toNat + 1 := by
      rw [UInt64.toNat_add]
      exact Nat.mod_eq_of_lt (by rw [UInt64.toNat_one]; omega)
    show (s.stream.eventCount + 1).toNat + _ ≤ _
    omega

/-- A JVM event to come becomes a queued one. -/
theorem jvm_step {j : JvmEvent} (hs : Confined h s (.jvm j :: is)) :
    (s.stream.jvmEvents.push j).queue tid ++ jvmsOf is = s.jvmAhead tid (.jvm j :: is) ∧
      Confined h
        { s with stream := { s.stream with jvmEvents := s.stream.jvmEvents.push j } } is := by
  have hahead : (s.stream.jvmEvents.push j).queue tid ++ jvmsOf is =
      s.jvmAhead tid (.jvm j :: is) := by
    rw [Filing.queue_push_self _ hs.jvm_tid, List.append_assoc]
    rfl
  exact ⟨hahead, hs.only, hs.bpf, fun j' hj' => hs.jvm j' (hahead ▸ hj'), hs.room⟩

/-- A run of BPF events to come. -/
theorem bpfs {es : List BpfEvent} (hs : Confined h s (es.map .bpf ++ is)) :
    ∃ s', exec (Collected.step o) s (es.map .bpf) = some s' ∧ s'.returned = s.returned ∧
      s'.bpfAhead tid is = s.bpfAhead tid (es.map .bpf ++ is) ∧
      s'.stream.jvmEvents = s.stream.jvmEvents ∧ Confined h s' is := by
  induction es generalizing s with
  | nil => exact ⟨s, rfl, rfl, rfl, rfl, hs⟩
  | cons e es ih =>
    obtain ⟨hahead, hc⟩ := hs.bpf_step
    obtain ⟨s', hrun, hret, hbpf, hjvm, hc'⟩ := ih hc
    exact ⟨s', exec_cons.mpr ⟨_, hs.step_bpf, hrun⟩, hret, hbpf.trans hahead, hjvm, hc'⟩

/-- A run of JVM events to come. -/
theorem jvms {js : List JvmEvent} (hs : Confined h s (js.map .jvm ++ is)) :
    ∃ s', exec (Collected.step o) s (js.map .jvm) = some s' ∧ s'.returned = s.returned ∧
      s'.stream.bpfEvents = s.stream.bpfEvents ∧
      s'.jvmAhead tid is = s.jvmAhead tid (js.map .jvm ++ is) ∧ Confined h s' is := by
  induction js generalizing s with
  | nil => exact ⟨s, rfl, rfl, rfl, rfl, hs⟩
  | cons j js ih =>
    obtain ⟨hahead, hc⟩ := hs.jvm_step
    obtain ⟨s', hrun, hret, hbpf, hjvm, hc'⟩ := ih hc
    exact ⟨s', exec_cons.mpr ⟨_, rfl, hrun⟩, hret, hbpf, hjvm.trans hahead, hc'⟩

/-- A sweep whose clock is not behind is the reference. -/
theorem sweep_step {now : UInt64} {order : List UInt32} (hs : Confined h s is)
    (hv : s.stream.bpfEvents.Visits order)
    (hclock : ∀ b ∈ s.stream.bpfEvents.queue tid, b.timestamp ≤ now) :
    ∃ s', Collected.step o s (.sweep now order) = some s' ∧ SweptAlone tid now s s' ∧
      Confined h s' is := by
  have hbpf : ∀ b ∈ s.stream.bpfEvents.queue tid, Small b.timestamp := fun b hb =>
    (h.bpf_thread b (hs.bpf b (List.mem_append_left _ hb))).2
  have hjvm : ∀ j ∈ s.stream.jvmEvents.queue tid, Small j.timestamp := fun j hj =>
    (h.jvm_thread j (hs.jvm j (List.mem_append_left _ hj))).2
  obtain ⟨v, hvisit, hvret, hvbpf, hvjvm⟩ := sweepThread_eq_reference o hbpf hjvm hclock
  obtain ⟨out, hsweep, hret, _, hbpf', hjvm'⟩ := sweep_single hs.only hv hvisit
  have hvisited := visited_of_sweepThread hvisit
  refine ⟨⟨out.stream, s.returned ++ out.returned⟩, ?_, ⟨?_, ?_, ?_⟩, fun t ht => ?_,
    fun b hb => ?_, fun j hj => ?_, ?_⟩
  · rw [Collected.step, if_pos hv, hsweep, Option.map_some]
  · rw [hret, hvret]
  · rw [hbpf' tid, if_pos rfl, hvbpf]
  · rw [hjvm' tid, if_pos rfl, hvjvm]
  · rw [hbpf' t, if_neg ht]
  · rw [Collected.bpfAhead, hbpf' tid, if_pos rfl] at hb
    exact hs.bpf b (List.mem_append.mpr
      ((List.mem_append.mp hb).imp_left fun hb => hvisited.bpf_suffix.subset hb))
  · rw [Collected.jvmAhead, hjvm' tid, if_pos rfl] at hj
    exact hs.jvm j (List.mem_append.mpr
      ((List.mem_append.mp hj).imp_left fun hj => hvisited.jvm_suffix.subset hj))
  · obtain ⟨l, _, rfl⟩ := sweep_eq_some.mp hsweep
    exact hs.room

/-- Every step of a batching answers. -/
theorem step {i : Intake} (hs : Confined h s (i :: is)) (hy : s.SweptYoung i) :
    ∃ s', Collected.step o s i = some s' ∧ Confined h s' is := by
  cases i with
  | bpf e => exact ⟨_, hs.step_bpf, hs.bpf_step.2⟩
  | jvm j => exact ⟨_, rfl, hs.jvm_step.2⟩
  | sweep now order =>
    have hc : Confined h s is := ⟨hs.only, hs.bpf, hs.jvm, hs.room⟩
    obtain ⟨s', hs', _, hc'⟩ := hc.sweep_step hy.1 fun b hb => (hy.pending tid b hb).1
    exact ⟨s', hs', hc'⟩

/-- The last sweep reports the pairing of what is pending. -/
theorem final_step {now : UInt64} {order : List UInt32} (hs : Confined h s [])
    (hv : s.stream.bpfEvents.Visits order)
    (hlate : ∀ b ∈ h.bpf, b.timestamp.toNat + 30000 < now.toNat) :
    ∃ s', Collected.step o s (.sweep now order) = some s' ∧
      s'.returned = s.returned ++
        pairing (s.stream.bpfEvents.queue tid) (s.stream.jvmEvents.queue tid) := by
  have hold : ∀ b ∈ s.stream.bpfEvents.queue tid, b.timestamp.toNat + 30000 < now.toNat :=
    fun b hb => hlate b (hs.bpf b (List.mem_append_left _ hb))
  have hclock : ∀ b ∈ s.stream.bpfEvents.queue tid, b.timestamp ≤ now := fun b hb =>
    UInt64.le_iff_toNat_le.mpr (Nat.le_of_add_right_le (Nat.le_of_lt (hold b hb)))
  obtain ⟨s', hs', hswept, _⟩ := hs.sweep_step hv hclock
  refine ⟨s', hs', hswept.returned.trans ?_⟩
  rw [reference_eq_pairing fun b hb => Nat.le_of_lt (hold b hb)]

end Confined

/-! ## A batching answers -/

namespace Batching

variable {o : Overflow} {tid : UInt32} {h : ThreadHistory tid}

theorem run_eq_some {d : Batching o h} {s' : Collected} : d.run = some s' ↔
    ∃ s, exec (Collected.step o) .new d.intake = some s ∧
      Collected.step o s (.sweep d.final d.order) = some s' := exec_concat

/-- What is pending before the last sweep, it reports as its pairing. -/
theorem last (d : Batching o h) {s : Collected}
    (hs : exec (Collected.step o) .new d.intake = some s) (hc : Confined h s []) :
    ∃ s', d.run = some s' ∧ s'.returned = s.returned ++
      pairing (s.stream.bpfEvents.queue tid) (s.stream.jvmEvents.queue tid) := by
  obtain ⟨s', hs', hret⟩ := hc.final_step (d.visits s hs) d.bpf_late
  exact ⟨s', run_eq_some.mpr ⟨s, hs, hs'⟩, hret⟩

/-- A young intake of the whole history is that of some batching. -/
theorem exists_of_intake {is : List Intake} {s : Collected} (hbpf : bpfsOf is = h.bpf)
    (hjvm : jvmsOf is = h.jvm)
    (hyoung : Meets (Collected.step o) Collected.SweptYoung .new is)
    (hs : exec (Collected.step o) .new is = some s) :
    ∃ (d : Batching o h) (s' : Collected), d.run = some s' ∧ s'.returned = s.returned ++
      pairing (s.stream.bpfEvents.queue tid) (s.stream.jvmEvents.queue tid) := by
  obtain ⟨m, hm, hc⟩ := exec_answers (fun _ _ _ hs hy => hs.step hy)
    (Confined.start hbpf hjvm) hyoung
  rw [hs, Option.some.injEq] at hm
  subst hm
  obtain ⟨order, horder⟩ := s.stream.bpfEvents.exists_visits
  have hfinal : (0x8000000000007530 : UInt64).toNat = 2 ^ 63 + 30000 := rfl
  let d : Batching o h :=
    { intake := is
      bpf := hbpf
      jvm := hjvm
      young := hyoung
      final := 0x8000000000007530
      order := order
      bpf_late := fun b hb => hfinal ▸ Nat.add_lt_add_right (h.bpf_thread b hb).2 30000
      jvm_late := fun j hj => hfinal ▸ Nat.add_lt_add_right (h.jvm_thread j hj).2 30000
      visits := fun s' hs' => by
        rw [Option.mem_def, hs, Option.some.injEq] at hs'
        exact hs' ▸ horder }
  exact ⟨d, d.last hs hc⟩

end Batching

/-! ## Without a contest -/

/-- So far the sweeps have reported the first part of the pairing of the whole history, and the
pairing of what is ahead is the rest. -/
structure OnCourse {tid : UInt32} (h : ThreadHistory tid) (s : Collected) (is : List Intake) :
    Prop extends Confined h s is where
  pairs : pairing h.bpf h.jvm =
    s.returned ++ pairing (s.bpfAhead tid is) (s.jvmAhead tid is)
  fair : ¬ Overreaches (s.bpfAhead tid is) (s.jvmAhead tid is)

namespace OnCourse

variable {o : Overflow} {tid : UInt32} {h : ThreadHistory tid} {s : Collected} {is : List Intake}

theorem start (hfair : ¬ Overreaches h.bpf h.jvm) (hbpf : bpfsOf is = h.bpf)
    (hjvm : jvmsOf is = h.jvm) : OnCourse h .new is where
  toConfined := .start hbpf hjvm
  pairs := by
    rw [Collected.bpfAhead_new, Collected.jvmAhead_new, hbpf, hjvm]
    rfl
  fair := by rwa [Collected.bpfAhead_new, Collected.jvmAhead_new, hbpf, hjvm]

/-- Every step of a batching answers and stays on course. -/
theorem step {i : Intake} (hs : OnCourse h s (i :: is)) (hy : s.SweptYoung i) :
    ∃ s', Collected.step o s i = some s' ∧ OnCourse h s' is := by
  cases i with
  | bpf e =>
    obtain ⟨hahead, hc⟩ := hs.bpf_step
    exact ⟨_, hs.step_bpf, hc, hahead ▸ hs.pairs, hahead ▸ hs.fair⟩
  | jvm j =>
    obtain ⟨hahead, hc⟩ := hs.jvm_step
    exact ⟨_, rfl, hc, by rw [Collected.jvmAhead, hahead]; exact hs.pairs,
      by rw [Collected.jvmAhead, hahead]; exact hs.fair⟩
  | sweep now order =>
    have hyoung := hy.pending tid
    have hc : Confined h s is := ⟨hs.only, hs.bpf, hs.jvm, hs.room⟩
    obtain ⟨s', hs', hswept, hc'⟩ := hc.sweep_step hy.1 fun b hb => (hyoung b hb).1
    -- the reference leaves the rest of the pairing, and no contest in it
    obtain ⟨hpairs, hfair⟩ := reference_append (fun b hb => (hyoung b hb).2) hs.fair
    refine ⟨s', hs', hc', ?_, ?_⟩
    · rw [Collected.bpfAhead, Collected.jvmAhead, hswept.returned, hswept.bpf, hswept.jvm,
        List.append_assoc]
      exact hs.pairs.trans (congrArg (s.returned ++ ·) hpairs)
    · rw [Collected.bpfAhead, Collected.jvmAhead, hswept.bpf, hswept.jvm]
      exact hfair

end OnCourse

/-- A batching of a history without a contest returns its pairing. -/
theorem Batching.returns_pairing {o : Overflow} {tid : UInt32} {h : ThreadHistory tid}
    (hfair : ¬ Overreaches h.bpf h.jvm) (d : Batching o h) :
    ∃ s, d.run = some s ∧ s.returned = pairing h.bpf h.jvm := by
  obtain ⟨s, hs, hc⟩ := exec_answers (fun _ _ _ hs hy => hs.step hy)
    (OnCourse.start hfair d.bpf d.jvm) d.young
  obtain ⟨s', hs', hret⟩ := d.last hs hc.toConfined
  refine ⟨s', hs', hret.trans ?_⟩
  rw [hc.pairs, Collected.bpfAhead, Collected.jvmAhead, bpfsOf_nil, jvmsOf_nil, List.append_nil,
    List.append_nil]

/-! ## With a contest -/

/-- The reference decides about a single event when a JVM event is left for it. -/
theorem reference_alone {now : UInt64} {b : BpfEvent} {j : JvmEvent} {jvm left : List JvmEvent}
    (hup : upFrom b jvm = j :: left) :
    reference now [b] jvm =
      if j.timestamp.toNat - b.timestamp.toNat < 1000 then ⟨[(b, some j)], [], left⟩
      else ⟨[(b, none)], [], j :: left⟩ := by
  rw [reference, hup]
  rfl

/-- The pairing decides about an event once. -/
theorem pairing_unique {bpf : List BpfEvent} {jvm : List JvmEvent} (hbpf : BpfOrdered bpf)
    {p q : Pair} (hp : p ∈ pairing bpf jvm) (hq : q ∈ pairing bpf jvm) (h : p.1 = q.1) : p = q := by
  have hnodup : ((pairing bpf jvm).map Prod.fst).Nodup := by
    rw [reported_pairing]
    refine List.Pairwise.imp (fun hlt heq => ?_) hbpf
    rw [heq] at hlt
    exact UInt64.lt_irrefl _ hlt
  exact List.inj_on_of_nodup_map hnodup hp hq h

/-- From `s` on, with the events `bpf` to come, some young intake attaches a JVM event to an event
that the pairing leaves without. -/
def CanMislead (o : Overflow) (tid : UInt32) (s : Collected) (bpf : List BpfEvent) : Prop :=
  ∃ is s', bpfsOf is = bpf ∧ jvmsOf is = [] ∧ Meets (Collected.step o) Collected.SweptYoung s is ∧
    exec (Collected.step o) s is = some s' ∧
    ∃ b j, (b, some j) ∈ s'.returned ∧ (b, none) ∈ pairing bpf (s.stream.jvmEvents.queue tid)

/-- The event `b`, and right behind it a sweep at its own time. -/
def soloSweep (b : BpfEvent) : List Intake := [.bpf b, .sweep b.timestamp [b.tid]]

section Mislead

variable {o : Overflow} {tid : UInt32} {h : ThreadHistory tid} {s s' : Collected} {b : BpfEvent}
  {bpf : List BpfEvent}

/-- The sweep behind a single event is the reference about it. -/
theorem Confined.solo (hs : Confined h s ((b :: bpf).map .bpf))
    (hempty : s.stream.bpfEvents.queue tid = []) :
    ∃ s', exec (Collected.step o) s (soloSweep b) = some s' ∧
      Meets (Collected.step o) Collected.SweptYoung s (soloSweep b) ∧
      Confined h s' (bpf.map .bpf) ∧
      let r := reference b.timestamp [b] (s.stream.jvmEvents.queue tid)
      s'.returned = s.returned ++ r.pairs ∧ s'.stream.bpfEvents.queue tid = r.bpf ∧
        s'.stream.jvmEvents.queue tid = r.jvm := by
  obtain rfl := hs.bpf_tid
  obtain ⟨_, hc⟩ := hs.bpf_step
  have hqueue : (s.stream.file b).bpfEvents.queue b.tid = [b] := by
    rw [EventStream.file, Filing.queue_push_self _ rfl, hempty, List.nil_append]
  have hv : (s.stream.file b).bpfEvents.Visits [b.tid] :=
    Filing.visits_singleton hc.only (by simp [hqueue])
  have hpending : ∀ b' ∈ (s.stream.file b).bpfEvents.queue b.tid, b' = b := by
    simp [hqueue]
  have hclock : ∀ b' ∈ (s.stream.file b).bpfEvents.queue b.tid, b'.timestamp ≤ b.timestamp := by
    simp [hqueue]
  obtain ⟨s', hs', hswept, hc'⟩ := hc.sweep_step hv hclock
  have hyoung : Collected.SweptYoung { s with stream := s.stream.file b }
      (.sweep b.timestamp [b.tid]) := by
    refine ⟨hv, fun t ht b' hb' => ?_⟩
    rw [List.mem_singleton.mp ht] at hb'
    rw [hpending b' hb']
    exact ⟨UInt64.le_refl _, Nat.lt_add_of_pos_right (by decide)⟩
  obtain ⟨hret, hbpf, hjvm⟩ := hswept
  rw [show ({ s with stream := s.stream.file b } : Collected).stream.bpfEvents.queue b.tid = [b]
    from hqueue] at hret hbpf hjvm
  exact ⟨s', exec_cons.mpr ⟨_, hs.step_bpf, exec_cons.mpr ⟨s', hs', rfl⟩⟩,
    .cons trivial hs.step_bpf (.cons hyoung hs' trivial), hc', hret, hbpf, hjvm⟩

/-- What misleads later misleads now. -/
theorem CanMislead.earlier (hrun : exec (Collected.step o) s (soloSweep b) = some s')
    (hyoung : Meets (Collected.step o) Collected.SweptYoung s (soloSweep b))
    (hsub : pairing bpf (s'.stream.jvmEvents.queue tid) ⊆
      pairing (b :: bpf) (s.stream.jvmEvents.queue tid))
    (h : CanMislead o tid s' bpf) : CanMislead o tid s (b :: bpf) := by
  obtain ⟨is, s'', hbpf, hjvm, hmeets, hexec, b', j, hmem, hpair⟩ := h
  refine ⟨soloSweep b ++ is, s'', ?_, ?_, hyoung.append hrun hmeets, ?_, b', j, hmem, hsub hpair⟩
  · rw [bpfsOf_append, hbpf]
    rfl
  · rw [jvmsOf_append, hjvm]
    rfl
  · rw [exec_append, hrun, Option.bind_some, hexec]

/-- Events can be delivered at any time. -/
theorem meets_unswept (o : Overflow) (s : Collected) {is : List Intake}
    (h : ∀ i ∈ is, ∀ now order, i ≠ .sweep now order) :
    Meets (Collected.step o) Collected.SweptYoung s is := by
  refine meets_of_labels (fun i hi s => ?_) s
  cases i with
  | sweep now order => exact absurd rfl (h _ hi now order)
  | bpf _ | jvm _ => trivial

/-- **Sweeping after every event finds the contest**: where the pairing keeps a JVM event for the
next event, the sweep before that event attaches it. -/
theorem canMislead_of_overreaches (hs : Confined h s (bpf.map .bpf))
    (hempty : s.stream.bpfEvents.queue tid = [])
    (hover : Overreaches bpf (s.stream.jvmEvents.queue tid)) : CanMislead o tid s bpf := by
  induction bpf generalizing s with
  | nil => exact hover.elim
  | cons b bpf ih =>
    cases hup : upFrom b (s.stream.jvmEvents.queue tid) with
    | nil => exact absurd hover (overreaches_none hup)
    | cons j left =>
      obtain ⟨s', hrun, hyoung, hc, hret, hbpf, hjvm⟩ := hs.solo (o := o) hempty
      rw [reference_alone hup] at hret hbpf hjvm
      by_cases hnear : j.timestamp.toNat - b.timestamp.toNat < 1000
      · rw [if_pos hnear] at hret hbpf hjvm
        rw [overreaches_near hup hnear] at hover
        by_cases hnext : nextBetween b j bpf = true
        · -- `b` has `j` now, and the next event is still to come
          have hc' : Confined h s' (bpf.map .bpf ++ []) := by rwa [List.append_nil]
          obtain ⟨s'', hrest, hkeep, _⟩ := hc'.bpfs (o := o)
          have hmeets : Meets (Collected.step o) Collected.SweptYoung s' (bpf.map .bpf) :=
            meets_unswept o s' (by simp)
          refine ⟨soloSweep b ++ bpf.map .bpf, s'', ?_, ?_, hyoung.append hrun hmeets, ?_, b, j, ?_,
            ?_⟩
          · rw [bpfsOf_append, bpfsOf_map_bpf]
            rfl
          · rw [jvmsOf_append, jvmsOf_map_bpf]
            rfl
          · rw [exec_append, hrun, Option.bind_some, hrest]
          · rw [hkeep, hret]
            exact List.mem_append_right _ List.mem_cons_self
          · rw [pairing_next hup hnear hnext]
            exact List.mem_cons_self
        · refine .earlier hrun hyoung ?_ (ih hc hbpf (hjvm ▸ hover.resolve_left hnext))
          rw [hjvm, pairing_match hup hnear hnext]
          exact List.subset_cons_self _ _
      · rw [if_neg hnear] at hret hbpf hjvm
        rw [overreaches_far hup hnear] at hover
        refine .earlier hrun hyoung ?_ (ih hc hbpf (hjvm ▸ hover))
        rw [hjvm, pairing_far hup hnear]
        exact List.subset_cons_self _ _

end Mislead

/-- Where the pairing keeps a JVM event for a next event, a batching that sweeps only once and one
that sweeps after every event do not agree. Both deliver the JVM events first. -/
theorem not_agree_of_overreaches {o : Overflow} {tid : UInt32} {h : ThreadHistory tid}
    (hover : Overreaches h.bpf h.jvm) : ¬ Agree o h := by
  intro hagree
  have hstart : Confined h .new (h.jvm.map .jvm ++ h.bpf.map .bpf) :=
    .start (by simp) (by simp)
  obtain ⟨s, hjvms, hret, hbpf, hjvm, hc⟩ := Confined.jvms (o := o) hstart
  have hempty : s.stream.bpfEvents.queue tid = [] := hbpf ▸ Filing.queue_empty tid
  have hqueue : s.stream.jvmEvents.queue tid = h.jvm := by
    rw [Collected.jvmAhead_new] at hjvm
    simpa [Collected.jvmAhead] using hjvm
  have hmeets : Meets (Collected.step o) Collected.SweptYoung .new (h.jvm.map .jvm) :=
    meets_unswept o _ (by simp)
  -- all events, and the last sweep
  have hc' : Confined h s (h.bpf.map .bpf ++ []) := by rwa [List.append_nil]
  obtain ⟨s₁, hrun₁, hret₁, hbpf₁, hjvm₁, _⟩ := hc'.bpfs (o := o)
  have hqueue₁ : s₁.stream.bpfEvents.queue tid = h.bpf := by
    simpa [Collected.bpfAhead, hempty] using hbpf₁
  have hmeets₁ : Meets (Collected.step o) Collected.SweptYoung s (h.bpf.map .bpf) :=
    meets_unswept o s (by simp)
  obtain ⟨d₁, t₁, ht₁, hp₁⟩ := Batching.exists_of_intake (o := o) (h := h) (by simp) (by simp)
    (hmeets.append hjvms hmeets₁)
    (by rw [exec_append, hjvms, Option.bind_some, hrun₁])
  rw [hret₁, hret, hqueue₁, hjvm₁, hqueue] at hp₁
  -- a sweep after every event, up to the contest
  obtain ⟨is, s₂, hbpf₂, hjvm₂, hmeets₂, hrun₂, b, j, hmem, hpair⟩ :=
    canMislead_of_overreaches (o := o) hc hempty (hqueue.symm ▸ hover)
  obtain ⟨d₂, t₂, ht₂, hp₂⟩ := Batching.exists_of_intake (o := o) (h := h)
    (by rw [bpfsOf_append, bpfsOf_map_jvm, hbpf₂, List.nil_append])
    (by rw [jvmsOf_append, jvmsOf_map_jvm, hjvm₂, List.append_nil]) (hmeets.append hjvms hmeets₂)
    (by rw [exec_append, hjvms, Option.bind_some, hrun₂])
  obtain ⟨t₁', t₂', ht₁', ht₂', hiff⟩ := hagree d₁ d₂
  rw [ht₁, Option.some.injEq] at ht₁'
  rw [ht₂, Option.some.injEq] at ht₂'
  subst ht₁' ht₂'
  have hcommitted : (b, some j) ∈ t₁.returned :=
    (hiff _).mpr (hp₂ ▸ List.mem_append_left _ hmem)
  rw [hp₁] at hcommitted
  rw [hqueue] at hpair
  have heq := pairing_unique h.bpf_ordered hcommitted hpair rfl
  cases heq

/-! ## The two together -/

/-- **Batching does not matter**, to the pairs that are returned, exactly when no sample of the
history is contested. -/
theorem agree_iff {o : Overflow} {tid : UInt32} (h : ThreadHistory tid) :
    Agree o h ↔ ¬ Contested h.bpf h.jvm := by
  rw [contested_iff h.bpf_ordered h.jvm_ordered]
  constructor
  · exact fun hagree hover => not_agree_of_overreaches hover hagree
  · intro hfair d d'
    obtain ⟨s, hs, hret⟩ := d.returns_pairing hfair
    obtain ⟨s', hs', hret'⟩ := d'.returns_pairing hfair
    refine ⟨s, s', hs, hs', fun p => ?_⟩
    rw [hret, hret']

/-- Two blocks of thread 7, stamped 10 and 20, and a sample of the second, stamped 25. -/
def sampleContested : ThreadHistory 7 where
  bpf := [sampleBpf 7 10, sampleBpf 7 20]
  jvm := [sampleJvm 7 25]
  bpf_ordered := by decide
  jvm_ordered := by decide
  bpf_thread := by decide
  jvm_thread := by decide

/-- It is delivered, and swept. -/
def sampleAtOnce : Batching .abort sampleContested where
  intake := [.bpf (sampleBpf 7 10), .jvm (sampleJvm 7 25), .bpf (sampleBpf 7 20)]
  bpf := rfl
  jvm := rfl
  young := by decide
  final := 40000
  order := [7]
  bpf_late := by decide
  jvm_late := by decide
  visits := by decide

/-- It is delivered, with a sweep before the second block. -/
def sampleSplit : Batching .abort sampleContested where
  intake := [.bpf (sampleBpf 7 10), .jvm (sampleJvm 7 25), .sweep 26 [7], .bpf (sampleBpf 7 20)]
  bpf := rfl
  jvm := rfl
  young := by decide
  final := 40000
  order := [7]
  bpf_late := by decide
  jvm_late := by decide
  visits := by decide

theorem sampleAtOnce_returned : sampleAtOnce.run.map (·.returned) =
    some [(sampleBpf 7 10, none), (sampleBpf 7 20, some (sampleJvm 7 25))] := by decide

theorem sampleSplit_returned : sampleSplit.run.map (·.returned) =
    some [(sampleBpf 7 10, some (sampleJvm 7 25)), (sampleBpf 7 20, none)] := by decide

/-- The sweep in between gives the sample to the wrong block. -/
theorem sampleContested_disagrees : ¬ Agree .abort sampleContested := by
  intro hagree
  obtain ⟨s, s', hs, hs', hiff⟩ := hagree sampleAtOnce sampleSplit
  have hret := sampleAtOnce_returned
  have hret' := sampleSplit_returned
  rw [hs, Option.map_some, Option.some.injEq] at hret
  rw [hs', Option.map_some, Option.some.injEq] at hret'
  have hmem : (sampleBpf 7 20, some (sampleJvm 7 25)) ∈ s'.returned :=
    (hiff _).mp (hret ▸ List.mem_cons_of_mem _ List.mem_cons_self)
  rw [hret'] at hmem
  exact absurd hmem (by decide)

end Jbm
