import Jbm.Laws.Stream.Ideal

/-!
# A sweep leaves nothing to do

After a sweep a thread has no BPF event left, or its first one waits: the thread has no JVM event,
and the event is younger than 30 s. A visit ends that way whatever the shared result vector holds
(`Visited.waits`), the visits after it keep that (`exec_brings`), and a thread that is not visited
has no BPF event to begin with. So no thread is left in both maps, and a second sweep at the same
clock breaks out of every queue at its first event.
-/

set_option autoImplicit false

namespace Jbm

open Base

/-- The first BPF event of a thread, if there is one, waits for JVM events to come. -/
def Waits (o : Overflow) (now : UInt64) (bpf : List BpfEvent) (jvm : List JvmEvent) : Prop :=
  ∀ e ∈ bpf.head?, jvm = [] ∧ givesUp o now e.timestamp = some false

/-! ## The sweep makes every thread wait -/

/-- A visit ends with the BPF queue exhausted, or with its first event waiting. -/
theorem Visited.waits {o : Overflow} {now : UInt64} {bpf : List BpfEvent} {q : List JvmEvent}
    {ret : List Pair} {v : Visit} (h : Visited o now bpf q ret v) : Waits o now v.bpf v.jvm := by
  induction h with
  | done q ret => simp [Waits]
  | report _ _ ih => exact ih
  | wait hit =>
    cases hit with
    | wait _ _ _ _ hyoung =>
      rintro _ ⟨⟩
      exact ⟨rfl, hyoung⟩

/-- What `Waits` says of one thread in the outer loop. -/
def SweepLoop.Waits (o : Overflow) (now : UInt64) (t : UInt32) (l : SweepLoop) : Prop :=
  Jbm.Waits o now (l.bpfEvents.queue t) (l.jvmEvents.queue t)

theorem SweptTid.waits_self {o : Overflow} {now : UInt64} {l l' : SweepLoop} {tid : UInt32}
    (h : SweptTid o now l tid l') : l'.Waits o now tid := by
  obtain ⟨v, hv, hbpf, hjvm, _, _⟩ := h.visit
  unfold SweepLoop.Waits
  rw [hbpf, hjvm]
  exact (visited_of_sweepThread hv).waits

theorem SweptTid.waits {o : Overflow} {now : UInt64} {l l' : SweepLoop} {tid t : UInt32}
    (h : SweptTid o now l tid l') (hw : l.Waits o now t) : l'.Waits o now t := by
  by_cases ht : t = tid
  · exact ht ▸ h.waits_self
  · unfold SweepLoop.Waits
    rw [h.bpf_other t ht, h.jvm_other t ht]
    exact hw

/-- After the sweep every thread waits. -/
theorem sweep_waits {o : Overflow} {now : UInt64} {order : List UInt32} {s : EventStream}
    {out : Swept} (hv : s.bpfEvents.Visits order) (h : s.sweep o now order = some out)
    (t : UInt32) :
    Waits o now (out.stream.bpfEvents.queue t) (out.stream.jvmEvents.queue t) := by
  obtain ⟨l, hl, rfl⟩ := sweep_eq_some.mp h
  have keep : ∀ (l : SweepLoop) (tid : UInt32) (l' : SweepLoop), l.Waits o now t →
      sweepTid o now l tid = some l' → l'.Waits o now t :=
    fun l tid l' hw hstep => (sweptTid_of_sweepTid hstep).waits hw
  by_cases ht : t ∈ order
  · exact exec_brings (I := SweepLoop.Waits o now t)
      (fun l l' hstep => (sweptTid_of_sweepTid hstep).waits_self) keep ht hl
  · have hempty : s.bpfEvents.queue t = [] := by
      by_contra hne
      exact ht ((hv.mem_iff t).mpr hne)
    refine exec_keeps (I := SweepLoop.Waits o now t) keep ?_ hl
    simp [SweepLoop.Waits, Waits, hempty]

/-! ## Nothing to do -/

/-- The visit of a thread that waits changes nothing. -/
theorem Waits.visit {o : Overflow} {now : UInt64} {bpf : List BpfEvent} {jvm : List JvmEvent}
    (h : Waits o now bpf jvm) : sweepThread o now bpf jvm [] = some ⟨bpf, jvm, [], []⟩ := by
  cases bpf with
  | nil => rfl
  | cons e bpf =>
    obtain ⟨rfl, hyoung⟩ := h e rfl
    simp [sweepThread, sweepEvent, takeOver?, findMatchingJvmEvent, hyoung]

theorem SweptTid.idle {o : Overflow} {now : UInt64} {l l' : SweepLoop} {tid : UInt32}
    (h : SweptTid o now l tid l') (hw : l.Waits o now tid) (hret : l.ret = []) : l' = l := by
  obtain ⟨⟨v, hv, hbpf, hjvm, hret', htrash⟩, hbpf_other, hjvm_other⟩ := h
  rw [hret, hw.visit, Option.some.injEq] at hv
  subst hv
  have hbpfs : l'.bpfEvents = l.bpfEvents := Filing.ext_queue fun t => by
    by_cases ht : t = tid
    · rw [ht, hbpf]
    · exact hbpf_other t ht
  have hjvms : l'.jvmEvents = l.jvmEvents := Filing.ext_queue fun t => by
    by_cases ht : t = tid
    · rw [ht, hjvm]
    · exact hjvm_other t ht
  cases l
  cases l'
  simp_all

/-- A sweep of a stream in which every thread waits changes nothing and returns nothing. -/
theorem sweep_idle {o : Overflow} {now : UInt64} {order : List UInt32} {s : EventStream}
    (hv : s.bpfEvents.Visits order)
    (hw : ∀ t, Waits o now (s.bpfEvents.queue t) (s.jvmEvents.queue t)) :
    s.sweep o now order = some ⟨[], [], s⟩ := by
  have loop : ∀ order : List UInt32, (∀ t ∈ order, s.bpfEvents.queue t ≠ []) →
      exec (sweepTid o now) ⟨s.bpfEvents, s.jvmEvents, [], []⟩ order =
        some ⟨s.bpfEvents, s.jvmEvents, [], []⟩ := by
    intro order
    induction order with
    | nil => exact fun _ => rfl
    | cons t order ih =>
      intro hq
      obtain ⟨l, hl⟩ := @sweepTid_isSome o now ⟨s.bpfEvents, s.jvmEvents, [], []⟩ t _
        (hq t List.mem_cons_self) (hw t).visit
      have hidle := (sweptTid_of_sweepTid hl).idle (hw t) rfl
      rw [hidle] at hl
      exact exec_cons.mpr ⟨_, hl, ih fun u hu => hq u (List.mem_cons_of_mem _ hu)⟩
  exact sweep_eq_some.mpr ⟨_, loop order fun t ht => (hv.mem_iff t).mp ht, rfl⟩

/-! ## What is left -/

/-- A stream after a sweep at `now`. -/
structure EventStream.Rested (now : UInt64) (s : EventStream) : Prop where
  /-- no map holds an empty queue -/
  bpf_filled : ∀ t, s.bpfEvents.map.lookup t ≠ some []
  jvm_filled : ∀ t, s.jvmEvents.map.lookup t ≠ some []
  /-- no thread is a key of both maps -/
  apart : Disjoint s.bpfEvents.keys s.jvmEvents.keys
  /-- the first event of each queue is less than 30 s old -/
  young : ∀ t, ∀ b ∈ (s.bpfEvents.queue t).head?, now.toNat - b.timestamp.toNat < 30000
  /-- and with it every event of a sorted queue -/
  young_sorted : ∀ t,
    (s.bpfEvents.queue t).Pairwise (fun b b' => b.timestamp.toNat ≤ b'.timestamp.toNat) →
      ∀ b ∈ s.bpfEvents.queue t, now.toNat - b.timestamp.toNat < 30000

/-- Where every thread waits, at a clock that is not behind, the stream is at rest. -/
theorem rested_of_waits {o : Overflow} {now : UInt64} {s : EventStream}
    (hclock : ∀ t, ∀ b ∈ s.bpfEvents.queue t, b.timestamp ≤ now)
    (hw : ∀ t, Waits o now (s.bpfEvents.queue t) (s.jvmEvents.queue t)) : s.Rested now := by
  have young : ∀ t, ∀ b ∈ (s.bpfEvents.queue t).head?,
      now.toNat - b.timestamp.toNat < 30000 := by
    intro t b hb
    have hage := (hw t b hb).2
    rw [givesUp_eq o (hclock t b (List.mem_of_mem_head? hb)), Option.some.injEq,
      decide_eq_false_iff_not] at hage
    omega
  refine ⟨fun t h => (s.bpfEvents.filed t [] h).1 rfl, fun t h => (s.jvmEvents.filed t [] h).1 rfl,
    ?_, young, fun t hsorted b hb => ?_⟩
  · refine Finset.disjoint_left.mpr fun t hbpf hjvm => ?_
    obtain ⟨e, bpf, hq⟩ := List.exists_cons_of_ne_nil (Filing.mem_keys.mp hbpf)
    exact Filing.mem_keys.mp hjvm (hw t e (by simp [hq])).1
  · cases hq : s.bpfEvents.queue t with
    | nil =>
      rw [hq] at hb
      cases hb
    | cons e bpf =>
      have hfirst := young t e (by simp [hq])
      rw [hq] at hb hsorted
      rcases List.mem_cons.mp hb with rfl | hb
      · exact hfirst
      · have hle := List.rel_of_pairwise_cons hsorted hb
        omega

/-- What waits in one build waits in the other, at a clock that is not behind. -/
theorem Waits.build {o o' : Overflow} {now : UInt64} {bpf : List BpfEvent} {jvm : List JvmEvent}
    (hclock : ∀ b ∈ bpf, b.timestamp ≤ now) (h : Waits o now bpf jvm) : Waits o' now bpf jvm := by
  intro e he
  obtain ⟨hjvm, hyoung⟩ := h e he
  have hle := hclock e (List.mem_of_mem_head? he)
  rw [givesUp_eq o hle] at hyoung
  exact ⟨hjvm, (givesUp_eq o' hle).trans hyoung⟩

/-- **A sweep reaches a fixed point and leaves only events that wait.** -/
theorem sweep_rests (o : Overflow) {now : UInt64} {order : List UInt32} {s : EventStream}
    (hbpf : ∀ t, ∀ b ∈ s.bpfEvents.queue t, b.timestamp.toNat < 2 ^ 63)
    (hjvm : ∀ t, ∀ j ∈ s.jvmEvents.queue t, j.timestamp.toNat < 2 ^ 63)
    (hclock : ∀ t, ∀ b ∈ s.bpfEvents.queue t, b.timestamp ≤ now)
    (hv : s.bpfEvents.Visits order) :
    ∃ out, s.sweep o now order = some out ∧ out.stream.Rested now ∧
      ∀ o' order', out.stream.bpfEvents.Visits order' →
        out.stream.sweep o' now order' = some ⟨[], [], out.stream⟩ := by
  obtain ⟨out, hout, _⟩ := sweep_of_small o hbpf hjvm hclock hv
  have hleft : ∀ t, ∀ b ∈ out.stream.bpfEvents.queue t, b.timestamp ≤ now := by
    intro t b hb
    apply hclock t b
    rw [← (sweep_account hout).reported t]
    exact List.mem_append_right _ hb
  have hw := sweep_waits hv hout
  exact ⟨out, hout, rested_of_waits hleft hw, fun o' order' hv' =>
    sweep_idle hv' fun t => (hw t).build (hleft t)⟩

theorem sweep_rests_sampleMixed :
    (sampleMixed.sweep .abort 21 [7, 8]).map
          (fun out => (out.returned, out.stream.bpfEvents.keys)) =
        some ([(sampleBpf 7 10, some (sampleJvm 7 12))], {7, 8}) ∧
      ∃ out, sampleMixed.sweep .abort 21 [7, 8] = some out ∧ out.stream.Rested 21 ∧
        ∀ o' order', out.stream.bpfEvents.Visits order' →
          out.stream.sweep o' 21 order' = some ⟨[], [], out.stream⟩ := by
  have hbpf : ∀ b ∈ [sampleBpf 7 10, sampleBpf 7 20, sampleBpf 8 15],
      b.timestamp.toNat < 2 ^ 63 ∧ b.timestamp ≤ 21 := by decide
  have hjvm : ∀ j ∈ [sampleJvm 7 12], j.timestamp.toNat < 2 ^ 63 := by decide
  refine ⟨by decide, ?_⟩
  exact sweep_rests .abort (fun _ b hb => (hbpf b (sampleMixed_bpf hb)).1)
    (fun _ j hj => hjvm j (sampleMixed_jvm hj)) (fun _ b hb => (hbpf b (sampleMixed_bpf hb)).2)
    (by decide)

end Jbm
