import Jbm.Laws.Stream.Delivery
import Jbm.Stream.Process

/-!
# The order in which a thread's blocks reach its queue

Each perf buffer is in order, and `process` reads each of them from its front, so the only place
where two events of one thread can be interchanged is the join of the reads: a thread that wakes
on several CPUs has its events in several buffers, and the join goes through the buffers in the
order of the CPUs. `Monitor.InOrder` is the condition on a join under which nothing is
interchanged; `queue_grows_in_order_iff` shows that it is the exact one for the events the join
hands on, and `queues_time_ordered` that runs which meet it keep every queue in order.
-/

set_option autoImplicit false

namespace Jbm

open Base

/-! ## The blocks behind a queue -/

/-- The entries of `added` that are still queued for a thread. -/
def History.queued (s : History) (tid : UInt32) : List (BlockEvent × BpfEvent) :=
  let added := s.added.filter (·.2.tid = tid)
  added.drop (added.length - (s.stream.bpfEvents.queue tid).length)

/-- They are the queue, each event with the `BlockEvent` it was made of. -/
theorem History.Accounted.queued_snd {o : Overflow} {s : History} (hs : s.Accounted o)
    (tid : UInt32) : (s.queued tid).map Prod.snd = s.stream.bpfEvents.queue tid := by
  have hacc := hs.reported tid
  have hmap : s.addedEvents.filter (·.tid = tid) =
      (s.added.filter (·.2.tid = tid)).map Prod.snd := by
    rw [History.addedEvents, List.filter_map]
    rfl
  rw [hmap] at hacc
  have hlen := congrArg List.length hacc
  rw [List.length_append, List.length_map] at hlen
  rw [History.queued, List.map_drop, ← hacc, ← hlen, Nat.add_sub_cancel, List.drop_left]

/-- An event added is queued behind the others of its thread. -/
theorem History.queued_add {o : Overflow} {decode : List Char → Option JvmEvent}
    {s s' : History} {host : Host} {event : BlockEvent} (hs : s.Accounted o)
    (h : History.Steps o decode s (.add host event) s') (tid : UInt32) :
    ∃ new, s'.queued tid = s.queued tid ++ new ∧
      (new = [] ∨ event.pid = tid ∧ ∃ e, new = [(event, e)]) := by
  have hlen := congrArg List.length (hs.queued_snd tid)
  rw [List.length_map] at hlen
  have hle : (s.stream.bpfEvents.queue tid).length ≤
      (s.added.filter (·.2.tid = tid)).length := by
    rw [← hlen, History.queued, List.length_drop]
    exact Nat.sub_le _ _
  cases h with
  | @add _ _ e he =>
    have htid := toBpfEvent_tid he
    refine ⟨[(event, e)].filter (·.2.tid = tid), ?_, ?_⟩
    · show ((s.added ++ [(event, e)]).filter (·.2.tid = tid)).drop
        (((s.added ++ [(event, e)]).filter (·.2.tid = tid)).length -
          ((s.stream.bpfEvents.push e).queue tid).length) = _
      rw [Filing.queue_push, List.filter_append, List.length_append, List.length_append]
      by_cases ht : e.tid = tid
      · rw [List.filter_singleton, List.filter_singleton]
        simp only [ht, decide_true, cond_true, List.length_singleton, Nat.add_sub_add_right]
        rw [History.queued, List.drop_append_of_le_length (Nat.sub_le _ _)]
      · rw [List.filter_singleton, List.filter_singleton]
        simp only [ht, decide_false, cond_false, List.length_nil, Nat.add_zero, List.append_nil]
        rfl
    · by_cases ht : e.tid = tid
      · exact .inr ⟨htid.symm.trans ht, e, by simp [ht]⟩
      · exact .inl (by simp [ht])

/-- A sweep takes events from the front of a queue only. -/
theorem History.queued_sweep {o : Overflow} {decode : List Char → Option JvmEvent}
    {s s' : History} {now : UInt64} {order : List UInt32}
    (h : History.Steps o decode s (.sweep now order) s') (tid : UInt32) :
    s'.queued tid <:+ s.queued tid := by
  cases h with
  | @sweep _ _ out _ hout =>
    have hlen := congrArg List.length ((sweep_account hout).reported tid)
    rw [List.length_append] at hlen
    have hle : (out.stream.bpfEvents.queue tid).length ≤ (s.stream.bpfEvents.queue tid).length := by
      omega
    unfold History.queued
    exact List.drop_suffix_drop_left _ (Nat.sub_le_sub_left hle _)

theorem History.queued_fill {o : Overflow} {decode : List Char → Option JvmEvent}
    {s s' : History} {text : List Char} (h : History.Steps o decode s (.fill text) s')
    (tid : UInt32) : s'.queued tid = s.queued tid := by
  cases h with
  | fill => rfl

/-! ## Order -/

/-- Of two blocks of one thread, `a` does not end later. -/
def Before (a b : BlockEvent) : Prop := a.pid = b.pid → a.tEnd ≤ b.tEnd

instance (a b : BlockEvent) : Decidable (Before a b) := inferInstanceAs (Decidable (_ → _))

/-- Thread by thread, the blocks are in the order in which they ended. -/
def TimeOrdered (blocks : List BlockEvent) : Prop := blocks.Pairwise Before

theorem timeOrdered_iff {blocks : List BlockEvent} : TimeOrdered blocks ↔
    ∀ tid, (blocks.filter (·.pid = tid)).Pairwise (fun a b => a.tEnd ≤ b.tEnd) := by
  simp only [TimeOrdered, List.pairwise_filter, decide_eq_true_eq]
  constructor
  · intro h tid
    apply h.imp
    exact fun hab ha hb => hab (ha.trans hb.symm)
  · intro h
    rw [List.pairwise_iff_getElem]
    intro i j hi hj hij heq
    exact List.pairwise_iff_getElem.mp (h (blocks[j].pid)) i j hi hj hij heq rfl

/-- A block that no earlier one outlasts goes to the end. -/
theorem TimeOrdered.concat {blocks : List BlockEvent} {b : BlockEvent} (h : TimeOrdered blocks)
    (hb : ∀ a ∈ blocks, Before a b) : TimeOrdered (blocks ++ [b]) := by
  apply List.pairwise_append.mpr
  refine ⟨h, List.pairwise_singleton _ _, fun a ha b' hb' => ?_⟩
  obtain rfl : b' = b := List.mem_singleton.mp hb'
  exact hb a ha

/-- No block queued for a thread outlasts one of the thread's blocks in `blocks`. -/
def History.Precedes (s : History) (blocks : List BlockEvent) : Prop :=
  ∀ b ∈ blocks, ∀ p ∈ s.queued b.pid, p.1.tEnd ≤ b.tEnd

instance (s : History) (blocks : List BlockEvent) : Decidable (s.Precedes blocks) :=
  inferInstanceAs (Decidable (∀ b ∈ blocks, ∀ p ∈ s.queued b.pid, _))

/-- What the reads of a call may hold for the join to keep the order: of two events of one thread
in different buffers, the one on the lower CPU does not end later, and no event read is older
than one still queued for its thread. -/
def History.Joins (s : History) (results : List (Option (List BlockEvent))) : Prop :=
  results.Pairwise (fun r r' => ∀ a ∈ r.getD [], ∀ b ∈ r'.getD [], Before a b) ∧
    s.Precedes (batchOf results)

instance (s : History) (results : List (Option (List BlockEvent))) :
    Decidable (s.Joins results) := inferInstanceAs (Decidable (_ ∧ _))

/-- The step is no join that interchanges events of one thread. -/
def Monitor.InOrder (s : Monitor) : Act → Prop
  | .join => ∀ results ∈ s.stage.results?, s.history.Joins results
  | _ => True

instance (s : Monitor) (act : Act) : Decidable (s.InOrder act) :=
  match act with
  | .join => inferInstanceAs (Decidable (∀ results ∈ s.stage.results?, _))
  | .wake _ _ | .read _ | .add _ | .fill _ _ | .sweep _ _ => .isTrue trivial

/-- What a call has in hand, thread by thread in order and not older than what is queued. -/
def Stage.Ordered (history : History) : Stage → Prop
  | .reading results => ∀ r ∈ results, TimeOrdered (r.getD [])
  | .adding batch => TimeOrdered batch ∧ history.Precedes batch
  | .sweeping => True

/-- The order a monitor keeps, from the perf buffers to the queues. -/
structure Monitor.Ordered (o : Overflow) (s : Monitor) : Prop where
  accounted : s.history.Accounted o
  buffers : ∀ buffer ∈ s.perfBuffers, TimeOrdered buffer ∧ buffer ⊆ s.woken
  stage : s.stage.Ordered s.history
  queues : ∀ tid, (s.history.queued tid).Pairwise (fun p q => p.1.tEnd ≤ q.1.tEnd)

theorem Stage.ordered_begin (history : History) (cpus : Nat) :
    (Monitor.begin cpus).Ordered history := by
  intro r hr
  rw [List.eq_of_mem_replicate hr]
  exact List.Pairwise.nil

theorem Monitor.ordered_new (o : Overflow) (cpus : Nat) : (Monitor.new cpus).Ordered o where
  accounted := History.accounted_new o
  buffers := by
    intro buffer hb
    rw [List.eq_of_mem_replicate hb]
    exact ⟨List.Pairwise.nil, List.nil_subset _⟩
  stage := Stage.ordered_begin _ cpus
  queues tid := by simp [Monitor.new, History.new, History.queued]

/-- An event added from the front of an ordered batch goes behind the queue, in order. -/
theorem Monitor.Ordered.added {o : Overflow} {decode : List Char → Option JvmEvent} {s : Monitor}
    {host : Host} {event : BlockEvent} {batch : List BlockEvent} {history : History}
    (hs : s.Ordered o) (hstage : s.stage = .adding (event :: batch))
    (h : History.Steps o decode s.history (.add host event) history) :
    Monitor.Ordered o { s with stage := .adding batch, history := history } := by
  have hbatch := hs.stage
  rw [hstage] at hbatch
  obtain ⟨hordered, hprec⟩ := hbatch
  obtain ⟨hfront, hbehind⟩ := List.pairwise_cons.mp hordered
  have hqueued := History.queued_add hs.accounted h
  refine ⟨hs.accounted.steps h, hs.buffers, ⟨hbehind, fun b hb p hp => ?_⟩, fun tid => ?_⟩
  · obtain ⟨new, hq, hnew⟩ := hqueued b.pid
    rw [hq] at hp
    rcases List.mem_append.mp hp with hp | hp
    · exact hprec b (List.mem_cons_of_mem _ hb) p hp
    · rcases hnew with rfl | ⟨hpid, e, rfl⟩
      · cases hp
      · obtain rfl := List.mem_singleton.mp hp
        exact hfront b hb hpid
  · obtain ⟨new, hq, hnew⟩ := hqueued tid
    show (history.queued tid).Pairwise _
    rw [hq]
    rcases hnew with rfl | ⟨hpid, e, rfl⟩
    · rw [List.append_nil]
      exact hs.queues tid
    · apply List.pairwise_append.mpr
      refine ⟨hs.queues tid, List.pairwise_singleton _ _, fun p hp q hq' => ?_⟩
      obtain rfl := List.mem_singleton.mp hq'
      exact hprec event List.mem_cons_self p (hpid.symm ▸ hp)

theorem Monitor.Ordered.step {o : Overflow} {decode : List Char → Option JvmEvent}
    {s s' : Monitor} {act : Act} (hs : s.Ordered o) (hok : s.InOrder act)
    (h : Monitor.Steps o decode s act s') : s'.Ordered o := by
  cases h with
  | @wake cpu event hnew =>
    refine ⟨hs.accounted, fun buffer hb => ?_, hs.stage, hs.queues⟩
    obtain ⟨i, hi, rfl⟩ := List.mem_iff_getElem.mp hb
    rw [List.length_modify] at hi
    obtain ⟨hordered, hsub⟩ := hs.buffers _ (List.getElem_mem hi)
    rw [List.getElem_modify]
    split
    · refine ⟨hordered.concat fun a ha hpid => ?_, ?_⟩
      · exact UInt64.le_of_lt (hnew a (hsub ha) hpid)
      · apply List.append_subset.mpr
        refine ⟨fun a ha => List.mem_append_left _ (hsub ha), ?_⟩
        exact List.subset_append_right _ _
    · exact ⟨hordered, fun a ha => List.mem_append_left _ (hsub ha)⟩
  | @read cpu buffer results hstage hbuf =>
    obtain ⟨hordered, hsub⟩ := hs.buffers _ (List.mem_of_getElem? hbuf)
    refine ⟨hs.accounted, fun buffer' hb => ?_, fun r hr => ?_, hs.queues⟩
    · rcases List.mem_or_eq_of_mem_set hb with hb | rfl
      · exact hs.buffers buffer' hb
      · exact ⟨hordered.drop, fun a ha => hsub (List.mem_of_mem_drop ha)⟩
    · rcases List.mem_or_eq_of_mem_set hr with hr | rfl
      · have hreads := hs.stage
        rw [hstage] at hreads
        exact hreads r hr
      · exact hordered.take
  | @join results hstage =>
    have hreads := hs.stage
    rw [hstage] at hreads
    obtain ⟨hcross, hprec⟩ := hok results (by rw [hstage]; rfl)
    exact ⟨hs.accounted, hs.buffers, ⟨List.pairwise_flatMap.mpr ⟨hreads, hcross⟩, hprec⟩, hs.queues⟩
  | added hstage hadd => exact hs.added hstage hadd
  | failed => exact ⟨hs.accounted, hs.buffers, Stage.ordered_begin _ _, hs.queues⟩
  | @fill text ok history hfill =>
    have hqueued := History.queued_fill hfill
    refine ⟨hs.accounted.steps hfill, hs.buffers, ?_, fun tid => ?_⟩
    · cases ok with
      | true => trivial
      | false => exact Stage.ordered_begin _ _
    · show (history.queued tid).Pairwise _
      rw [hqueued tid]
      exact hs.queues tid
  | @sweep now order history hsweep =>
    refine ⟨hs.accounted.steps hsweep, hs.buffers, Stage.ordered_begin _ _, fun tid => ?_⟩
    exact (hs.queues tid).sublist (History.queued_sweep hsweep tid).sublist

/-- The join keeps the order exactly when, for every thread, the queue followed by the thread's
events of the batch is in order: what the queue becomes when every event read can be added. -/
theorem queue_grows_in_order_iff {o : Overflow} {s : Monitor}
    {results : List (Option (List BlockEvent))} (hs : s.Ordered o)
    (hstage : s.stage = .reading results) :
    (∀ tid, ((s.history.queued tid).map Prod.fst ++
      (batchOf results).filter (·.pid = tid)).Pairwise (fun a b => a.tEnd ≤ b.tEnd)) ↔
    s.InOrder .join := by
  have hreads := hs.stage
  rw [hstage] at hreads
  have hjoins : s.InOrder .join ↔ s.history.Joins results := by
    show (∀ r ∈ s.stage.results?, s.history.Joins r) ↔ _
    rw [hstage]
    simp [Stage.results?]
  have hbatch : TimeOrdered (batchOf results) ↔
      results.Pairwise (fun r r' => ∀ a ∈ r.getD [], ∀ b ∈ r'.getD [], Before a b) := by
    rw [TimeOrdered, batchOf, List.pairwise_flatMap]
    exact and_iff_right hreads
  rw [hjoins, History.Joins, ← hbatch, timeOrdered_iff]
  simp only [List.pairwise_append, List.pairwise_map, hs.queues, true_and, forall_and]
  apply and_congr_right
  intro _
  constructor
  · intro h b hb p hp
    exact h b.pid p.1 (List.mem_map_of_mem hp) b (by simpa using hb)
  · intro h tid a ha b hb
    obtain ⟨p, hp, rfl⟩ := List.mem_map.mp ha
    obtain ⟨hb, hpid⟩ := List.mem_filter.mp hb
    have hpid : b.pid = tid := by simpa using hpid
    exact h b hb p (hpid.symm ▸ hp)

/-- **Per-thread queues are time-ordered**: in every run whose joins interchange no events of one
thread, the blocks behind every queue are in the order in which they ended. -/
theorem queues_time_ordered {o : Overflow} {decode : List Char → Option JvmEvent} {cpus : Nat}
    {acts : List Act} {s : Monitor} (h : Monitor.run o decode cpus acts = some s)
    (hok : Meets (Monitor.step o decode) Monitor.InOrder (.new cpus) acts) (tid : UInt32) :
    (s.history.queued tid).map Prod.snd = s.history.stream.bpfEvents.queue tid ∧
      (s.history.queued tid).Pairwise (fun p q => p.1.tEnd ≤ q.1.tEnd) := by
  have keep : ∀ (s : Monitor) (act : Act) (s' : Monitor), s.Ordered o → s.InOrder act →
      s.step o decode act = some s' → s'.Ordered o :=
    fun _ _ _ hs hact hstep => hs.step hact (Monitor.steps_of_step hstep)
  have hs : s.Ordered o := exec_invariant keep (Monitor.ordered_new o cpus) hok h
  exact ⟨hs.accounted.queued_snd tid, hs.queues tid⟩

/-- Thread 7 wakes on CPU `first` and then on CPU `second` of two, before a call of `process`. -/
def sampleWakes (first second : Nat) : List Act :=
  [.wake first (sampleBlock 7 3000000), .wake second (sampleBlock 7 5000000), .read 0, .read 1,
    .join, .add (sampleHost 6000000 6), .add (sampleHost 6000000 6)]

theorem sampleWakes_runs :
    (Monitor.run .abort sampleDecode 2 (sampleWakes 0 1)).isSome ∧
      (Monitor.run .abort sampleDecode 2 (sampleWakes 1 0)).isSome := by decide

theorem queues_time_ordered_sampleWakes :
    let s := (Monitor.run .abort sampleDecode 2 (sampleWakes 0 1)).get sampleWakes_runs.1
    (s.history.queued 7).map Prod.snd = s.history.stream.bpfEvents.queue 7 ∧
      (s.history.queued 7).Pairwise (fun p q => p.1.tEnd ≤ q.1.tEnd) :=
  queues_time_ordered (Option.some_get sampleWakes_runs.1).symm (by decide) 7

/-- When the thread moves to a lower CPU, its later block is queued first. -/
theorem queue_out_of_order :
    ¬ ∀ s, Monitor.run .abort sampleDecode 2 (sampleWakes 1 0) = some s →
      ∀ tid, (s.history.queued tid).Pairwise (fun p q => p.1.tEnd ≤ q.1.tEnd) := by
  intro hall
  exact absurd (hall _ (Option.some_get sampleWakes_runs.2).symm 7) (by decide)

end Jbm
