import Jbm.Laws.Stream.Delivery
import Jbm.Stream.Call

/-!
# What a failing event costs its batch

`process` hands the events it has read to `add_bpf_event` one after another and returns at the
first error. The failing call itself leaves the stream alone; the events behind it are in no
buffer, no queue and no result any more. `batch_kept_iff` is the exact price: a call of `process`
keeps every event that could be added if and only if none of them is behind one that fails.

`monitor_of_processes` connects the call to the monitor, which takes the same events through
its `add`, `fill` and `sweep` steps.
-/

set_option autoImplicit false

namespace Jbm

open Base

/-- The events of a batch that `add_bpf_event` would add. -/
def addables (o : Overflow) (batch : List (Host × BlockEvent)) : List BpfEvent :=
  batch.filterMap (addable o)

/-- The pairs a call of `process` returns. -/
def pairsOf : Except ProcessError (List Pair) → List Pair
  | .ok pairs => pairs
  | .error _ => []

/-- A failing event costs nothing: an `add_bpf_event` that fails leaves the stream as it was, and
of every thread the events queued before and those that could be added are all returned or
queued. -/
structure BatchKept (o : Overflow) (batch : List (Host × BlockEvent)) (s : EventStream)
    (r : Except ProcessError (List Pair)) (s' : EventStream) : Prop where
  atomic : ∀ x ∈ batch, ∀ m e m', addBpfEventCall o x.1 x.2 m = some (.error e, m') → m' = m
  kept : ∀ t, (s.bpfEvents.queue t ++ (addables o batch).filter (·.tid = t)).Subperm
    ((reported (pairsOf r)).filter (·.tid = t) ++ s'.bpfEvents.queue t)

/-- No event that could be added is behind one that fails. -/
def NoneBehind (o : Overflow) (batch : List (Host × BlockEvent)) : Prop :=
  batch.Pairwise fun x y => Fails o x → addable o y = none

/-! ## The loop over the batch -/

theorem addable_of_fails {o : Overflow} {x : Host × BlockEvent} (h : Fails o x) :
    addable o x = none := by
  obtain ⟨e, he⟩ := h
  rw [addable, he]

theorem addables_eq_nil {o : Overflow} {batch : List (Host × BlockEvent)} :
    addables o batch = [] ↔ ∀ x ∈ batch, addable o x = none := List.filterMap_eq_nil_iff

/-- An `add_bpf_event` that fails leaves the stream as it was. -/
theorem addBpfEventCall_error {o : Overflow} {host : Host} {event : BlockEvent}
    {s s' : EventStream} {e : AddError}
    (h : addBpfEventCall o host event s = some (.error e, s')) : s' = s := by
  rw [addBpfEventCall_eq] at h
  split at h
  · cases h
  · cases h
    rfl
  · obtain ⟨_, _, h⟩ := Option.map_eq_some_iff.mp h
    cases h

/-- What the loop leaves queued: the events before the first that fails. -/
structure Added (o : Overflow) (batch : List (Host × BlockEvent)) (s : EventStream)
    (r : Except ProcessError Unit) (s' : EventStream)
    (before behind : List (Host × BlockEvent)) : Prop where
  split : batch = before ++ behind
  before_ok : ∀ x ∈ before, ¬ Fails o x
  queue : ∀ t, s'.bpfEvents.queue t =
    s.bpfEvents.queue t ++ (addables o before).filter (·.tid = t)
  stop : r = .ok () ∧ behind = [] ∨ ∃ x after, behind = x :: after ∧ Fails o x

theorem Adding.added_split {o : Overflow} {batch : List (Host × BlockEvent)}
    {s s' : EventStream} {r : Except ProcessError Unit} (h : Adding o batch s r s') :
    ∃ before behind, Added o batch s r s' before behind := by
  induction h with
  | done s => exact ⟨[], [], rfl, by simp, by simp [addables], .inl ⟨rfl, rfl⟩⟩
  | @failed x batch s e hmake =>
    exact ⟨[], x :: batch, rfl, by simp, by simp [addables], .inr ⟨x, batch, rfl, e, hmake⟩⟩
  | @added x batch s s' e r hmake _ _ ih =>
    obtain ⟨before, behind, hsplit, hok, hqueue, hstop⟩ := ih
    refine ⟨x :: before, behind, congrArg _ hsplit, fun y hy => ?_, fun t => ?_, hstop⟩
    · rcases List.mem_cons.mp hy with rfl | hy
      · rintro ⟨e', he'⟩
        rw [hmake] at he'
        cases he'
      · exact hok y hy
    · have hx : addable o x = some e := by rw [addable, hmake]
      have hfile : (s.file e).bpfEvents.queue t =
          s.bpfEvents.queue t ++ [e].filter (·.tid = t) := Filing.queue_push _ _ t
      rw [hqueue t, hfile, List.append_assoc, ← List.filter_append]
      simp only [addables, List.filterMap_cons_some hx, List.singleton_append]

/-- An event that could be added is behind a failing one exactly when the loop does not get to
it. -/
theorem Added.noneBehind_iff {o : Overflow} {batch before behind : List (Host × BlockEvent)}
    {s s' : EventStream} {r : Except ProcessError Unit} (h : Added o batch s r s' before behind) :
    NoneBehind o batch ↔ addables o behind = [] := by
  rw [NoneBehind, h.split, List.pairwise_append, addables_eq_nil]
  constructor
  · rintro ⟨_, hbehind, _⟩
    rcases h.stop with ⟨_, rfl⟩ | ⟨x, after, rfl, hx⟩
    · simp
    · intro y hy
      rcases List.mem_cons.mp hy with rfl | hy
      · exact addable_of_fails hx
      · exact (List.pairwise_cons.mp hbehind).1 y hy hx
  · intro hnone
    refine ⟨?_, ?_, fun x hx y _ hfails => absurd hfails (h.before_ok x hx)⟩
    · exact List.pairwise_of_forall_mem_list fun x hx y _ hfails =>
        absurd hfails (h.before_ok x hx)
    · exact List.pairwise_of_forall_mem_list fun x _ y hy _ => hnone y hy

/-! ## The call -/

/-- What a call returns and leaves of the queues: what was queued, and what its loop added. -/
theorem Processes.account {o : Overflow} {decode : List Char → Option JvmEvent}
    {batch : List (Host × BlockEvent)} {ending : Ending} {s s' : EventStream}
    {r : Except ProcessError (List Pair)} (h : Processes o decode batch ending s r s') :
    ∃ added m before behind, Added o batch s added m before behind ∧
      ∀ t, (reported (pairsOf r)).filter (·.tid = t) ++ s'.bpfEvents.queue t =
        m.bpfEvents.queue t := by
  cases h with
  | failed hadd =>
    obtain ⟨before, behind, hadded⟩ := hadd.added_split
    exact ⟨_, _, before, behind, hadded, fun _ => rfl⟩
  | unread hadd _ =>
    obtain ⟨before, behind, hadded⟩ := hadd.added_split
    exact ⟨_, _, before, behind, hadded, fun _ => rfl⟩
  | swept hadd _ _ hsweep =>
    obtain ⟨before, behind, hadded⟩ := hadd.added_split
    exact ⟨_, _, before, behind, hadded, (sweep_account hsweep).reported⟩

/-- **A call of `process` keeps every event that could be added exactly when none of them is
behind one that fails**, whatever it returns. -/
theorem batch_kept_iff {o : Overflow} {decode : List Char → Option JvmEvent}
    {batch : List (Host × BlockEvent)} {ending : Ending} {s s' : EventStream}
    {r : Except ProcessError (List Pair)}
    (h : processBatch o decode batch ending s = some (r, s')) :
    BatchKept o batch s r s' ↔ NoneBehind o batch := by
  obtain ⟨added, m, before, behind, hadded, hleft⟩ := (processes_of_processBatch h).account
  rw [hadded.noneBehind_iff]
  have hparts : ∀ t, (addables o batch).filter (·.tid = t) =
      (addables o before).filter (·.tid = t) ++ (addables o behind).filter (·.tid = t) := by
    intro t
    rw [hadded.split, addables, List.filterMap_append, List.filter_append]
    rfl
  constructor
  · intro hkept
    refine List.eq_nil_iff_forall_not_mem.mpr fun e he => ?_
    -- the thread of a lost event has more events to account for than are left of it
    have hlen := (hkept.kept e.tid).length_le
    rw [hleft, hadded.queue, hparts, List.length_append, List.length_append, List.length_append]
      at hlen
    have hpos : 0 < ((addables o behind).filter (·.tid = e.tid)).length :=
      List.length_pos_of_mem (List.mem_filter.mpr ⟨he, by simp⟩)
    omega
  · intro hnone
    refine ⟨fun x _ m e m' hcall => addBpfEventCall_error hcall, fun t => ?_⟩
    rw [hleft, hadded.queue, hparts, hnone, List.filter_nil, List.append_nil]

/-- A host on which the stack of an id is the id, and the symbolizer fails on that of id 2. -/
def sampleUnsymbolized : Host :=
  { sampleHost 5000000 5 with
    stackTrace := fun id => some [id.toUInt64]
    symbolize := fun _ stack => if stack = [2] then none else some [] }

/-- A wake of thread 7 whose user stack the symbolizer fails on, then one of thread 8 that can be
added. -/
def sampleBatch : List (Host × BlockEvent) :=
  [(sampleUnsymbolized, { sampleBlock 7 5000000 with kernelStackId := 1, userStackId := 2 }),
    (sampleUnsymbolized, { sampleBlock 8 5000000 with kernelStackId := 3, userStackId := 4 })]

/-- A reader with nothing to read, and a sweep of the two threads. -/
def sampleEnding : Ending := ⟨[], true, 5, [8]⟩

theorem sampleBatch_processed :
    processBatch .abort sampleDecode sampleBatch sampleEnding .new =
      some (.error (.add .symbolize), .new) := rfl

theorem batch_kept_iff_sampleBatch :
    BatchKept .abort sampleBatch .new (.error (.add .symbolize)) .new ↔
      NoneBehind .abort sampleBatch := batch_kept_iff sampleBatch_processed

/-- The symbolizer's failure on the stack of thread 7 costs the event of thread 8. -/
theorem sampleBatch_not_kept :
    ¬ ∀ r s', processBatch .abort sampleDecode sampleBatch sampleEnding .new = some (r, s') →
      BatchKept .abort sampleBatch .new r s' := by
  intro hall
  have hlen := ((hall _ _ sampleBatch_processed).kept 8).length_le
  exact absurd hlen (by decide)

/-! ## The call as steps of the monitor -/

/-- The steps of the monitor for a batch: events are added up to the first that fails, and behind
the last one the JVM queues are filled and swept. -/
def batchActs (o : Overflow) : List (Host × BlockEvent) → Ending → List Act
  | [], ending =>
    if ending.ok then [.fill ending.text true, .sweep ending.now ending.order]
    else [.fill ending.text false]
  | x :: batch, ending =>
    match toBpfEvent o x.1 x.2 with
    | some (.error _) => [.add x.1]
    | _ => .add x.1 :: batchActs o batch ending

/-- Where steps of a call take the monitor: to a stage, with a stream, having returned `ret`. -/
structure Monitor.Goes (m : Monitor) (stage : Stage) (stream : EventStream) (ret : List Pair)
    (m' : Monitor) : Prop where
  buffers : m'.perfBuffers = m.perfBuffers
  stage : m'.stage = stage
  stream : m'.history.stream = stream
  returned : m'.history.returned = m.history.returned ++ ret

theorem Monitor.Goes.trans {m₁ m₂ m₃ : Monitor} {stage₂ stage₃ : Stage}
    {s₂ s₃ : EventStream} {ret₂ ret₃ : List Pair} (h₂ : m₁.Goes stage₂ s₂ ret₂ m₂)
    (h₃ : m₂.Goes stage₃ s₃ ret₃ m₃) : m₁.Goes stage₃ s₃ (ret₂ ++ ret₃) m₃ where
  buffers := h₃.buffers.trans h₂.buffers
  stage := h₃.stage
  stream := h₃.stream
  returned := by rw [h₃.returned, h₂.returned, List.append_assoc]

section Steps

variable {o : Overflow} (decode : List Char → Option JvmEvent) {m : Monitor}

/-- An event that can be added is one step. -/
theorem Monitor.step_add {x : Host × BlockEvent} {batch : List (Host × BlockEvent)}
    {e : BpfEvent} (hstage : m.stage = .adding ((x :: batch).map Prod.snd))
    (hmake : toBpfEvent o x.1 x.2 = some (.ok e)) (hcount : (m.history.stream.countUp o).isSome) :
    ∃ next, m.step o decode (.add x.1) = some next ∧
      m.Goes (.adding (batch.map Prod.snd)) (m.history.stream.file e) [] next := by
  have hadd := addBpfEvent_of_made hmake hcount
  simp only [Monitor.step, hstage, List.map_cons, hadd, History.step, hmake, Option.map_some]
  exact ⟨_, rfl, rfl, rfl, rfl, (List.append_nil _).symm⟩

theorem Monitor.step_add_error {x : Host × BlockEvent} {batch : List (Host × BlockEvent)}
    {e : AddError} (hstage : m.stage = .adding ((x :: batch).map Prod.snd))
    (hmake : toBpfEvent o x.1 x.2 = some (.error e)) :
    ∃ next, m.step o decode (.add x.1) = some next ∧
      m.Goes (Monitor.begin m.perfBuffers.length) m.history.stream [] next := by
  have hadd : m.history.stream.addBpfEvent o x.1 x.2 = some (.error e) := by
    rw [EventStream.addBpfEvent, hmake]
  simp only [Monitor.step, hstage, List.map_cons, hadd]
  exact ⟨_, rfl, rfl, rfl, rfl, (List.append_nil _).symm⟩

theorem Monitor.step_fill (o : Overflow) (hstage : m.stage = .adding []) (text : List Char)
    (ok : Bool) :
    ∃ next, m.step o decode (.fill text ok) = some next ∧
      m.Goes (if ok then .sweeping else Monitor.begin m.perfBuffers.length)
        { m.history.stream with
          jvmEvents := fillQueue decode text m.history.stream.jvmEvents } [] next := by
  simp only [Monitor.step, hstage, History.step, Option.map_some]
  exact ⟨_, rfl, rfl, rfl, rfl, (List.append_nil _).symm⟩

theorem Monitor.step_sweep {now : UInt64} {order : List UInt32} {out : Swept}
    (hstage : m.stage = .sweeping) (hv : m.history.stream.bpfEvents.Visits order)
    (hsweep : m.history.stream.sweep o now order = some out) :
    ∃ next, m.step o decode (.sweep now order) = some next ∧
      m.Goes (Monitor.begin m.perfBuffers.length) out.stream out.returned next := by
  simp only [Monitor.step, hstage, History.step, if_pos hv, hsweep, Option.map_some]
  exact ⟨_, rfl, rfl, rfl, rfl, rfl⟩

/-- The end of a call. -/
theorem monitor_of_ending {ending : Ending} {s' : EventStream}
    {r : Except ProcessError (List Pair)} (hstage : m.stage = .adding [])
    (h : Processes o decode [] ending m.history.stream r s') :
    ∃ m', exec (Monitor.step o decode) m (batchActs o [] ending) = some m' ∧
      m.Goes (Monitor.begin m.perfBuffers.length) s' (pairsOf r) m' := by
  obtain ⟨filled, hfill, hfilled⟩ := Monitor.step_fill decode o hstage ending.text ending.ok
  cases h with
  | failed hadd => cases hadd
  | unread hadd hok =>
    cases hadd
    rw [hok] at hfill hfilled
    rw [batchActs, hok]
    exact ⟨filled, exec_cons.mpr ⟨filled, hfill, rfl⟩, hfilled⟩
  | swept hadd hok hv hsweep =>
    cases hadd
    rw [hok] at hfill hfilled
    rw [← hfilled.stream] at hsweep
    have hv' : filled.history.stream.bpfEvents.Visits ending.order := by
      rw [hfilled.stream]
      exact hv
    obtain ⟨m', hstep, hgoes⟩ := Monitor.step_sweep decode hfilled.stage hv' hsweep
    rw [hfilled.buffers] at hgoes
    rw [batchActs, if_pos hok]
    exact ⟨m', exec_cons.mpr ⟨filled, hfill, exec_cons.mpr ⟨m', hstep, rfl⟩⟩, hfilled.trans hgoes⟩

/-- **A call of `process` behind its reads is a run of the monitor.** -/
theorem monitor_of_processes {batch : List (Host × BlockEvent)} {ending : Ending}
    {s' : EventStream} {r : Except ProcessError (List Pair)}
    (hstage : m.stage = .adding (batch.map Prod.snd))
    (h : Processes o decode batch ending m.history.stream r s') :
    ∃ m', exec (Monitor.step o decode) m (batchActs o batch ending) = some m' ∧
      m.Goes (Monitor.begin m.perfBuffers.length) s' (pairsOf r) m' := by
  induction batch generalizing m with
  | nil => exact monitor_of_ending decode hstage h
  | cons x batch ih =>
    -- the first round of the loop, and what is left of the call after it
    have round : (∃ e, toBpfEvent o x.1 x.2 = some (.error e) ∧ pairsOf r = [] ∧
          s' = m.history.stream) ∨
        ∃ e, toBpfEvent o x.1 x.2 = some (.ok e) ∧ (m.history.stream.countUp o).isSome ∧
          Processes o decode batch ending (m.history.stream.file e) r s' := by
      cases h with
      | failed hadd =>
        cases hadd with
        | failed hmake => exact .inl ⟨_, hmake, rfl, rfl⟩
        | added hmake hcount hadd => exact .inr ⟨_, hmake, hcount, .failed hadd⟩
      | unread hadd hok =>
        cases hadd with
        | added hmake hcount hadd => exact .inr ⟨_, hmake, hcount, .unread hadd hok⟩
      | swept hadd hok hv hsweep =>
        cases hadd with
        | added hmake hcount hadd => exact .inr ⟨_, hmake, hcount, .swept hadd hok hv hsweep⟩
    rw [batchActs]
    rcases round with ⟨e, hmake, hret, rfl⟩ | ⟨e, hmake, hcount, hrest⟩
    · obtain ⟨m', hstep, hgoes⟩ := Monitor.step_add_error decode hstage hmake
      rw [hmake, hret]
      exact ⟨m', exec_cons.mpr ⟨m', hstep, rfl⟩, hgoes⟩
    · obtain ⟨next, hstep, hnext⟩ := Monitor.step_add decode hstage hmake hcount
      rw [← hnext.stream] at hrest
      obtain ⟨m', hexec, hgoes⟩ := ih hnext.stage hrest
      rw [hnext.buffers] at hgoes
      rw [hmake]
      exact ⟨m', exec_cons.mpr ⟨next, hstep, hexec⟩, hnext.trans hgoes⟩

end Steps

end Jbm
