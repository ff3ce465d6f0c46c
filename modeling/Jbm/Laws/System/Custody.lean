import Jbm.Laws.System.Refines

/-!
# Where an event is

Every event the eBPF program outputs is, at any moment, in exactly one place: lost by its perf
buffer, in it, in the hands of the current call of `process`, dropped by a call that failed, or
added to the stream. The account is a permutation, so nothing is doubled either; from the stream on,
the order of each thread is kept as well (`bpf_reported_once` for its stream).
-/

set_option autoImplicit false

namespace Jbm

open Base

/-- `add_bpf_event` is called on the next event of a batch. -/
theorem Monitor.stage_of_add {o : Overflow} {decode : List Char → Option JvmEvent}
    {m m' : Monitor} {host : Host} (h : m.step o decode (.add host) = some m') :
    ∃ event batch, m.stage = .adding (event :: batch) ∧
      (m'.stage = .adding batch ∧ (∃ e, toBpfEvent o host event = some (.ok e) ∧
          m'.history.added = m.history.added ++ [(event, e)]) ∨
        m'.stage = Monitor.begin m.perfBuffers.length ∧ m'.history = m.history) := by
  simp only [Monitor.step] at h
  split at h
  · next event batch hstage =>
    refine ⟨event, batch, hstage, ?_⟩
    split at h
    · cases h
    · cases h
      exact .inr ⟨rfl, rfl⟩
    · obtain ⟨history, hadd, rfl⟩ := Option.map_eq_some_iff.mp h
      cases History.steps_of_step hadd with
      | add he => exact .inl ⟨rfl, _, he, rfl⟩
  · cases h

/-- `fill_queue` comes behind the last event of a batch. -/
theorem Monitor.stage_of_fill {o : Overflow} {decode : List Char → Option JvmEvent}
    {m m' : Monitor} {text : List Char} {ok : Bool}
    (h : m.step o decode (.fill text ok) = some m') :
    m.stage = .adding [] ∧ m'.history.added = m.history.added ∧
      (m'.stage = .sweeping ∨ m'.stage = Monitor.begin m.perfBuffers.length) := by
  simp only [Monitor.step] at h
  split at h
  · next hstage =>
    obtain ⟨history, hfill, rfl⟩ := Option.map_eq_some_iff.mp h
    cases History.steps_of_step hfill with
    | fill => cases ok <;> simp [hstage]
  · cases h

theorem Monitor.stage_of_sweep {o : Overflow} {decode : List Char → Option JvmEvent}
    {m m' : Monitor} {now : UInt64} {order : List UInt32}
    (h : m.step o decode (.sweep now order) = some m') :
    m.stage = .sweeping ∧ m'.history.added = m.history.added ∧
      m'.stage = Monitor.begin m.perfBuffers.length := by
  simp only [Monitor.step] at h
  split at h
  · next hstage =>
    obtain ⟨history, hsweep, rfl⟩ := Option.map_eq_some_iff.mp h
    cases History.steps_of_step hsweep with
    | sweep _ _ => exact ⟨hstage, rfl, rfl⟩
  · cases h

theorem Monitor.stage_of_join {o : Overflow} {decode : List Char → Option JvmEvent}
    {m m' : Monitor} (h : m.step o decode .join = some m') :
    m'.stage.inHand = m.stage.inHand ∧ m'.history = m.history := by
  simp only [Monitor.step] at h
  split at h
  · next results hstage =>
    cases h
    rw [hstage]
    exact ⟨rfl, rfl⟩
  · cases h

/-- A call that begins has nothing in hand. -/
@[simp] theorem inHand_begin (cpus : Nat) : (Monitor.begin cpus).inHand = [] := by
  simp [Monitor.begin, Stage.inHand, batchOf, List.flatMap_replicate]

namespace System

variable {M : StackMap} {cap : Nat}

/-- The events the perf buffers had no room for. -/
def lost (s : System M cap) : List BlockEvent := (s.wakes.filter (·.lost)).map Wake.event

/-- The events in the perf buffers. -/
def buffered (s : System M cap) : List BlockEvent := s.rings.flatMap (List.filterMap readSample)

/-- The events added to the stream. -/
def added (s : System M cap) : List BlockEvent := s.history.added.map Prod.fst

/-- A call that adds its event drops nothing. -/
theorem afterAdd_added {s : System M cap} {m : Monitor} {batch : List BlockEvent}
    (h : m.stage = .adding batch) : s.afterAdd m =
      { s with
        warnings := s.warnings ++
          (storageWarning m.history.stream.eventCount (M.size s.stackTraces)).toList } := by
  simp only [afterAdd, h]

/-- A call that fails drops what it has in hand. -/
theorem afterAdd_failed {s : System M cap} {m : Monitor} {cpus : Nat}
    (h : m.stage = Monitor.begin cpus) :
    s.afterAdd m = { s with dropped := s.dropped ++ s.stage.inHand } := by
  simp only [afterAdd, h, Monitor.begin]

/-- Every event output is in one place. -/
structure Accounted (config : Config) (s : System M cap) : Prop where
  sound : s.Sound config
  account : s.kernel.outputs.Perm (s.lost ++ s.buffered ++ s.stage.inHand ++ s.dropped ++ s.added)

theorem accounted_boot {config : Config} (b : Boot config) : (System.boot M b).Accounted config where
  sound := sound_boot b
  account := by
    simp [System.boot, Kernel.boot, Kernel.outputs, lost, buffered, added, History.new,
      List.flatMap_replicate]

/-- What the account says of one event, as numbers. -/
theorem Accounted.count {config : Config} {s : System M cap} (hs : s.Accounted config)
    (e : BlockEvent) : s.kernel.outputs.count e = s.lost.count e + s.buffered.count e +
      s.stage.inHand.count e + s.dropped.count e + s.added.count e := by
  rw [hs.account.count_eq e]
  simp only [List.count_append]

/-- An account of numbers is one of events. -/
theorem Accounted.of_count {config : Config} {s : System M cap} (hs : s.Sound config)
    (h : ∀ e, s.kernel.outputs.count e = s.lost.count e + s.buffered.count e +
      s.stage.inHand.count e + s.dropped.count e + s.added.count e) : s.Accounted config := by
  refine ⟨hs, List.perm_iff_count.mpr fun e => ?_⟩
  rw [h e]
  simp only [List.count_append]

/-- A switch puts what it outputs into a perf buffer, or loses it. -/
theorem count_emit {s : System M cap} {cpu : Nat} (hcpu : cpu < s.rings.length)
    (output : List BlockEvent) (walks : Walks) (padding : List UInt8) (lost : Bool)
    (e : BlockEvent) : (s.emit cpu output walks padding lost).lost.count e +
        (s.emit cpu output walks padding lost).buffered.count e =
      s.lost.count e + s.buffered.count e + output.count e := by
  cases lost with
  | true =>
    simp [System.lost, buffered, emit, List.filter_map, Function.comp_def]
    omega
  | false =>
    have hread : ∀ ring : List (List UInt8),
        (ring ++ output.map (sampleOf · padding)).filterMap readSample =
          ring.filterMap readSample ++ output := by
      intro ring
      simp [List.filterMap_map]
    have hperm := (perm_flatMap_modify hcpu hread).count_eq e
    simp only [List.count_append] at hperm
    simp [System.lost, buffered, emit, List.filter_map, Function.comp_def, hperm]
    omega

/-- A read takes what it answers out of the perf buffer. -/
theorem count_read {config : Config} {s : System M cap} (hs : s.Sound config) {cpu : Nat}
    {results : List (Option (List BlockEvent))} {ring : List (List UInt8)}
    {events : List BlockEvent} (hring : s.rings[cpu]? = some ring)
    (hres : results[cpu]? = some none)
    (hevents : (ring.take readBatch).mapM readSample = some events) (e : BlockEvent) :
    ((s.rings.set cpu (ring.drop readBatch)).flatMap (List.filterMap readSample)).count e +
        (batchOf (results.set cpu (some events))).count e =
      s.buffered.count e + (batchOf results).count e := by
  have hsamples := hs.samples ring (List.mem_of_getElem? hring)
  have htake : events = (ring.take readBatch).filterMap readSample := by
    rw [mapM_eq_filterMap fun x hx => hsamples x (List.mem_of_mem_take hx), Option.some.injEq]
      at hevents
    exact hevents.symm
  have hsplit : (ring.filterMap readSample).count e =
      events.count e + ((ring.drop readBatch).filterMap readSample).count e := by
    rw [htake, ← List.count_append, ← List.filterMap_append, List.take_append_drop]
  have hrings := (perm_flatMap_set (f := List.filterMap readSample) (b := ring.drop readBatch)
    hring).count_eq e
  have hresults := (perm_flatMap_set (f := (·.getD [])) (b := some events) hres).count_eq e
  simp only [List.count_append, Option.getD_some, Option.getD_none, List.count_nil]
    at hrings hresults
  simp only [batchOf, buffered]
  omega

theorem Accounted.step {config : Config} {o : Overflow} {decode : List Char → Option JvmEvent}
    {s s' : System M cap} {op : SystemOp} (hs : s.Accounted config)
    (h : Steps config o decode s op s') : s'.Accounted config := by
  have hsound := hs.sound.step h
  refine .of_count hsound fun e => ?_
  have hcount := hs.count e
  cases h with
  | fork hk =>
    obtain ⟨hout, _, _⟩ := Kernel.fork_outputs hk
    rw [hout]
    exact hcount
  | @switch cpu prev next exits h walks padding lost kernel answered output hprev hclock hans
      houtput hk =>
    obtain ⟨hout, _, _, _⟩ := Kernel.switch_outputs hk hprev
    have hcpu : cpu < s.rings.length := by
      rw [hs.sound.cpus]
      exact (List.getElem?_eq_some_iff.mp hprev).1
    have hemit := count_emit hcpu output walks padding lost e
    rw [hout, ← houtput, List.count_append]
    simp only [System.lost, buffered, added] at hemit hcount ⊢
    simp only [emit] at hemit ⊢
    omega
  | @read cpu results ring events hstage hring hres hevents =>
    have hread := count_read hs.sound hring hres hevents e
    rw [hstage] at hcount
    simp only [System.lost, buffered, added, Stage.inHand] at hread hcount ⊢
    omega
  | @add host m _ hm =>
    obtain ⟨event, batch, hstage, ⟨hadded, entry, _, hentry⟩ | ⟨hfailed, hsame⟩⟩ :=
      Monitor.stage_of_add hm
    · change s.stage = _ at hstage
      change _ = s.history.added ++ _ at hentry
      rw [hstage] at hcount
      simp only [afterAdd_added hadded, adopt, hadded, System.lost, buffered, added, hentry,
        Stage.inHand, List.map_append, List.map_cons, List.map_nil, List.count_append,
        List.count_cons, List.count_nil] at hcount ⊢
      omega
    · change s.stage = _ at hstage
      change m.history = s.history at hsame
      simp only [afterAdd_failed hfailed, adopt, System.lost, buffered, added, hsame, hfailed,
        inHand_begin, List.count_append, List.count_nil] at hcount ⊢
      omega
  | @join m hm =>
    obtain ⟨hhand, hsame⟩ := Monitor.stage_of_join hm
    simp only [adopt, System.lost, buffered, added, hhand, hsame]
    exact hcount
  | @fill text ok m hm =>
    obtain ⟨hstage, hadded, hnext⟩ := Monitor.stage_of_fill hm
    change s.stage = _ at hstage
    have hhand : m.stage.inHand = s.stage.inHand := by
      rw [hstage]
      rcases hnext with hnext | hnext
      · rw [hnext]
        rfl
      · rw [hnext, inHand_begin]
        rfl
    simp only [adopt, System.lost, buffered, added, hhand, hadded]
    exact hcount
  | @sweep now order m hm =>
    obtain ⟨hstage, hadded, hnext⟩ := Monitor.stage_of_sweep hm
    change s.stage = _ at hstage
    have hhand : m.stage.inHand = s.stage.inHand := by
      rw [hstage, hnext, inHand_begin]
      rfl
    simp only [adopt, System.lost, buffered, added, hhand, hadded]
    exact hcount

/-- Every reachable system is accounted for. -/
theorem accounted_of_run {config : Config} {b : Boot config} {o : Overflow}
    {decode : List Char → Option JvmEvent} {ops : List SystemOp} {s : System M config.stackCap}
    (h : System.run M b o decode ops = some s) : s.Accounted config :=
  exec_keeps (fun _ _ _ hI hstep => hI.step (steps_of_step hstep)) (accounted_boot b) h

end System

/-- **No event is lost on the way, except where the code says so**: in every run of the system, the
events the eBPF program output are, each exactly once, those the perf buffers lost, those in the
buffers, those the current call of `process` has in hand, those that failing calls dropped, and
those added; and what the sweeps returned of a thread, followed by what is queued for it, is what
was added of it, in order. -/
theorem outputs_accounted {M : StackMap} {config : Config} {b : Boot config} {o : Overflow}
    {decode : List Char → Option JvmEvent} {ops : List SystemOp} {s : System M config.stackCap}
    (h : System.run M b o decode ops = some s) :
    s.kernel.outputs.Perm (s.lost ++ s.buffered ++ s.stage.inHand ++ s.dropped ++ s.added) ∧
      ∀ tid, (s.history.returned.map Prod.fst).filter (·.tid = tid) ++
        s.history.stream.bpfEvents.queue tid =
          (s.history.added.map Prod.snd).filter (·.tid = tid) := by
  obtain ⟨streamOps, hstream⟩ := System.refines_history.run trivial h
  exact ⟨(System.accounted_of_run h).account, (History.accounted_of_run hstream).reported⟩

theorem outputs_accounted_sampleSystem :
    let s := sampleSystemEnd
    s.kernel.outputs.Perm (s.lost ++ s.buffered ++ s.stage.inHand ++ s.dropped ++ s.added) ∧
      ∀ tid, (s.history.returned.map Prod.fst).filter (·.tid = tid) ++
        s.history.stream.bpfEvents.queue tid =
          (s.history.added.map Prod.snd).filter (·.tid = tid) :=
  outputs_accounted (Option.some_get sampleSystem_runs).symm

end Jbm
