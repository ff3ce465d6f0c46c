import Jbm.Base.Buffers
import Jbm.Laws.Ebpf.Overlap
import Jbm.Laws.Stream.Arrival
import Jbm.System

/-!
# The system refines its parts

A run of the whole system is a run of the kernel, a run of the monitor and a run of the stream. The
monitor assumes two things of the kernel: that what it finds in a perf buffer is an event, which is
the round trip of the samples, and that a thread id's events have strictly increasing ends, which
the kernel guarantees when blocks of length zero are not reported (`1 ≤ minBlockUs`).

`System.Sound` is the invariant behind this. It also says that no step of `process` reads a sample
past its end.
-/

set_option autoImplicit false

namespace Jbm

open Base

/-! ## What a step of the kernel does to its outputs -/

/-- A switch outputs what `try_jbm` outputs, and the clock shows its time. -/
theorem Kernel.switch_outputs {config : Config} {s s' : Kernel} {cpu : Nat} {prev next : TaskStruct}
    {exits : Bool} {h : Helpers} (hstep : s.step config (.switch cpu next exits h) = some s')
    (hprev : s.running[cpu]? = some prev) :
    s'.outputs = s.outputs ++ (tryJbm config prev next h s.startTimes).output ∧
      s'.running.length = s.running.length ∧ s'.clock = h.tEnd ∧ h.ts ≤ h.tEnd := by
  simp only [Kernel.step, hprev] at hstep
  split at hstep
  · next hsw =>
    cases hstep
    exact ⟨by simp [Kernel.outputs], by simp, rfl, hsw.2.2.2⟩
  · cases hstep

theorem Kernel.fork_outputs {config : Config} {s s' : Kernel} {t : TaskStruct}
    (hstep : s.step config (.fork t) = some s') :
    s'.outputs = s.outputs ∧ s'.running = s.running ∧ s'.clock = s.clock := by
  cases Kernel.steps_of_step hstep with
  | fork _ _ => exact ⟨rfl, rfl, rfl⟩

/-- An event that ends after those of its thread goes into the buffer of its CPU. -/
theorem Monitor.step_wake {o : Overflow} {decode : List Char → Option JvmEvent} {m : Monitor}
    {cpu : Nat} {event : BlockEvent} (hcpu : cpu < m.perfBuffers.length)
    (hlater : ∀ e ∈ m.woken, e.pid = event.pid → e.tEnd < event.tEnd) :
    m.step o decode (.wake cpu event) = some
      { m with
        perfBuffers := m.perfBuffers.modify cpu (· ++ [event])
        woken := m.woken ++ [event] } := if_pos ⟨hcpu, hlater⟩

/-- A step of the monitor is one of its stream, or none. -/
theorem Monitor.step_history {o : Overflow} {decode : List Char → Option JvmEvent}
    {m m' : Monitor} {act : Act} (h : m.step o decode act = some m') :
    m'.history = m.history ∨ ∃ op, m.history.step o decode op = some m'.history := by
  cases Monitor.steps_of_step h with
  | wake _ => exact .inl rfl
  | read _ _ => exact .inl rfl
  | join _ => exact .inl rfl
  | added _ hadd => exact .inr ⟨_, History.step_of_steps hadd⟩
  | failed => exact .inl rfl
  | fill hfill => exact .inr ⟨_, History.step_of_steps hfill⟩
  | sweep hsweep => exact .inr ⟨_, History.step_of_steps hsweep⟩

/-! ## The invariant -/

namespace System

variable {M : StackMap} {cap : Nat}

/-- What holds of every reachable system. -/
structure Sound (config : Config) (s : System M cap) : Prop where
  sequenced : s.kernel.Sequenced config
  /-- every CPU has its perf buffer -/
  cpus : s.rings.length = s.kernel.running.length
  clock : s.kernel.clock ≤ s.clock
  outputs : s.wakes.map Wake.event = s.kernel.outputs
  /-- every sample is a whole event -/
  samples : ∀ ring ∈ s.rings, ∀ sample ∈ ring, (readSample sample).isSome

theorem sound_boot {config : Config} (b : Boot config) : (System.boot M b).Sound config where
  sequenced := Kernel.sequenced_boot b
  cpus := List.length_replicate
  clock := UInt64.le_refl _
  outputs := rfl
  samples ring hring := by
    rw [List.eq_of_mem_replicate hring]
    simp

/-- A step of `process` on the events behind the buffers keeps the invariant. -/
theorem Sound.adopt {config : Config} {s : System M cap} (hs : s.Sound config) (m : Monitor) :
    (s.adopt m).Sound config :=
  ⟨hs.sequenced, hs.cpus, hs.clock, hs.outputs, hs.samples⟩

theorem Sound.afterAdd {config : Config} {s : System M cap} (hs : s.Sound config) (m : Monitor) :
    (s.afterAdd m).Sound config := by
  unfold System.afterAdd
  split
  · exact ⟨hs.sequenced, hs.cpus, hs.clock, hs.outputs, hs.samples⟩
  · exact ⟨hs.sequenced, hs.cpus, hs.clock, hs.outputs, hs.samples⟩

@[simp] theorem afterAdd_clock (s : System M cap) (m : Monitor) : (s.afterAdd m).clock = s.clock := by
  unfold System.afterAdd
  split <;> rfl

/-- What a switch puts into a perf buffer is an event. -/
theorem Sound.emit_samples {config : Config} {s : System M cap} (hs : s.Sound config) (cpu : Nat)
    (output : List BlockEvent) (walks : Walks) (padding : List UInt8) (lost : Bool) :
    ∀ ring ∈ (s.emit cpu output walks padding lost).rings, ∀ sample ∈ ring,
      (readSample sample).isSome := by
  intro ring hring sample hsample
  cases lost with
  | true => exact hs.samples ring hring sample hsample
  | false =>
    obtain ⟨i, hi, rfl⟩ := List.mem_iff_getElem.mp hring
    have hi' : i < s.rings.length := by simpa [System.emit] using hi
    have hold := hs.samples _ (List.getElem_mem hi')
    simp only [System.emit, Bool.false_eq_true, if_false, List.getElem_modify] at hsample
    split at hsample
    · rcases List.mem_append.mp hsample with hsample | hsample
      · exact hold sample hsample
      · obtain ⟨event, _, rfl⟩ := List.mem_map.mp hsample
        simp
    · exact hold sample hsample

theorem Sound.step {config : Config} {o : Overflow} {decode : List Char → Option JvmEvent}
    {s s' : System M cap} {op : SystemOp} (hs : s.Sound config)
    (h : Steps config o decode s op s') : s'.Sound config := by
  cases h with
  | fork hk =>
    obtain ⟨hout, hrun, hclock⟩ := Kernel.fork_outputs hk
    have hseq := hs.sequenced.step (Kernel.steps_of_step hk)
    exact ⟨hseq, by rw [hrun]; exact hs.cpus, by rw [hclock]; exact hs.clock,
      by rw [hout]; exact hs.outputs, hs.samples⟩
  | @switch cpu prev next exits h walks padding lost kernel answered output hprev hclock hans
      houtput hk =>
    obtain ⟨hout, hrun, hnow, hts⟩ := Kernel.switch_outputs hk hprev
    have hseq := hs.sequenced.step (Kernel.steps_of_step hk)
    have htEnd : answered.1.tEnd = h.tEnd := by rw [hans, stackIds_tEnd]
    refine ⟨hseq, ?_, ?_, ?_, fun ring hring sample hsample => ?_⟩
    · rw [hrun, ← hs.cpus]
      cases lost <;> simp [System.emit]
    · rw [hnow, htEnd]
      exact UInt64.le_refl _
    · rw [hout, ← houtput, ← hs.outputs]
      simp [System.emit, Function.comp_def]
    · exact hs.emit_samples cpu output walks padding lost ring hring sample hsample
  | @read cpu results ring events _ hring _ _ =>
    refine ⟨hs.sequenced, by simpa using hs.cpus, hs.clock, hs.outputs, fun ring' hring' => ?_⟩
    rcases List.mem_or_eq_of_mem_set hring' with hmem | rfl
    · exact hs.samples ring' hmem
    · intro sample hsample
      exact hs.samples ring (List.mem_of_getElem? hring) sample (List.mem_of_mem_drop hsample)
  | @add host m hclock _ =>
    have hadd := (hs.afterAdd m).adopt m
    refine ⟨hadd.sequenced, hadd.cpus, UInt64.le_trans hadd.clock ?_, hadd.outputs, hadd.samples⟩
    rw [System.adopt, afterAdd_clock]
    exact hclock
  | join _ => exact hs.adopt _
  | fill _ => exact hs.adopt _
  | sweep _ => exact hs.adopt _

/-- Every reachable system is sound. -/
theorem sound_of_run {config : Config} {b : Boot config} {o : Overflow}
    {decode : List Char → Option JvmEvent} {ops : List SystemOp} {s : System M config.stackCap}
    (h : System.run M b o decode ops = some s) : s.Sound config :=
  exec_keeps (fun _ _ _ hI hstep => hI.step (steps_of_step hstep)) (sound_boot b) h

/-! ## The three views -/

section Views

variable {config : Config} {o : Overflow} {decode : List Char → Option JvmEvent}

@[simp] theorem afterAdd_kernel (s : System M cap) (m : Monitor) :
    (s.afterAdd m).kernel = s.kernel := by
  unfold System.afterAdd
  split <;> rfl

/-- A step of the system is one of its kernel, or none. -/
theorem refines_kernel :
    Refines (@System.step M cap config o decode) (fun _ => True) (Kernel.step config)
      System.kernel where
  keep _ _ _ _ _ := trivial
  sim s op s' _ hstep := by
    cases steps_of_step hstep with
    | fork hk => exact .inr ⟨_, hk⟩
    | switch _ _ _ _ hk => exact .inr ⟨_, hk⟩
    | read _ _ _ _ => exact .inl rfl
    | add _ _ => exact .inl (afterAdd_kernel _ _)
    | join _ => exact .inl rfl
    | fill _ => exact .inl rfl
    | sweep _ => exact .inl rfl

/-- A step of the system is one of its stream, or none. -/
theorem refines_history :
    Refines (@System.step M cap config o decode) (fun _ => True) (History.step o decode)
      System.history where
  keep _ _ _ _ _ := trivial
  sim s op s' _ hstep := by
    cases steps_of_step hstep with
    | fork _ => exact .inl rfl
    | switch _ _ _ _ _ => exact .inl rfl
    | read _ _ _ _ => exact .inl rfl
    | add _ hm => exact Monitor.step_history hm
    | join hm => exact Monitor.step_history hm
    | fill hm => exact Monitor.step_history hm
    | sweep hm => exact Monitor.step_history hm

/-- A step of `process` behind its reads leaves the buffers alone. -/
theorem monitor_adopt {s : System M cap} {act : Act} {m : Monitor}
    (h : s.monitor.step o decode act = some m) (hwake : ∀ cpu event, act ≠ .wake cpu event)
    (hread : ∀ cpu, act ≠ .read cpu) : (s.adopt m).monitor = m := by
  cases Monitor.steps_of_step h with
  | wake _ => exact absurd rfl (hwake _ _)
  | read _ _ => exact absurd rfl (hread _)
  | join _ => rfl
  | added _ _ => rfl
  | failed => rfl
  | fill _ => rfl
  | sweep _ => rfl

/-- A new event of a thread ends after those delivered before. -/
theorem Sound.wakes_later {s s' : System M cap} {event : BlockEvent}
    (hs : s.Sound config) (hs' : s'.Sound config) (hmin : 1 ≤ config.minBlockUs)
    (h : s'.kernel.outputs = s.kernel.outputs ++ [event]) :
    ∀ e ∈ s.delivered, e.pid = event.pid → e.tEnd < event.tEnd := by
  intro e he hpid
  have hmem : e ∈ s.kernel.outputs := by
    rw [← hs.outputs]
    obtain ⟨w, hw, rfl⟩ := List.mem_map.mp he
    exact List.mem_map_of_mem (List.mem_of_mem_filter hw)
  have hfollows := hs'.sequenced.follows
  have hlong := hs'.sequenced.lasts
  rw [h] at hfollows hlong
  have hstart := (List.pairwise_append.mp hfollows).2.2 e hmem event List.mem_cons_self hpid
  have hend := (hlong event (List.mem_append_right _ List.mem_cons_self)).long
  rw [UInt64.lt_iff_toNat_lt]
  rw [UInt64.le_iff_toNat_le] at hstart hmin
  have hone : (1 : UInt64).toNat = 1 := rfl
  omega

/-- The monitor's view of what a switch leaves. -/
theorem monitor_emit (s : System M cap) (cpu : Nat) (output : List BlockEvent) (walks : Walks)
    (padding : List UInt8) (lost : Bool) :
    (s.emit cpu output walks padding lost).monitor =
      if lost then s.monitor
      else { s.monitor with
        perfBuffers := s.monitor.perfBuffers.modify cpu (· ++ output)
        woken := s.monitor.woken ++ output } := by
  cases lost with
  | true => simp [System.monitor, System.delivered, System.emit]
  | false =>
    have hread : ∀ ring : List (List UInt8),
        (ring ++ output.map (sampleOf · padding)).filterMap readSample =
          ring.filterMap readSample ++ output := by
      intro ring
      simp [List.filterMap_map]
    have hrings : (s.rings.modify cpu (· ++ output.map (sampleOf · padding))).map
        (List.filterMap readSample) = (s.rings.map (List.filterMap readSample)).modify cpu
          (· ++ output) := map_modify hread s.rings cpu
    simp [System.monitor, System.delivered, System.emit, hrings, List.filter_map, Function.comp_def]

/-- The monitor's view of a read. -/
theorem Sound.monitor_read {s : System M cap} (hs : s.Sound config) {cpu : Nat}
    {results : List (Option (List BlockEvent))} {ring : List (List UInt8)}
    {events : List BlockEvent} (hstage : s.stage = .reading results)
    (hring : s.rings[cpu]? = some ring) (hres : results[cpu]? = some none)
    (hevents : (ring.take readBatch).mapM readSample = some events) :
    s.monitor.step o decode (.read cpu) = some (System.monitor
      { s with
        rings := s.rings.set cpu (ring.drop readBatch)
        stage := .reading (results.set cpu (some events)) }) := by
  have hsamples := hs.samples ring (List.mem_of_getElem? hring)
  have htake : events = (ring.filterMap readSample).take readBatch := by
    rw [mapM_eq_filterMap fun x hx => hsamples x (List.mem_of_mem_take hx),
      filterMap_take hsamples, Option.some.injEq] at hevents
    exact hevents.symm
  have hbuffer : s.monitor.perfBuffers[cpu]? = some (ring.filterMap readSample) := by
    simp [System.monitor, hring]
  have hview : s.monitor.stage = .reading results := hstage
  simp only [Monitor.step, hview, hbuffer, hres, if_true]
  simp [System.monitor, System.delivered, htake, filterMap_drop hsamples]

/-- The monitor's view of an `add_bpf_event`. -/
theorem monitor_add {s : System M cap} {host : Host} {m : Monitor}
    (h : s.monitor.step o decode (.add (s.hostOf host)) = some m) :
    System.monitor { (s.afterAdd m).adopt m with clock := host.nowKtime } = m := by
  have hview : System.monitor { (s.afterAdd m).adopt m with clock := host.nowKtime } =
      (s.adopt m).monitor := by
    unfold System.afterAdd
    split <;> rfl
  rw [hview]
  exact monitor_adopt h (by simp) (by simp)

/-- When blocks of length zero are not reported, a step of the system is one of the monitor on the
events behind the samples, or none. -/
theorem refines_monitor (hmin : 1 ≤ config.minBlockUs) :
    Refines (@System.step M cap config o decode) (Sound config) (Monitor.step o decode)
      System.monitor where
  keep _ _ _ hs hstep := hs.step (steps_of_step hstep)
  sim s op s' hs hstep := by
    have hs' := hs.step (steps_of_step hstep)
    cases steps_of_step hstep with
    | fork hk => exact .inl rfl
    | @switch cpu prev next exits h walks padding lost kernel answered output hprev hclock hans
        houtput hk =>
      obtain ⟨hout, _, _, _⟩ := Kernel.switch_outputs hk hprev
      rw [← houtput] at hout
      have hview := monitor_emit s cpu output walks padding lost
      cases lost with
      | true => exact .inl hview
      | false =>
        rcases (probes_tryJbm config prev next answered.1 s.kernel.startTimes).output_cases with
          hnone | ⟨event, hone, _⟩
        · -- nothing to report: the buffers are as they were
          have hsame : s.monitor.perfBuffers.modify cpu (· ++ []) = s.monitor.perfBuffers := by
            have hid : (fun buffer : List BlockEvent => buffer ++ []) = id := by
              funext buffer
              exact List.append_nil buffer
            rw [hid, List.modify_id]
          rw [houtput, hnone, hsame, List.append_nil] at hview
          rw [houtput, hnone]
          exact .inl hview
        · rw [← houtput] at hone
          rw [hone] at hout hview
          have hcpu : cpu < s.monitor.perfBuffers.length := by
            obtain ⟨hlt, _⟩ := List.getElem?_eq_some_iff.mp hprev
            simpa [System.monitor, hs.cpus] using hlt
          have hwake := @Monitor.step_wake o decode _ _ _ hcpu (hs.wakes_later hs' hmin hout)
          rw [hone]
          exact .inr ⟨.wake cpu event, hwake.trans (congrArg some hview.symm)⟩
    | read hstage hring hres hevents =>
      exact .inr ⟨_, hs.monitor_read hstage hring hres hevents⟩
    | add _ hm => exact .inr ⟨_, hm.trans (congrArg some (monitor_add hm).symm)⟩
    | join hm =>
      exact .inr ⟨_, hm.trans (congrArg some (monitor_adopt hm (by simp) (by simp)).symm)⟩
    | fill hm =>
      exact .inr ⟨_, hm.trans (congrArg some (monitor_adopt hm (by simp) (by simp)).symm)⟩
    | sweep hm =>
      exact .inr ⟨_, hm.trans (congrArg some (monitor_adopt hm (by simp) (by simp)).symm)⟩

end Views

end System

/-- **The system refines its parts**: every run of it is a run of the kernel and a run of the
stream, and, where blocks of length zero are not reported, a run of the monitor on the events
behind the samples. In every state reached each sample in a perf buffer is a whole event. -/
theorem system_refines {M : StackMap} {config : Config} {b : Boot config} {o : Overflow}
    {decode : List Char → Option JvmEvent} {ops : List SystemOp} {s : System M config.stackCap}
    (h : System.run M b o decode ops = some s) :
    (∃ kernelOps, Kernel.run b kernelOps = some s.kernel) ∧
      (∃ streamOps, History.run o decode streamOps = some s.history) ∧
      (1 ≤ config.minBlockUs →
        ∃ acts, Monitor.run o decode b.running.length acts = some s.monitor) ∧
      ∀ ring ∈ s.rings, ∀ sample ∈ ring, ∃ event padding, sample = sampleOf event padding := by
  refine ⟨System.refines_kernel.run trivial h, System.refines_history.run trivial h, fun hmin => ?_,
    fun ring hring sample hsample => ?_⟩
  · have hrun := (System.refines_monitor hmin).run (System.sound_boot b) h
    have hnew : (System.boot M b).monitor = Monitor.new b.running.length := by
      simp [System.monitor, System.boot, System.delivered, Monitor.new]
    rwa [hnew] at hrun
  · obtain ⟨event, hevent⟩ :=
      Option.isSome_iff_exists.mp ((System.sound_of_run h).samples ring hring sample hsample)
    exact ⟨event, eq_sampleOf_of_readSample hevent⟩

theorem system_refines_sampleSystem :
    let s := sampleSystemEnd
    (∃ kernelOps, Kernel.run sampleBoot kernelOps = some s.kernel) ∧
      (∃ streamOps, History.run .abort sampleDecode streamOps = some s.history) ∧
      (1 ≤ sampleConfig.minBlockUs →
        ∃ acts, Monitor.run .abort sampleDecode sampleBoot.running.length acts = some s.monitor) ∧
      ∀ ring ∈ s.rings, ∀ sample ∈ ring, ∃ event padding, sample = sampleOf event padding :=
  system_refines (Option.some_get sampleSystem_runs).symm

end Jbm
