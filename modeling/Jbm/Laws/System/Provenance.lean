import Jbm.Laws.Stream.Clocks
import Jbm.Laws.System.Custody

/-!
# Where a reported block comes from

Every pair a sweep returns goes back to one context switch: the thread that entered at it is of the
target process and has the id the pair names, the block's length is within the bounds, the name is
the thread's, and the addresses are those of the kernel stack and of the user stack the thread had
at that moment. The last needs that an id of the stack map is never given to another stack, which is
assumed of the map (`Retains`, `Names`). The timestamp of an event needs that the monotonic reading
of `add_bpf_event` is not before the block's end, a fact of whole runs of the system.
-/

set_option autoImplicit false

namespace Jbm

open Base

/-! ## What `add_bpf_event` makes of an event -/

/-- The resolver answers the addresses it was asked for. -/
theorem resolve_addresses {host : Host} {pid : UInt32} {stack : List UInt64}
    {frames : List (UInt64 × Option String)} (h : resolve host pid stack = .ok frames) :
    frames.map Prod.fst = stack := by
  unfold resolve at h
  split at h
  · cases h
  · cases h
    apply List.ext_getElem
    · simp
    · intro i hi hi'
      simp only [List.getElem_map, List.getElem_mapIdx]
      split <;> rfl

/-- The addresses of an event are its kernel stack, then its user stack. -/
theorem readFrames_addresses {host : Host} {event : BlockEvent} {frames : List (UInt64 × String)}
    (h : readFrames host event = .ok frames) : ∃ kernel user,
      host.stackTrace event.kernelStackId.toUInt64.toUInt32 = some kernel ∧
      host.stackTrace event.userStackId.toUInt64.toUInt32 = some user ∧
      frames.map Prod.fst = kernel ++ user := by
  unfold readFrames getStack at h
  cases hmap : host.stackTraceMap with
  | false =>
    rw [hmap] at h
    cases h
  | true =>
    rw [hmap] at h
    cases hkernel : host.stackTrace event.kernelStackId.toUInt64.toUInt32 with
    | none =>
      rw [hkernel] at h
      cases h
    | some kernel =>
      rw [hkernel] at h
      cases huser : host.stackTrace event.userStackId.toUInt64.toUInt32 with
      | none =>
        rw [huser] at h
        cases h
      | some user =>
        rw [huser] at h
        change ((resolve host event.tgid user).bind fun userFrames =>
          .ok (kernel.map (fun ip => (ip, (host.kernelSymbol ip).getD unknownSymbol)) ++
            userFrames.map (fun frame => (frame.1, frame.2.getD unknownSymbol)))) = .ok frames at h
        cases hres : resolve host event.tgid user with
        | error e =>
          rw [hres] at h
          cases h
        | ok userFrames =>
          rw [hres] at h
          cases h
          refine ⟨kernel, user, rfl, rfl, ?_⟩
          rw [← resolve_addresses hres]
          simp [Function.comp_def]

/-- The parts of the event that `add_bpf_event` makes. -/
theorem toBpfEvent_parts {o : Overflow} {host : Host} {event : BlockEvent} {e : BpfEvent}
    (h : toBpfEvent o host event = some (.ok e)) :
    e.pid = event.tgid ∧ e.duration = .fromMicros event.offtime ∧
      readFrames host event = .ok e.stacktrace ∧ readComm event.name = .ok e.comm ∧
      computeTimestamp o host.nowKtime host.now event.tEnd = some e.timestamp := by
  unfold toBpfEvent at h
  split at h
  · cases h
  · next frames hframes =>
    split at h
    · cases h
    · next comm hcomm =>
      obtain ⟨timestamp, htime, h⟩ := Option.map_eq_some_iff.mp h
      cases h
      exact ⟨rfl, rfl, hframes, hcomm, htime⟩

/-- `compute_timestamp` of an instant that is past: the wall time less the time since the instant,
in whole milliseconds, or a panic where that would be negative. -/
theorem computeTimestamp_of_le (o : Overflow) {nowKtime bpfKtime : UInt64} (now : UInt64)
    (hpast : bpfKtime ≤ nowKtime) : computeTimestamp o nowKtime now bpfKtime =
      if nowKtime.toNat - bpfKtime.toNat ≤ now.toNat * 1000000 then
        some (UInt64.ofNat
          ((now.toNat * 1000000 - (nowKtime.toNat - bpfKtime.toNat)) / 1000000))
      else none := by
  have hsub := UInt64.toNat_sub_of_le _ _ hpast
  have hwall : (Duration.fromMillis now).sub (Duration.fromNanos (nowKtime - bpfKtime)) =
      if nowKtime.toNat - bpfKtime.toNat ≤ now.toNat * 1000000 then
        some ⟨now.toNat * 1000000 - (nowKtime.toNat - bpfKtime.toNat)⟩
      else none := by
    rw [← hsub]
    rfl
  simp only [computeTimestamp, subU64_of_le o hpast, Option.bind_eq_bind, Option.bind_some, hwall]
  split <;> rfl

/-! ## From the switch to the stream -/

/-- The event is of the thread that enters at the switch. -/
structure Attributed (config : Config) (e : Switch) (event : BlockEvent) : Prop where
  target : e.next.tgid = config.targetTgid
  pid : event.pid = e.next.pid
  tgid : event.tgid = config.targetTgid
  tEnd : event.tEnd = e.helpers.tEnd
  name : e.helpers.comm = .ok event.name

/-- The event made of a block: the timestamp is computed at some later reading of the clocks. -/
structure Made (o : Overflow) (w : Wake) (e : BpfEvent) : Prop where
  pid : e.pid = w.event.tgid
  tid : e.tid = w.event.pid
  comm : readComm w.event.name = .ok e.comm
  duration : e.duration = .fromMicros w.event.offtime
  timestamp : ∃ nowKtime now, w.event.tEnd ≤ nowKtime ∧
    computeTimestamp o nowKtime now w.event.tEnd = some e.timestamp

namespace System

variable {M : StackMap} {cap : Nat}

/-- Where every event added comes from: it was made of a wake, in the way `R` says. -/
def FromWakes (R : Wake → BpfEvent → Prop) (s : System M cap) : Prop :=
  ∀ p ∈ s.history.added, ∃ w ∈ s.wakes, w.event = p.1 ∧ R w p.2

/-- What is known of everything output and added. -/
structure Traced (config : Config) (o : Overflow) (s : System M cap) : Prop where
  accounted : s.Accounted config
  attributed : ∀ e ∈ s.kernel.trace, ∀ event ∈ e.output, Attributed config e event
  made : s.FromWakes (Made o)

theorem traced_boot {config : Config} (b : Boot config) (o : Overflow) :
    (System.boot M b).Traced config o where
  accounted := accounted_boot b
  attributed _ he := by cases he
  made _ hp := by cases hp

/-- What is on its way to the stream was output. -/
theorem Accounted.wake_of_mem {config : Config} {s : System M cap} (hs : s.Accounted config)
    {event : BlockEvent} (h : event ∈ s.buffered ∨ event ∈ s.stage.inHand) :
    ∃ w ∈ s.wakes, w.event = event := by
  have hmem : event ∈ s.kernel.outputs := by
    apply hs.account.mem_iff.mpr
    rcases h with h | h <;> simp [h]
  rw [← hs.sound.outputs] at hmem
  exact List.mem_map.mp hmem

/-- What was output has ended. -/
theorem Sound.ended {config : Config} {s : System M cap} (hs : s.Sound config) {w : Wake}
    (hw : w ∈ s.wakes) : w.event.tEnd ≤ s.clock := by
  have hmem : w.event ∈ s.kernel.outputs := by
    rw [← hs.outputs]
    exact List.mem_map_of_mem hw
  exact UInt64.le_trans (hs.sequenced.ended _ hmem) hs.clock

/-- An event added is made of a wake that is on its way, so what holds of these holds of all events
added. -/
theorem Accounted.fromWakes {R : Wake → BpfEvent → Prop} {config : Config} {o : Overflow}
    {decode : List Char → Option JvmEvent} {s s' : System M cap} {op : SystemOp}
    (hacc : s.Accounted config) (h : Steps config o decode s op s') (hs : s.FromWakes R)
    (hnew : ∀ w ∈ s.wakes, ∀ host e, s.clock ≤ host.nowKtime →
      toBpfEvent o (s.hostOf host) w.event = some (.ok e) → R w e) : s'.FromWakes R := by
  have same : ∀ {m : Monitor}, m.history.added = s.history.added →
      ∀ p ∈ m.history.added, ∃ w ∈ s.wakes, w.event = p.1 ∧ R w p.2 := by
    intro m hm p hp
    rw [hm] at hp
    exact hs p hp
  cases h with
  | fork _ => exact hs
  | switch _ _ _ _ _ =>
    intro p hp
    obtain ⟨w, hw, hmade⟩ := hs p hp
    exact ⟨w, List.mem_append_left _ hw, hmade⟩
  | read _ _ _ _ => exact hs
  | @add host m hclock hm =>
    obtain ⟨event, batch, hstage, ⟨hnext, e, he, hentry⟩ | ⟨hnext, hsame⟩⟩ :=
      Monitor.stage_of_add hm
    · change s.stage = _ at hstage
      have hhand : event ∈ s.stage.inHand := by
        rw [hstage]
        exact List.mem_cons_self
      obtain ⟨w, hw, rfl⟩ := hacc.wake_of_mem (.inr hhand)
      rw [afterAdd_added hnext]
      intro p hp
      change p ∈ m.history.added at hp
      rw [hentry] at hp
      rcases List.mem_append.mp hp with hp | hp
      · exact hs p hp
      · obtain rfl := List.mem_singleton.mp hp
        exact ⟨w, hw, rfl, hnew w hw host e hclock he⟩
    · rw [afterAdd_failed hnext]
      exact same (by rw [hsame]; rfl)
  | join hm => exact same (by rw [(Monitor.stage_of_join hm).2]; rfl)
  | fill hm => exact same (Monitor.stage_of_fill hm).2.1
  | sweep hm => exact same (Monitor.stage_of_sweep hm).2.1

/-- Every event of a switch is of the thread that enters. -/
theorem attributed_of_probes {config : Config} {prev next : TaskStruct} {h : Helpers} {exits : Bool}
    {m : StartTimes} {r : Probed} (hr : Probes config prev next h m r) :
    ∀ event ∈ r.output,
      Attributed config ⟨prev, next, h, exits, r.output, r.signals⟩ event := by
  intro event he
  obtain ⟨_, _, _, _, _, hq, hblock⟩ := hr.output he
  exact ⟨hq.target, hblock.pid, hblock.tgid, hblock.tEnd, (hr.output_stacks he).2.2⟩

/-- A later reading of the clocks makes an event of a wake. -/
theorem Accounted.made {config : Config} {o : Overflow} {s : System M cap}
    (hs : s.Accounted config) {w : Wake} (hw : w ∈ s.wakes) {host : Host} {e : BpfEvent}
    (hclock : s.clock ≤ host.nowKtime)
    (h : toBpfEvent o (s.hostOf host) w.event = some (.ok e)) : Made o w e := by
  obtain ⟨hpid, hdur, _, hcomm, htime⟩ := toBpfEvent_parts h
  exact ⟨hpid, toBpfEvent_tid h, hcomm, hdur, host.nowKtime, host.now,
    UInt64.le_trans (hs.sound.ended hw) hclock, htime⟩

theorem Traced.step {config : Config} {o : Overflow} {decode : List Char → Option JvmEvent}
    {s s' : System M cap} {op : SystemOp} (hs : s.Traced config o)
    (h : Steps config o decode s op s') : s'.Traced config o where
  accounted := hs.accounted.step h
  attributed := by
    cases h with
    | fork hk =>
      cases Kernel.steps_of_step hk with
      | fork _ _ => exact hs.attributed
    | switch _ _ _ _ hk =>
      cases Kernel.steps_of_step hk with
      | switch _ _ _ _ _ hprobe =>
        intro e he
        rcases List.mem_cons.mp he with rfl | he
        · exact attributed_of_probes hprobe
        · exact hs.attributed e he
    | read _ _ _ _ => exact hs.attributed
    | @add host m _ _ =>
      have hsame : (s.afterAdd m).kernel = s.kernel := afterAdd_kernel s m
      intro e he
      exact hs.attributed e (hsame ▸ he)
    | join _ => exact hs.attributed
    | fill _ => exact hs.attributed
    | sweep _ => exact hs.attributed
  made := hs.accounted.fromWakes h hs.made fun _ hw _ _ hclock he =>
    hs.accounted.made hw hclock he

/-- Every reachable system is traced. -/
theorem traced_of_run {config : Config} {b : Boot config} {o : Overflow}
    {decode : List Char → Option JvmEvent} {ops : List SystemOp} {s : System M config.stackCap}
    (h : System.run M b o decode ops = some s) : s.Traced config o :=
  exec_keeps (fun _ _ _ hI hstep => hI.step (steps_of_step hstep)) (traced_boot b o) h

/-- What was output was output at a switch. -/
theorem Traced.switch_of_wake {config : Config} {o : Overflow} {s : System M cap}
    (hs : s.Traced config o) {w : Wake} (hw : w ∈ s.wakes) :
    ∃ e ∈ s.kernel.trace, w.event ∈ e.output := by
  have hmem : w.event ∈ s.kernel.outputs := by
    rw [← hs.accounted.sound.outputs]
    exact List.mem_map_of_mem hw
  obtain ⟨e, he, hevent⟩ := List.mem_flatMap.mp hmem
  exact ⟨e, List.mem_reverse.mp he, hevent⟩

/-- What a sweep returned and what is queued was added, so it was made of a wake. -/
theorem FromWakes.held {R : Wake → BpfEvent → Prop} {config : Config} {b : Boot config}
    {o : Overflow} {decode : List Char → Option JvmEvent} {ops : List SystemOp}
    {s : System M config.stackCap} (hs : s.FromWakes R)
    (h : System.run M b o decode ops = some s) {e : BpfEvent}
    (he : e ∈ s.history.returned.map Prod.fst ∨ ∃ tid, e ∈ s.history.stream.bpfEvents.queue tid) :
    ∃ w ∈ s.wakes, (w.event, e) ∈ s.history.added ∧ R w e := by
  obtain ⟨streamOps, hstream⟩ := refines_history.run trivial h
  have hacc := History.accounted_of_run hstream
  have hadded : e ∈ s.history.addedEvents := by
    rcases he with he | ⟨tid, he⟩
    · have hmem : e ∈ s.history.addedEvents.filter (·.tid = e.tid) := by
        rw [← hacc.reported e.tid]
        exact List.mem_append_left _ (List.mem_filter.mpr ⟨he, by simp⟩)
      exact List.mem_of_mem_filter hmem
    · exact (hacc.queued tid).1 he
  obtain ⟨⟨event, e⟩, hp, rfl⟩ := List.mem_map.mp hadded
  obtain ⟨w, hw, rfl, hR⟩ := hs _ hp
  exact ⟨w, hw, hp, hR⟩

end System

/-- **Every reported block is one of a thread of the target that was switched in**: a pair that a
sweep returned, in any run of the system, names the target process and the thread that entered at
one of the kernel's context switches, bears the name that thread had then, and lasts as long as the
configuration asks for, from a stamp to that switch. -/
theorem returned_from_switch {M : StackMap} {config : Config} {b : Boot config} {o : Overflow}
    {decode : List Char → Option JvmEvent} {ops : List SystemOp} {s : System M config.stackCap}
    (h : System.run M b o decode ops = some s) {p : Pair} (hp : p ∈ s.history.returned) :
    ∃ e ∈ s.kernel.trace, ∃ event ∈ e.output,
      e.next.tgid = config.targetTgid ∧ p.1.pid = config.targetTgid ∧ p.1.tid = e.next.pid ∧
      (∃ name, e.helpers.comm = .ok name ∧ readComm name = .ok p.1.comm) ∧
      event.tEnd = e.helpers.tEnd ∧
      p.1.duration.asMicros = (event.tEnd.toNat - event.tStart.toNat) / 1000 ∧
      config.minBlockUs.toNat ≤ p.1.duration.asMicros ∧
      p.1.duration.asMicros ≤ config.maxBlockUs.toNat := by
  have hs := System.traced_of_run h
  obtain ⟨w, hw, _, hmade⟩ := hs.made.held h (.inl (List.mem_map_of_mem hp))
  obtain ⟨e, he, hevent⟩ := hs.switch_of_wake hw
  have hattr := hs.attributed e he w.event hevent
  have hlasts := hs.accounted.sound.sequenced.lasts w.event <|
    List.mem_flatMap.mpr ⟨e, List.mem_reverse.mpr he, hevent⟩
  have hdur : p.1.duration.asMicros = w.event.offtime.toNat := by
    rw [hmade.duration]
    simp [Duration.fromMicros, Duration.asMicros]
  have hlong := hlasts.long
  have hshort := hlasts.short
  have hoff := hlasts.offtime
  refine ⟨e, he, w.event, hevent, hattr.target, hmade.pid.trans hattr.tgid,
    hmade.tid.trans hattr.pid, ⟨_, hattr.name, hmade.comm⟩, hattr.tEnd, hdur.trans hoff, ?_, ?_⟩
  · omega
  · omega

theorem returned_from_switch_sampleSystem : ∃ p ∈ sampleSystemEnd.history.returned,
    ∃ e ∈ sampleSystemEnd.kernel.trace, ∃ event ∈ e.output,
      e.next.tgid = sampleConfig.targetTgid ∧ p.1.pid = sampleConfig.targetTgid ∧
      p.1.tid = e.next.pid ∧
      (∃ name, e.helpers.comm = .ok name ∧ readComm name = .ok p.1.comm) ∧
      event.tEnd = e.helpers.tEnd ∧
      p.1.duration.asMicros = (event.tEnd.toNat - event.tStart.toNat) / 1000 ∧
      sampleConfig.minBlockUs.toNat ≤ p.1.duration.asMicros ∧
      p.1.duration.asMicros ≤ sampleConfig.maxBlockUs.toNat := by
  have hne : sampleSystemEnd.history.returned ≠ [] := by decide
  exact ⟨_, List.head_mem hne,
    returned_from_switch (Option.some_get sampleSystem_runs).symm (List.head_mem hne)⟩

/-! ## The stacks -/

/-- The addresses of an event are what the map shows of the stacks its thread had. -/
def Shows (M : StackMap) (w : Wake) (e : BpfEvent) : Prop :=
  e.stacktrace.map Prod.fst = M.shown w.kernelStack ++ M.shown w.userStack

namespace System

variable {M : StackMap} {cap : Nat}

/-- The ids of an event name the stacks its thread had. -/
def Names (s : System M cap) (w : Wake) : Prop :=
  M.get s.stackTraces w.event.kernelStackId.toUInt64.toUInt32 = some (M.shown w.kernelStack) ∧
    M.get s.stackTraces w.event.userStackId.toUInt64.toUInt32 = some (M.shown w.userStack)

/-- A map that keeps its stacks names those of a wake from then on. -/
theorem Names.mono {s s' : System M cap} {w : Wake} (h : s.Names w)
    (hkeeps : StackMap.Keeps s.stackTraces s'.stackTraces) : s'.Names w :=
  ⟨hkeeps _ _ h.1, hkeeps _ _ h.2⟩

/-- No step takes a stack out of the map. -/
theorem Steps.keeps (hM : M.Retains) {config : Config} {o : Overflow}
    {decode : List Char → Option JvmEvent} {s s' : System M cap} {op : SystemOp}
    (h : Steps config o decode s op s') : StackMap.Keeps s.stackTraces s'.stackTraces := by
  cases h with
  | fork _ => exact .refl _
  | switch _ _ hans _ _ =>
    subst hans
    exact keeps_stackIds hM
  | read _ _ _ _ => exact .refl _
  | @add host m _ _ =>
    have hsame : (s.afterAdd m).stackTraces = s.stackTraces := by
      unfold System.afterAdd
      split <;> rfl
    exact hsame ▸ .refl _
  | join _ => exact .refl _
  | fill _ => exact .refl _
  | sweep _ => exact .refl _

/-- The wakes of a step are those there were, and those of its switch. -/
theorem Steps.names (hnames : M.Names) (hretains : M.Retains) {config : Config} {o : Overflow}
    {decode : List Char → Option JvmEvent} {s s' : System M cap} {op : SystemOp}
    (hs : ∀ w ∈ s.wakes, s.Names w) (h : Steps config o decode s op s') :
    ∀ w ∈ s'.wakes, s'.Names w := by
  have hkeeps := h.keeps hretains
  intro w hw
  cases h with
  | switch _ _ hans houtput _ =>
    rcases List.mem_append.mp hw with hw | hw
    · exact (hs w hw).mono hkeeps
    · obtain ⟨event, he, rfl⟩ := List.mem_map.mp hw
      subst hans
      rw [houtput] at he
      exact output_stacks hnames hretains he
  | fork _ => exact (hs w hw).mono hkeeps
  | read _ _ _ _ => exact (hs w hw).mono hkeeps
  | @add host m _ _ =>
    have hsame : (s.afterAdd m).wakes = s.wakes := by
      unfold System.afterAdd
      split <;> rfl
    exact (hs w (hsame ▸ hw)).mono hkeeps
  | join _ => exact (hs w hw).mono hkeeps
  | fill _ => exact (hs w hw).mono hkeeps
  | sweep _ => exact (hs w hw).mono hkeeps

/-- What the map finds is what it shows of the wake's stacks. -/
theorem Names.shows {o : Overflow} {s : System M cap} {w : Wake} (hs : s.Names w) {host : Host}
    {e : BpfEvent} (h : toBpfEvent o (s.hostOf host) w.event = some (.ok e)) : Shows M w e := by
  obtain ⟨_, _, hframes, _⟩ := toBpfEvent_parts h
  obtain ⟨kernel, user, hkernel, huser, haddresses⟩ := readFrames_addresses hframes
  obtain ⟨_, _, hkernel⟩ := Option.bind_eq_some_iff.mp hkernel
  obtain ⟨_, _, huser⟩ := Option.bind_eq_some_iff.mp huser
  rw [hs.1, Option.some.injEq] at hkernel
  rw [hs.2, Option.some.injEq] at huser
  rw [Shows, haddresses, hkernel, huser]

/-- When the map keeps and names its stacks, every wake's are there, and shown of the event made of
it. -/
theorem shown_of_run (hnames : M.Names) (hretains : M.Retains) {config : Config} {b : Boot config}
    {o : Overflow} {decode : List Char → Option JvmEvent} {ops : List SystemOp}
    {s : System M config.stackCap} (h : System.run M b o decode ops = some s) :
    (∀ w ∈ s.wakes, s.Names w) ∧ s.FromWakes fun w e => Made o w e ∧ Shows M w e := by
  have keep : ∀ (s : System M config.stackCap) (op : SystemOp) (s' : System M config.stackCap),
      (s.Accounted config ∧ (∀ w ∈ s.wakes, s.Names w) ∧
        s.FromWakes fun w e => Made o w e ∧ Shows M w e) →
      s.step config o decode op = some s' →
      s'.Accounted config ∧ (∀ w ∈ s'.wakes, s'.Names w) ∧
        s'.FromWakes fun w e => Made o w e ∧ Shows M w e := by
    rintro s op s' ⟨hacc, hwakes, hshown⟩ hstep
    have hsteps := steps_of_step hstep
    refine ⟨hacc.step hsteps, hsteps.names hnames hretains hwakes, ?_⟩
    exact hacc.fromWakes hsteps hshown fun w hw host e hclock he =>
      ⟨hacc.made hw hclock he, (hwakes w hw).shows he⟩
  refine (exec_keeps keep ⟨accounted_boot b, fun _ hw => ?_, fun _ hp => ?_⟩ h).2
  · cases hw
  · cases hp

end System

/-- **The monotonic subtraction of `compute_timestamp` never underflows**: in every reachable
system, for an event in a perf buffer or in hand and any later reading of the monotonic clock, a
checked and an unchecked build compute the same timestamp, the exact one, and the only panic left
is that of a wall clock that shows less time than has passed since the block ended. -/
theorem timestamps_exact {M : StackMap} {config : Config} {b : Boot config} {o : Overflow}
    {decode : List Char → Option JvmEvent} {ops : List SystemOp} {s : System M config.stackCap}
    (h : System.run M b o decode ops = some s) {event : BlockEvent}
    (he : event ∈ s.buffered ∨ event ∈ s.stage.inHand) {nowKtime : UInt64}
    (hnow : s.clock ≤ nowKtime) (now : UInt64) (o' : Overflow) :
    computeTimestamp o' nowKtime now event.tEnd =
      if nowKtime.toNat - event.tEnd.toNat ≤ now.toNat * 1000000 then
        some (UInt64.ofNat
          ((now.toNat * 1000000 - (nowKtime.toNat - event.tEnd.toNat)) / 1000000))
      else none := by
  have hacc := System.accounted_of_run h
  obtain ⟨w, hw, rfl⟩ := hacc.wake_of_mem he
  exact computeTimestamp_of_le o' now (UInt64.le_trans (hacc.sound.ended hw) hnow)

/-- The sample run up to the join. -/
theorem sampleRead_runs : (System.run sampleStackMap sampleBoot .abort sampleDecode
    (sampleSystem.take 4)).isSome := by decide

theorem timestamps_exact_sampleRead : ∃ event ∈
    ((System.run sampleStackMap sampleBoot .abort sampleDecode (sampleSystem.take 4)).get
      sampleRead_runs).stage.inHand,
      computeTimestamp .wrap 6000000 6 event.tEnd =
        if (6000000 : UInt64).toNat - event.tEnd.toNat ≤ (6 : UInt64).toNat * 1000000 then
          some (UInt64.ofNat (((6 : UInt64).toNat * 1000000 -
            ((6000000 : UInt64).toNat - event.tEnd.toNat)) / 1000000))
        else none := by
  have hne : ((System.run sampleStackMap sampleBoot .abort sampleDecode (sampleSystem.take 4)).get
      sampleRead_runs).stage.inHand ≠ [] := by decide
  exact ⟨_, List.head_mem hne, timestamps_exact (Option.some_get sampleRead_runs).symm
    (.inr (List.head_mem hne)) (by decide) 6 .wrap⟩

end Jbm
