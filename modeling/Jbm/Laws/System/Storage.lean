import Jbm.Laws.System.Provenance

/-!
# When the stack map is full

`STACK_TRACES` has room for as many stacks as the configuration says, and no stack is ever
discarded. Once it is full it stays as it is: a block is reported only if both its stacks happen to
be stored already, every other one is dropped inside the kernel, without an event and without a
signal (`storage_full`). `add_bpf_event` warns of a full map, but it looks at the constant the map
would have room for by default: below it the map is full in silence, and from it on the warning
comes at every hundredth event whether the map is full or not (`storage_warnings`).

What is assumed of the stack map is named in each statement.
-/

set_option autoImplicit false

namespace Jbm

open Base

/-! ## What a step adds -/

/-- A full count of hundreds: below 2^64 events the count is their number. -/
theorem length_storageWarning_of_full {n size : Nat} (hn : n + 1 < 2 ^ 64)
    (h : stackStorageSize ≤ size) :
    (storageWarning (UInt64.ofNat (n + 1)) size).toList.length + n / 100 = (n + 1) / 100 := by
  have hcheck : UInt64.ofNat (n + 1) % stackStorageSizeCheckCount = 0 ↔ (n + 1) % 100 = 0 := by
    rw [← UInt64.toNat_inj, UInt64.toNat_mod, UInt64.toNat_ofNat_of_lt' hn]
    rfl
  unfold storageWarning
  rw [if_pos h]
  split
  · next hmod =>
    have hhundred := hcheck.mp hmod
    simp only [Option.toList_some, List.length_singleton]
    omega
  · next hmod =>
    have hhundred : ¬ (n + 1) % 100 = 0 := fun hm => hmod (hcheck.mpr hm)
    simp only [Option.toList_none, List.length_nil]
    omega

theorem storageWarning_of_not_full {count : UInt64} {size : Nat} (h : size < stackStorageSize) :
    storageWarning count size = none := by
  unfold storageWarning
  rw [if_neg (Nat.not_le.mpr h)]
  split <;> rfl

namespace System

variable {M : StackMap} {cap : Nat} {config : Config} {o : Overflow}
  {decode : List Char → Option JvmEvent} {s s' : System M cap}

/-- A step warns only when it adds an event. -/
theorem Steps.warns {op : SystemOp} (h : Steps config o decode s op s') :
    (s'.added.length = s.added.length ∧ s'.warnings = s.warnings) ∨
      s'.added.length = s.added.length + 1 ∧ s'.stackTraces = s.stackTraces ∧
        s'.warnings = s.warnings ++
          (storageWarning s'.history.stream.eventCount (M.size s.stackTraces)).toList := by
  have same : ∀ {m : Monitor}, m.history.added = s.history.added →
      (m.history.added.map Prod.fst).length = s.added.length := fun hm => by rw [hm]; rfl
  cases h with
  | fork _ => exact .inl ⟨rfl, rfl⟩
  | switch _ _ _ _ _ => exact .inl ⟨rfl, rfl⟩
  | read _ _ _ _ => exact .inl ⟨rfl, rfl⟩
  | @add host m _ hm =>
    obtain ⟨event, batch, _, ⟨hadded, e, _, hentry⟩ | ⟨hfailed, hsame⟩⟩ := Monitor.stage_of_add hm
    · rw [afterAdd_added hadded]
      refine .inr ⟨?_, rfl, rfl⟩
      show (m.history.added.map Prod.fst).length = (s.history.added.map Prod.fst).length + 1
      rw [hentry, List.map_append, List.length_append]
      rfl
    · rw [afterAdd_failed hfailed]
      exact .inl ⟨same (by rw [hsame]; rfl), rfl⟩
  | join hm => exact .inl ⟨same (by rw [(Monitor.stage_of_join hm).2]; rfl), rfl⟩
  | fill hm => exact .inl ⟨same (Monitor.stage_of_fill hm).2.1, rfl⟩
  | sweep hm => exact .inl ⟨same (Monitor.stage_of_sweep hm).2.1, rfl⟩

/-- A step keeps the count of its stream. -/
theorem counted_of_step {op : SystemOp} (hs : s.history.Counted o)
    (h : s.step config o decode op = some s') : s'.history.Counted o := by
  rcases refines_history.sim s op s' trivial h with hsame | ⟨op', hop⟩
  · rw [hsame]
    exact hs
  · exact hs.step (History.steps_of_step hop)

/-- A run takes no stack out of the map. -/
theorem keeps_of_exec (hM : M.Retains) {ops : List SystemOp}
    (h : exec (System.step config o decode) s ops = some s') :
    StackMap.Keeps s.stackTraces s'.stackTraces :=
  exec_keeps (I := fun x => StackMap.Keeps s.stackTraces x.stackTraces)
    (fun _ _ _ hI hstep => hI.trans ((steps_of_step hstep).keeps hM)) (.refl _) h

/-- While the map holds fewer stacks than the constant, there has been no warning. -/
theorem quiet_of_run (hretains : M.Retains) (hlists : M.Lists) {b : Boot config}
    {ops : List SystemOp} {s : System M config.stackCap}
    (h : System.run M b o decode ops = some s) :
    M.size s.stackTraces < stackStorageSize → s.warnings = [] := by
  -- going back along the run the map only gets smaller
  have keep : ∀ (x : System M config.stackCap) (op : SystemOp) (x' : System M config.stackCap),
      (M.size x.stackTraces < stackStorageSize → x.warnings = []) →
      x.step config o decode op = some x' →
      M.size x'.stackTraces < stackStorageSize → x'.warnings = [] := by
    intro x op x' hx hstep hsize
    have hsteps := steps_of_step hstep
    have hless := Nat.lt_of_le_of_lt (hlists.size_le (hsteps.keeps hretains)) hsize
    rcases hsteps.warns with ⟨_, hwarn⟩ | ⟨_, _, hwarn⟩
    · rw [hwarn]
      exact hx hless
    · rw [hwarn, hx hless, storageWarning_of_not_full hless]
      rfl
  exact exec_keeps keep (fun _ => rfl) h

/-- Where a full constant's worth of stacks is stored, every hundredth event warns. -/
structure Warned (o : Overflow) (s x : System M cap) : Prop where
  full : stackStorageSize ≤ M.size x.stackTraces
  counted : x.history.Counted o
  warnings : x.added.length < 2 ^ 64 →
    x.warnings.length + s.added.length / 100 = s.warnings.length + x.added.length / 100

theorem Warned.step (hretains : M.Retains) (hlists : M.Lists) {x x' : System M cap}
    {op : SystemOp} (hx : Warned o s x) (hstep : x.step config o decode op = some x') :
    Warned o s x' := by
  have hsteps := steps_of_step hstep
  have hcounted := counted_of_step hx.counted hstep
  refine ⟨Nat.le_trans hx.full (hlists.size_le (hsteps.keeps hretains)), hcounted, fun hlt => ?_⟩
  rcases hsteps.warns with ⟨hsame, hwarn⟩ | ⟨hadded, _, hwarn⟩
  · rw [hwarn, hsame]
    exact hx.warnings (hsame ▸ hlt)
  · have hcount : x'.history.stream.eventCount = UInt64.ofNat (x.added.length + 1) := by
      rw [hcounted.count, ← hadded, added, List.length_map]
    rw [hadded] at hlt
    have hone := length_storageWarning_of_full hlt hx.full
    have hold := hx.warnings (Nat.lt_of_succ_lt hlt)
    rw [hwarn, hcount, hadded, List.length_append]
    omega

end System

/-- **A full stack map is full for good**: from any reachable system whose map is full on, the map
stays as it is, and every block that is ever reported bears two stacks that were in it then. Of the
stack map this needs that it discards no stack, that its ids name them, and that it lists them. -/
theorem storage_full {M : StackMap} (hnames : M.Names) (hretains : M.Retains) (hlists : M.Lists)
    {config : Config} {b : Boot config} {o : Overflow} {decode : List Char → Option JvmEvent}
    {ops more : List SystemOp} {s s' : System M config.stackCap}
    (h : System.run M b o decode ops = some s)
    (hmore : exec (System.step config o decode) s more = some s')
    (hfull : M.size s.stackTraces = config.stackStorageSize.toNat) :
    (∀ id, M.get s'.stackTraces id = M.get s.stackTraces id) ∧ ∀ w ∈ s'.wakes,
      M.get s.stackTraces w.event.kernelStackId.toUInt64.toUInt32 = some (M.shown w.kernelStack) ∧
        M.get s.stackTraces w.event.userStackId.toUInt64.toUInt32 =
          some (M.shown w.userStack) := by
  have hsame := hlists.get_of_full (System.keeps_of_exec hretains hmore) hfull
  have hrun : System.run M b o decode (ops ++ more) = some s' := by
    rw [System.run, exec_append]
    exact Option.bind_eq_some_iff.mpr ⟨s, h, hmore⟩
  refine ⟨hsame, fun w hw => ?_⟩
  obtain ⟨hkernel, huser⟩ := (System.shown_of_run hnames hretains hrun).1 w hw
  rw [hsame] at hkernel huser
  exact ⟨hkernel, huser⟩

/-- The sample host under another configuration for the same process. -/
def sampleBootOf (config : Config) (h : config.targetTgid = sampleConfig.targetTgid) :
    Boot config where
  tasks := sampleBoot.tasks
  running := sampleBoot.running
  placed := sampleBoot.placed
  once := sampleBoot.once
  apart t ht u hu htgid := sampleBoot.apart t ht u hu (htgid.trans h)

/-- Room for two stacks, and a stack map with two slots. -/
def sampleTight : Config := ⟨100, 1000, 1000000, 2⟩

def sampleTightMap : StackMap := slotMap fun stack => (stack.headD 0).toUInt32 % 2

/-- Thread 7 blocks from `out` to `back` with the stacks. -/
def sampleStint (out back : UInt64) (walks : Walks) : List SystemOp :=
  [.switch 0 sampleIdle false (sampleHelpers out) ⟨[], []⟩ [] false,
    .switch 0 sampleThread false (sampleHelpers back) walks [] false]

/-- The two stacks that are stored. -/
def sampleStored : List SystemOp := sampleStint 1000000 5000000 ⟨[0xffff0010], [0x1001, 0x2000]⟩

/-- Other stacks, and the stored ones once more. -/
def sampleAgain : List SystemOp :=
  sampleStint 6000000 9000000 ⟨[0xffff0020], [0x3001]⟩ ++
    sampleStint 10000000 14000000 ⟨[0xffff0010], [0x1001, 0x2000]⟩

theorem sampleStored_runs : (System.run sampleTightMap (sampleBootOf sampleTight rfl) .abort
    sampleDecode sampleStored).isSome := by decide

theorem sampleAgain_runs : (exec (System.step sampleTight .abort sampleDecode)
    (Option.get _ sampleStored_runs) sampleAgain).isSome := by decide

/-- Of the three blocks that with the other stacks is not reported. -/
theorem storage_full_sampleAgain :
    let s := Option.get _ sampleStored_runs
    let s' := Option.get _ sampleAgain_runs
    s'.wakes.map (·.event.tEnd) = [5000000, 14000000] ∧
      (∀ id, sampleTightMap.get s'.stackTraces id = sampleTightMap.get s.stackTraces id) ∧
      ∀ w ∈ s'.wakes,
        sampleTightMap.get s.stackTraces w.event.kernelStackId.toUInt64.toUInt32 =
            some (sampleTightMap.shown w.kernelStack) ∧
          sampleTightMap.get s.stackTraces w.event.userStackId.toUInt64.toUInt32 =
            some (sampleTightMap.shown w.userStack) :=
  ⟨by decide, storage_full (slotMap_names _) (slotMap_retains _) (slotMap_lists _)
    (Option.some_get sampleStored_runs).symm (Option.some_get sampleAgain_runs).symm (by decide)⟩

/-- **What the storage warning says**: in every run there is no warning while the map holds fewer
than 10240 stacks, so none at all when it has room for fewer, and once it holds that many there is
one at every hundredth event added, as long as the count does not wrap. Of the stack map this needs
that it discards no stack and that it lists them. -/
theorem storage_warnings {M : StackMap} (hretains : M.Retains) (hlists : M.Lists) {config : Config}
    {b : Boot config} {o : Overflow} {decode : List Char → Option JvmEvent}
    {ops more : List SystemOp} {s s' : System M config.stackCap}
    (h : System.run M b o decode ops = some s)
    (hmore : exec (System.step config o decode) s more = some s') :
    (M.size s.stackTraces < stackStorageSize → s.warnings = []) ∧
      (config.stackStorageSize.toNat < stackStorageSize → s.warnings = []) ∧
      (stackStorageSize ≤ M.size s.stackTraces → s'.added.length < 2 ^ 64 →
        s'.warnings.length + s.added.length / 100 =
          s.warnings.length + s'.added.length / 100) := by
  have quiet := System.quiet_of_run hretains hlists h
  refine ⟨quiet, fun hcap => ?_, fun hfull => ?_⟩
  · exact quiet (Nat.lt_of_le_of_lt (hlists.room s.stackTraces) hcap)
  · obtain ⟨_, hstream⟩ := System.refines_history.run trivial h
    have hstart : System.Warned o s s := ⟨hfull, History.counted_of_run hstream, fun _ => rfl⟩
    exact (exec_keeps (fun _ _ _ hI hstep => hI.step hretains hlists hstep) hstart hmore).warnings

/-! ## A run that fills the map

Thread 7 blocks again and again, each time with two new stacks, and every block is read and added
before the next: 5120 blocks fill the map. After that its blocks come with stacks that are stored.
-/

/-- The sample host with blocks of any length reported. -/
def sampleAny : Config := ⟨100, 0, 1000000, 10240⟩

/-- Thread 7 blocks with one frame on each of its stacks, and a call of `process` reads and adds the
block. -/
def sampleRound (kernel user : UInt64) : List SystemOp :=
  sampleStint 1000000 1000000 ⟨[kernel], [user]⟩ ++
    [.read 0, .join, .add (sampleHost 1000000 1), .fill [] true, .sweep 1 [7]]

/-- The kernel with thread 7 running, and with thread 7 away. -/
def sampleHere (clock : UInt64) (trace : List Switch) : Kernel :=
  ⟨[sampleIdle, sampleThread], [], [sampleThread], clock, .empty, trace⟩

def sampleAway (trace : List Switch) : Kernel :=
  ⟨[sampleIdle, sampleThread], [], [sampleIdle], 1000000,
    (tryJbm sampleAny sampleThread sampleIdle (sampleHelpers 1000000) .empty).startTimes, trace⟩

/-- The event of a block with the two stack ids. -/
def sampleStay (kernel user : Int64) : BlockEvent where
  pid := 7
  tgid := 100
  userStackId := user
  kernelStackId := kernel
  name := Vector.replicate taskCommLen 0
  offtime := 0
  tStart := 1000000
  tEnd := 1000000

/-- The helpers of the way back, with the two stack ids. -/
def sampleAnswered (kernel user : Int64) : Helpers :=
  { sampleHelpers 1000000 with kernelStackId := .ok kernel, userStackId := .ok user }

theorem tryJbm_sampleAnswered (kernel user : Int64) (trace : List Switch) :
    tryJbm sampleAny sampleIdle sampleThread (sampleAnswered kernel user)
      (sampleAway trace).startTimes = ⟨.empty, [sampleStay kernel user], [27], .ok 0⟩ := by
  have hget : (sampleAway trace).startTimes.get? 7 = some 1000000 := rfl
  have hremove : removeStart 7 (sampleAnswered kernel user) (sampleAway trace).startTimes =
      .ok .empty := rfl
  have hreport : reportCurrent sampleAny sampleThread (sampleAnswered kernel user)
      (sampleAway trace).startTimes = ⟨.empty, [sampleStay kernel user], [27], .ok 0⟩ := by
    unfold reportCurrent
    simp only [pidTgid_pid, pidTgid_tgid]
    rw [show sampleThread.pid = 7 from rfl, hget, hremove,
      show (sampleAnswered kernel user).tEnd = 1000000 from rfl]
    rfl
  exact hreport

theorem submits_sampleAway (trace : List Switch) : submits sampleAny sampleIdle sampleThread
    (sampleHelpers 1000000) (sampleAway trace).startTimes = true := by
  have hevent : sampleStay 0 0 ∈ (tryJbm sampleAny sampleIdle sampleThread (sampleAnswered 0 0)
      (sampleAway trace).startTimes).output := by
    rw [tryJbm_sampleAnswered]
    exact List.mem_cons_self
  exact submits_of_output hevent

/-- Between two calls, with thread 7 running and nothing buffered, `n` events have been added. -/
structure Ready (n : Nat) (s : System sampleStackMap sampleAny.stackCap) : Prop where
  kernel : ∃ clock trace, clock ≤ 1000000 ∧ s.kernel = sampleHere clock trace
  clock : s.clock ≤ 1000000
  rings : s.rings = [[]]
  stage : s.stage = Monitor.begin 1
  only : ∀ t, t ≠ 7 → s.history.stream.bpfEvents.queue t = []
  added : s.added.length = n

section Round

variable {n : Nat} {s : System sampleStackMap sampleAny.stackCap}

/-- Thread 7 leaves. -/
theorem Ready.out (hs : Ready n s) :
    ∃ s' trace, s.step sampleAny .wrap sampleDecode
        (.switch 0 sampleIdle false (sampleHelpers 1000000) ⟨[], []⟩ [] false) = some s' ∧
      s'.kernel = sampleAway trace ∧ s'.clock = 1000000 ∧ s'.rings = [[]] ∧
      s'.stackTraces = s.stackTraces ∧ s'.stage = s.stage ∧ s'.history = s.history := by
  obtain ⟨clock, trace, hclock, hk⟩ := hs.kernel
  have hrun : s.kernel.running[0]? = some sampleThread := by
    rw [hk]
    rfl
  have hids : stackIds sampleAny sampleThread sampleIdle (sampleHelpers 1000000) ⟨[], []⟩
      s.kernel.startTimes s.stackTraces = (sampleHelpers 1000000, s.stackTraces) := by
    rw [hk]
    rfl
  have hout : (tryJbm sampleAny sampleThread sampleIdle (sampleHelpers 1000000)
      s.kernel.startTimes).output = [] := by
    rw [hk]
    rfl
  have hoff : sampleIdle ∉ [sampleThread] := by decide
  have hstep : s.kernel.step sampleAny (.switch 0 sampleIdle false (sampleHelpers 1000000)) =
      some (sampleAway
        (⟨sampleThread, sampleIdle, sampleHelpers 1000000, false, [], []⟩ :: trace)) := by
    rw [hk]
    exact if_pos ⟨⟨List.mem_cons_self, List.not_mem_nil⟩, hoff, hclock, UInt64.le_refl _⟩
  refine ⟨_, _, System.step_switch hrun hs.clock hids hstep, rfl, rfl, ?_, rfl, rfl, rfl⟩
  simp [System.emit, hs.rings, hout]

/-- Thread 7 is back, and the map answers its stacks. -/
theorem step_back {trace : List Switch} (hk : s.kernel = sampleAway trace) (hc : s.clock = 1000000)
    (hr : s.rings = [[]]) {kernel user : UInt64} {a b : Int64}
    {m m' : sampleStackMap.Map sampleAny.stackCap}
    (hkernel : sampleStackMap.getStackid [kernel] s.stackTraces = (.ok a, m))
    (huser : sampleStackMap.getStackid [user] m = (.ok b, m')) :
    ∃ s' trace, s.step sampleAny .wrap sampleDecode
        (.switch 0 sampleThread false (sampleHelpers 1000000) ⟨[kernel], [user]⟩ [] false) =
          some s' ∧
      s'.kernel = sampleHere 1000000 trace ∧ s'.clock = 1000000 ∧
      s'.rings = [[sampleOf (sampleStay a b) []]] ∧ s'.stackTraces = m' ∧ s'.stage = s.stage ∧
      s'.history = s.history := by
  have hrun : s.kernel.running[0]? = some sampleIdle := by
    rw [hk]
    rfl
  have hids : stackIds sampleAny sampleIdle sampleThread (sampleHelpers 1000000)
      ⟨[kernel], [user]⟩ s.kernel.startTimes s.stackTraces = (sampleAnswered a b, m') := by
    have hask : askStack (sampleHelpers 1000000).kernelStackId [kernel] s.stackTraces =
        (.ok a, m) := hkernel
    have hask' : askStack (sampleHelpers 1000000).userStackId [user] m = (.ok b, m') := huser
    rw [hk, stackIds, if_pos (submits_sampleAway trace), hask]
    simp only [hask']
    rfl
  have hout : (tryJbm sampleAny sampleIdle sampleThread (sampleAnswered a b)
      s.kernel.startTimes).output = [sampleStay a b] := by
    rw [hk, tryJbm_sampleAnswered]
  have hoff : sampleThread ∉ [sampleIdle] := by decide
  have hstep : s.kernel.step sampleAny (.switch 0 sampleThread false (sampleAnswered a b)) =
      some (sampleHere 1000000
        (⟨sampleIdle, sampleThread, sampleAnswered a b, false, [sampleStay a b], [27]⟩ ::
          trace)) := by
    have hrun' : (sampleAway trace).running[0]? = some sampleIdle := rfl
    rw [hk]
    simp only [Kernel.step, hrun']
    rw [if_pos ⟨⟨List.mem_cons_of_mem _ List.mem_cons_self, List.not_mem_nil⟩, hoff,
      UInt64.le_refl _, UInt64.le_refl _⟩, tryJbm_sampleAnswered]
    rfl
  have hle : s.clock ≤ (sampleHelpers 1000000).ts := by
    rw [hc]
    exact UInt64.le_refl _
  refine ⟨_, _, System.step_switch hrun hle hids hstep, rfl, rfl, ?_, rfl, rfl, rfl⟩
  simp [System.emit, hr, hout]

/-- The host of a round makes an event of a stay whose stacks the map finds. -/
theorem toBpfEvent_stay {a b : Int64} {ips ips' : List UInt64}
    (ha : sampleStackMap.get s.stackTraces a.toUInt64.toUInt32 = some ips)
    (hb : sampleStackMap.get s.stackTraces b.toUInt64.toUInt32 = some ips') :
    ∃ e, toBpfEvent .wrap (s.hostOf (sampleHost 1000000 1)) (sampleStay a b) = some (.ok e) := by
  have ha' : (s.hostOf (sampleHost 1000000 1)).stackTrace
      (sampleStay a b).kernelStackId.toUInt64.toUInt32 = some ips := ha
  have hb' : (s.hostOf (sampleHost 1000000 1)).stackTrace
      (sampleStay a b).userStackId.toUInt64.toUInt32 = some ips' := hb
  have hframes : ∃ frames,
      readFrames (s.hostOf (sampleHost 1000000 1)) (sampleStay a b) = .ok frames := by
    unfold readFrames getStack
    rw [ha', hb']
    exact ⟨_, rfl⟩
  obtain ⟨frames, hframes⟩ := hframes
  have hcomm : readComm (sampleStay a b).name = .ok "" := rfl
  have htime : computeTimestamp .wrap 1000000 1 1000000 = some 1 := by decide
  have htime' : computeTimestamp .wrap (s.hostOf (sampleHost 1000000 1)).nowKtime
      (s.hostOf (sampleHost 1000000 1)).now (sampleStay a b).tEnd = some 1 := htime
  rw [toBpfEvent, hframes]
  simp only [hcomm, htime', Option.map_some]
  exact ⟨_, rfl⟩

/-- The one sample in the buffer is read. -/
theorem step_read {event : BlockEvent} (hr : s.rings = [[sampleOf event []]])
    (hstage : s.stage = Monitor.begin 1) : s.step sampleAny .wrap sampleDecode (.read 0) =
      some { s with rings := [[]], stage := .reading [some [event]] } := by
  have hbuf : ([sampleOf event []].take readBatch).mapM readSample = some [event] := by
    simp [readBatch]
  simp only [System.step, hstage, hr, Monitor.begin, List.getElem?_cons_zero,
    List.replicate_one, if_true, hbuf, Option.map_some]
  rfl

/-- The event in hand is added. -/
theorem step_added {host : Host} {event : BlockEvent} {e : BpfEvent} (hc : s.clock ≤ host.nowKtime)
    (hstage : s.stage = .adding [event])
    (he : toBpfEvent .wrap (s.hostOf host) event = some (.ok e)) :
    ∃ warnings, s.step sampleAny .wrap sampleDecode (.add host) = some
      { s with
        clock := host.nowKtime
        stage := .adding []
        history :=
          { s.history with
            stream := s.history.stream.file e
            added := s.history.added ++ [(event, e)] }
        warnings := warnings } := by
  have hmade : s.history.stream.addBpfEvent .wrap (s.hostOf host) event =
      some (.ok (s.history.stream.file e)) :=
    addBpfEvent_of_made he (EventStream.countUp_wrap s.history.stream)
  have hadd : s.monitor.step .wrap sampleDecode (.add (s.hostOf host)) = some
      { s.monitor with
        stage := .adding []
        history :=
          { s.history with
            stream := s.history.stream.file e
            added := s.history.added ++ [(event, e)] } } := by
    simp only [Monitor.step, System.monitor, hstage, hmade, History.step, he, Option.map_some]
  refine ⟨s.warnings ++ (storageWarning (s.history.stream.file e).eventCount
    (sampleStackMap.size s.stackTraces)).toList, ?_⟩
  simp only [System.step]
  rw [if_pos hc, hadd]
  rfl

/-- The call ends with a sweep. -/
theorem step_swept {now : UInt64} {order : List UInt32} (hstage : s.stage = .sweeping)
    (hr : s.rings = [[]]) (hv : s.history.stream.bpfEvents.Visits order) :
    ∃ out, s.history.stream.sweep .wrap now order = some out ∧
      s.step sampleAny .wrap sampleDecode (.sweep now order) = some
        { s with
          stage := Monitor.begin 1
          history :=
            { s.history with
              stream := out.stream
              returned := s.history.returned ++ out.returned
              trashed := s.history.trashed ++ out.trash } } := by
  obtain ⟨out, hout⟩ := @sweep_wrap now _ _ hv
  refine ⟨out, hout, ?_⟩
  have hstep : s.history.step .wrap sampleDecode (.sweep now order) = some
      { s.history with
        stream := out.stream
        returned := s.history.returned ++ out.returned
        trashed := s.history.trashed ++ out.trash } := by
    simp only [History.step, if_pos hv, hout, Option.map_some]
  have hcpus : s.rings.length = 1 := congrArg List.length hr
  simp only [System.step, Monitor.step, System.monitor, hstage, hstep, Option.map_some,
    List.length_map, hcpus]
  rfl

/-- A call of `process` adds the stay. -/
theorem exec_call {a b : Int64} {trace : List Switch} (hk : s.kernel = sampleHere 1000000 trace)
    (hc : s.clock = 1000000) (hr : s.rings = [[sampleOf (sampleStay a b) []]])
    (hstage : s.stage = Monitor.begin 1)
    (honly : ∀ t, t ≠ 7 → s.history.stream.bpfEvents.queue t = []) {ips ips' : List UInt64}
    (ha : sampleStackMap.get s.stackTraces a.toUInt64.toUInt32 = some ips)
    (hb : sampleStackMap.get s.stackTraces b.toUInt64.toUInt32 = some ips') :
    ∃ s', exec (System.step sampleAny .wrap sampleDecode) s
        [.read 0, .join, .add (sampleHost 1000000 1), .fill [] true, .sweep 1 [7]] = some s' ∧
      Ready (s.added.length + 1) s' ∧ s'.stackTraces = s.stackTraces := by
  obtain ⟨e, he⟩ := toBpfEvent_stay ha hb
  have htid : e.tid = 7 := toBpfEvent_tid he
  let joined : System sampleStackMap sampleAny.stackCap :=
    { s with rings := [[]], stage := .adding [sampleStay a b] }
  obtain ⟨warnings, hadded⟩ := @step_added joined (sampleHost 1000000 1) (sampleStay a b) e
    (hc ▸ UInt64.le_refl _) rfl he
  -- with nothing to read, the JVM queues stay as they are
  let filled : System sampleStackMap sampleAny.stackCap :=
    { joined with
      clock := 1000000
      stage := .sweeping
      history :=
        { s.history with
          stream :=
            { s.history.stream.file e with
              jvmEvents := fillQueue sampleDecode [] s.history.stream.jvmEvents }
          added := s.history.added ++ [(sampleStay a b, e)]
          filed := s.history.filed ++ eventsOf sampleDecode [] }
      warnings := warnings }
  have honly' : ∀ t, t ≠ 7 → filled.history.stream.bpfEvents.queue t = [] := fun t ht =>
    (Filing.queue_push_of_ne _ (by rw [htid]; exact ht.symm)).trans (honly t ht)
  have hv : filled.history.stream.bpfEvents.Visits [7] := by
    refine Filing.visits_singleton honly' ?_
    show (s.history.stream.bpfEvents.push e).queue 7 ≠ []
    rw [Filing.queue_push_self _ htid]
    exact List.append_ne_nil_of_right_ne_nil _ (List.cons_ne_nil _ _)
  obtain ⟨out, hout, hswept⟩ := @step_swept filled 1 [7] rfl rfl hv
  refine ⟨_, exec_cons.mpr ⟨_, step_read hr hstage, exec_cons.mpr ⟨joined, rfl,
    exec_cons.mpr ⟨_, hadded, exec_cons.mpr ⟨filled, rfl, exec_cons.mpr ⟨_, hswept, rfl⟩⟩⟩⟩⟩,
    ⟨⟨_, _, UInt64.le_refl _, hk⟩, UInt64.le_refl _, rfl, rfl, fun t ht => ?_, ?_⟩, rfl⟩
  · have hreported := (sweep_account hout).reported t
    rw [honly' t ht] at hreported
    exact (List.append_eq_nil_iff.mp hreported).2
  · show ((s.history.added ++ [(sampleStay a b, e)]).map Prod.fst).length = _
    rw [List.map_append, List.length_append]
    rfl

/-- A round. -/
theorem Ready.round (hs : Ready n s) {kernel user : UInt64} {a b : Int64}
    {m m' : sampleStackMap.Map sampleAny.stackCap}
    (hkernel : sampleStackMap.getStackid [kernel] s.stackTraces = (.ok a, m))
    (huser : sampleStackMap.getStackid [user] m = (.ok b, m')) :
    ∃ s', exec (System.step sampleAny .wrap sampleDecode) s (sampleRound kernel user) = some s' ∧
      Ready (n + 1) s' ∧ s'.stackTraces = m' := by
  have hM : sampleStackMap.Names := slotMap_names _
  have hM' : sampleStackMap.Retains := slotMap_retains _
  have ha := hM.get [kernel] s.stackTraces a (by rw [hkernel])
  have hb := hM.get [user] m b (by rw [huser])
  rw [hkernel] at ha
  have ha' := hM'.get [user] m _ _ ha
  rw [huser] at ha' hb
  obtain ⟨s₁, trace, hout, hk₁, hc₁, hr₁, hm₁, hst₁, hh₁⟩ := hs.out
  obtain ⟨s₂, trace', hback, hk₂, hc₂, hr₂, hm₂, hst₂, hh₂⟩ :=
    step_back hk₁ hc₁ hr₁ (hm₁ ▸ hkernel) huser
  have hh : s₂.history = s.history := hh₂.trans hh₁
  obtain ⟨s', hcall, hready, hm⟩ := exec_call hk₂ hc₂ hr₂ (hst₂.trans (hst₁.trans hs.stage))
    (by rw [hh]; exact hs.only) (by rw [hm₂]; exact ha') (by rw [hm₂]; exact hb)
  refine ⟨s', exec_cons.mpr ⟨s₁, hout, exec_cons.mpr ⟨s₂, hback, hcall⟩⟩, ?_, hm.trans hm₂⟩
  rwa [System.added, hh, ← System.added, hs.added] at hready

end Round

/-! ### The map fills -/

/-- The first `n` stacks, each with one frame of its own. -/
def sampleStacks : Nat → List (UInt32 × List UInt64)
  | 0 => []
  | n + 1 => (.ofNat (n + 1), [.ofNat (n + 1)]) :: sampleStacks n

theorem length_sampleStacks (n : Nat) : (sampleStacks n).length = n := by
  induction n with
  | zero => rfl
  | succ n ih => exact congrArg (· + 1) ih

/-- Two numbers below 2^32 have two slots. -/
theorem ofNat_beq {i k : Nat} (hi : i < 2 ^ 32) (hk : k < 2 ^ 32) (hne : i ≠ k) :
    (UInt32.ofNat i == UInt32.ofNat k) = false := by
  refine beq_eq_false_iff_ne.mpr fun heq => hne ?_
  have hnat := congrArg UInt32.toNat heq
  rwa [UInt32.toNat_ofNat_of_lt' hi, UInt32.toNat_ofNat_of_lt' hk] at hnat

theorem lookup_sampleStacks {n i : Nat} (hn : n < 16384) (hi : i < 16384) :
    (sampleStacks n).lookup (.ofNat i) = if 0 < i ∧ i ≤ n then some [.ofNat i] else none := by
  induction n with
  | zero => rw [if_neg (by omega)]; rfl
  | succ n ih =>
    rw [sampleStacks, List.lookup_cons]
    by_cases heq : i = n + 1
    · rw [heq, beq_self_eq_true, if_pos (by omega)]
    · rw [ofNat_beq (by omega) (by omega) heq, ih (by omega)]
      simp only [show (0 < i ∧ i ≤ n + 1) ↔ (0 < i ∧ i ≤ n) from by omega]

theorem slot_ofNat {i : Nat} (hi : i < 16384) :
    (UInt64.ofNat i).toUInt32 % 16384 = UInt32.ofNat i := by
  have h64 : i < UInt64.size := Nat.lt_trans hi (by decide)
  have h32 : i < UInt32.size := Nat.lt_trans hi (by decide)
  rw [← UInt32.toNat_inj, UInt32.toNat_mod, UInt64.toNat_toUInt32, UInt64.toNat_ofNat_of_lt' h64,
    UInt32.toNat_ofNat_of_lt' h32]
  show i % 2 ^ 32 % 16384 = i
  omega

/-- The next stack is stored. -/
theorem getStackid_next {n : Nat} (hn : n < 10240)
    {m : sampleStackMap.Map sampleAny.stackCap} (hm : Slots.entries m = sampleStacks n) :
    ∃ a m', sampleStackMap.getStackid [.ofNat (n + 1)] m = (.ok a, m') ∧
      Slots.entries m' = sampleStacks (n + 1) := by
  have hslot : (Slots.entries m).lookup (.ofNat (n + 1)) = none := by
    rw [hm, lookup_sampleStacks (by omega) (by omega), if_neg (by omega)]
  have hroom : (Slots.entries m).length < sampleAny.stackCap := by
    rw [hm, length_sampleStacks]
    exact hn
  show ∃ a m', Slots.insert ((UInt64.ofNat (n + 1)).toUInt32 % 16384) [.ofNat (n + 1)] m =
    (.ok a, m') ∧ _
  rw [slot_ofNat (by omega)]
  unfold Slots.insert
  split
  · next stored hstored =>
    rw [hslot] at hstored
    cases hstored
  · rw [dif_pos hroom]
    exact ⟨_, _, rfl, congrArg (_ :: ·) hm⟩

/-- A stack that is stored is shared. -/
theorem getStackid_stored {n i : Nat} (hn : n < 16384) (hi : 0 < i) (hin : i ≤ n)
    {m : sampleStackMap.Map sampleAny.stackCap} (hm : Slots.entries m = sampleStacks n) :
    ∃ a, sampleStackMap.getStackid [.ofNat i] m = (.ok a, m) := by
  have hslot : (Slots.entries m).lookup (.ofNat i) = some [.ofNat i] := by
    rw [hm, lookup_sampleStacks hn (by omega), if_pos ⟨hi, hin⟩]
  show ∃ a, Slots.insert ((UInt64.ofNat i).toUInt32 % 16384) [.ofNat i] m = (.ok a, m)
  rw [slot_ofNat (by omega)]
  unfold Slots.insert
  split
  · next stored hstored =>
    rw [hslot, Option.some.injEq] at hstored
    rw [if_pos hstored.symm]
    exact ⟨_, rfl⟩
  · next hnone =>
    rw [hslot] at hnone
    cases hnone

/-- `n` rounds with two new stacks each. -/
def sampleRounds : Nat → List SystemOp
  | 0 => []
  | n + 1 => sampleRounds n ++ sampleRound (.ofNat (2 * n + 1)) (.ofNat (2 * n + 2))

theorem sampleRounds_run {n : Nat} (hn : n ≤ 5120) : ∃ s,
    System.run sampleStackMap (sampleBootOf sampleAny rfl) .wrap sampleDecode (sampleRounds n) =
        some s ∧ Ready n s ∧ Slots.entries s.stackTraces = sampleStacks (2 * n) := by
  induction n with
  | zero =>
    have hqueue : ∀ t ≠ (7 : UInt32), EventStream.new.bpfEvents.queue t = [] :=
      fun t _ => Filing.queue_empty t
    refine ⟨_, rfl, ⟨⟨0, [], by decide, rfl⟩, ?_, rfl, rfl, hqueue, rfl⟩, rfl⟩
    exact UInt64.zero_le
  | succ n ih =>
    obtain ⟨s, hs, hready, hm⟩ := ih (by omega)
    obtain ⟨a, m, hkernel, hm₁⟩ := getStackid_next (by omega) hm
    obtain ⟨b, m', huser, hm₂⟩ := getStackid_next (by omega) hm₁
    obtain ⟨s', hs', hready', hmap⟩ := hready.round hkernel huser
    refine ⟨s', ?_, hready', by rw [hmap]; exact hm₂⟩
    rw [System.run, sampleRounds, exec_append]
    exact Option.bind_eq_some_iff.mpr ⟨s, hs, hs'⟩

theorem sampleRepeat_run {n k : Nat} {s : System sampleStackMap sampleAny.stackCap}
    (hs : Ready n s) (hm : Slots.entries s.stackTraces = sampleStacks 10240) :
    ∃ s', exec (System.step sampleAny .wrap sampleDecode) s
      (List.replicate k (sampleRound 1 2)).flatten = some s' ∧ Ready (n + k) s' := by
  induction k generalizing n s with
  | zero => exact ⟨s, rfl, hs⟩
  | succ k ih =>
    obtain ⟨a, hkernel⟩ := getStackid_stored (i := 1) (by omega) (by omega) (by omega) hm
    obtain ⟨b, huser⟩ := getStackid_stored (i := 2) (by omega) (by omega) (by omega) hm
    obtain ⟨m, hround, hready, hmap⟩ := hs.round hkernel huser
    obtain ⟨s', hs', hready'⟩ := ih hready (by rw [hmap]; exact hm)
    refine ⟨s', ?_, by rwa [Nat.add_assoc, Nat.add_comm 1 k] at hready'⟩
    rw [List.replicate_succ, List.flatten_cons, exec_append]
    exact Option.bind_eq_some_iff.mpr ⟨m, hround, hs'⟩

/-- The 5120 blocks fill the map, and of the next 80 the last is warned of. -/
theorem storage_warnings_sampleRounds : ∃ s s' : System sampleStackMap sampleAny.stackCap,
    System.run sampleStackMap (sampleBootOf sampleAny rfl) .wrap sampleDecode
      (sampleRounds 5120) = some s ∧
    exec (System.step sampleAny .wrap sampleDecode) s
      (List.replicate 80 (sampleRound 1 2)).flatten = some s' ∧
    sampleStackMap.size s.stackTraces = 10240 ∧ s.added.length = 5120 ∧ s'.added.length = 5200 ∧
    s'.warnings.length = s.warnings.length + 1 := by
  obtain ⟨s, hs, hready, hm⟩ := sampleRounds_run (n := 5120) (Nat.le_refl _)
  obtain ⟨s', hs', hready'⟩ := sampleRepeat_run (k := 80) hready hm
  have hsize : sampleStackMap.size s.stackTraces = 10240 := by
    show ((Slots.entries s.stackTraces).map Prod.fst).length = 10240
    rw [hm, List.length_map, length_sampleStacks]
  have hretains : sampleStackMap.Retains := slotMap_retains _
  have hlists : sampleStackMap.Lists := slotMap_lists _
  have hwarns := (storage_warnings hretains hlists hs hs').2.2 hsize.ge
    (by rw [hready'.added]; decide)
  rw [hready.added, hready'.added] at hwarns
  exact ⟨s, s', hs, hs', hsize, hready.added, hready'.added, by omega⟩

end Jbm
