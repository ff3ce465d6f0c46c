import Jbm.Laws.Ebpf.Complete

/-!
# The entering thread when the map is full

One run of `try_jbm` serves two threads: it stamps the one that leaves, then turns the stamp of
the one that enters into an event. A failed insert for the first returns before the second is
looked at. `Serves` is what the entering thread is owed by its own stamp, and
`entering_served_iff` says when a run of `try_jbm` gives it: unless a thread of the target leaves,
finds no room, and the thread that enters has a stamp.

`crowd` is a host that brings this about: one CPU and 10241 threads of the target, each of which
runs once, fill the map.
-/

set_option autoImplicit false

namespace Jbm

open Base

/-- What a run of `try_jbm` owes the thread that enters: the event of the block between its own
stamp and now if that block qualifies, none otherwise, and the removal of its stamp. -/
structure Serves (config : Config) (current : TaskStruct) (h : Helpers) (m : StartTimes)
    (r : Probed) : Prop where
  reported : ∀ tStart, m.get? current.pid = some tStart →
    Qualifies config current tStart h.tEnd →
    ∃ event, r.output = [event] ∧ IsBlock config current tStart h.tEnd event
  silent : (∀ tStart, m.get? current.pid = some tStart →
    ¬ Qualifies config current tStart h.tEnd) → r.output = []
  gone : r.startTimes.get? current.pid = none

/-- The thread that leaves belongs to the target and finds no room, and the thread that enters
has a stamp. -/
def Starves (config : Config) (prev current : TaskStruct) (m : StartTimes) : Prop :=
  prev.tgid = config.targetTgid ∧ m.hasRoom prev.pid = false ∧ (m.get? current.pid).isSome = true

/-! ## One run of `try_jbm` -/

/-- What a run does when nothing fails serves the entering thread. -/
theorem Answers.serves {config : Config} {prev current : TaskStruct} {h : Helpers}
    {m : StartTimes} {r : Probed} (ha : Answers config prev current h m r) :
    Serves config current h m r where
  reported tStart hget hq := by
    obtain ⟨event, hout, hblock, _⟩ := ha.reported tStart hget hq
    exact ⟨event, hout, hblock⟩
  silent hno := (ha.silent hno).1
  gone := by rw [ha.stamps, if_pos rfl]

/-- Where the insert fails, the run leaves the map alone and outputs nothing. -/
theorem tryJbm_of_no_room {config : Config} {prev current : TaskStruct} {h : Helpers}
    {m : StartTimes} (hreads : h.reads) (htgid : prev.tgid = config.targetTgid)
    (hroom : m.hasRoom prev.pid = false) :
    tryJbm config prev current h m = ⟨m, [], [], .error e2big⟩ := by
  obtain ⟨harg, hpid, htg⟩ := hreads
  have hrec : recordPrev config prev h m = .error e2big := by
    rw [recordPrev, if_pos htgid, BoundedMap.insert_of_no_room hroom]
  unfold tryJbm
  rw [if_pos harg, hpid, htg]
  simp only [hrec]

/-- A run whose other helpers succeed serves the entering thread exactly when it does not starve
it. -/
theorem tryJbm_serves_iff {config : Config} {prev current : TaskStruct} {h : Helpers}
    {m : StartTimes} (hh : h.Succeed)
    (hids : ¬ (prev.tgid = config.targetTgid ∧ current.pid = prev.pid)) :
    Serves config current h m (tryJbm config prev current h m) ↔
      ¬ Starves config prev current m := by
  by_cases hfull : prev.tgid = config.targetTgid ∧ m.hasRoom prev.pid = false
  · obtain ⟨htgid, hroom⟩ := hfull
    rw [tryJbm_of_no_room hh.reads htgid hroom]
    constructor
    · rintro hserves ⟨_, _, hsome⟩
      have hgone : m.get? current.pid = none := hserves.gone
      rw [hgone] at hsome
      cases hsome
    · intro hno
      have hget : m.get? current.pid = none := by
        by_contra hsome
        exact hno ⟨htgid, hroom, Option.isSome_iff_ne_none.mpr hsome⟩
      refine ⟨fun tStart hstart _ => ?_, fun _ => rfl, hget⟩
      rw [hget] at hstart
      cases hstart
  · have hroom : prev.tgid = config.targetTgid → m.hasRoom prev.pid = true := fun htgid =>
      Bool.not_eq_false _ ▸ fun hr => hfull ⟨htgid, hr⟩
    have ha := (probes_tryJbm config prev current h m).answers hh hroom hids
    exact ⟨fun _ hstarves => hfull ⟨hstarves.1, hstarves.2.1⟩, fun _ => ha.serves⟩

/-! ## A run of the kernel -/

/-- The helpers of a switch succeed, apart from the insert. -/
def KernelOp.Succeed : KernelOp → Prop
  | .fork _ => True
  | .switch _ _ _ h => h.Succeed

/-- A switch serves the thread that enters. -/
def Kernel.Serves (config : Config) (s : Kernel) : KernelOp → Prop
  | .fork _ => True
  | .switch cpu next _ h => ∀ prev ∈ s.running[cpu]?,
      Jbm.Serves config next h s.startTimes (tryJbm config prev next h s.startTimes)

/-- A switch does not starve the thread that enters. -/
def Kernel.Spares (config : Config) (s : Kernel) : KernelOp → Prop
  | .fork _ => True
  | .switch cpu next _ _ => ∀ prev ∈ s.running[cpu]?, ¬ Starves config prev next s.startTimes

theorem Kernel.Sane.serves_iff {config : Config} {s s' : Kernel} {op : KernelOp}
    (hs : s.Sane config) (h : Kernel.Steps config s op s') (hop : op.Succeed) :
    s.Serves config op ↔ s.Spares config op := by
  cases h with
  | fork _ _ => exact Iff.rfl
  | switch hprev halive hoff _ _ _ =>
    have hids := (hs.prev_ne_next hprev halive hoff).2
    simp only [Kernel.Serves, Kernel.Spares, hprev, Option.mem_def, Option.some.injEq,
      forall_eq']
    exact tryJbm_serves_iff hop hids

/-- **A switch serves the thread that enters exactly when it does not starve it**, at every switch
of every run whose helpers, apart from the insert, succeed. -/
theorem entering_served_iff {config : Config} {b : Boot config} {ops : List KernelOp} {s : Kernel}
    (h : Kernel.run b ops = some s) :
    Meets (Kernel.step config)
      (fun s op => op.Succeed → (s.Serves config op ↔ s.Spares config op)) (.boot b) ops := by
  refine exec_meets (I := Kernel.Sane config) (fun _ _ _ hI hstep => ?_)
    (fun _ _ _ hI hstep hop => ?_) (Kernel.sane_boot b) h
  · exact hI.step (Kernel.steps_of_step hstep)
  · exact hI.serves_iff (Kernel.steps_of_step hstep) hop

theorem entering_served_iff_sampleInterval :
    Meets (Kernel.step sampleConfig)
      (fun s op => op.Succeed → (s.Serves sampleConfig op ↔ s.Spares sampleConfig op))
      (.boot sampleBoot) sampleInterval :=
  entering_served_iff (Option.some_get sampleInterval_runs).symm

/-! ## A full map -/

/-- A thread of the target for every number. -/
def crowdThread (i : Nat) : TaskStruct := ⟨i, UInt32.ofNat i, 100⟩

theorem eq_crowdThread_pid {p : UInt32} {i : Nat} (hi : i ≤ 10240) :
    p = (crowdThread i).pid ↔ p.toNat = i := by
  have hsize : UInt32.size = 4294967296 := rfl
  have hnat : (UInt32.ofNat i).toNat = i := UInt32.toNat_ofNat_of_lt (by omega)
  rw [← UInt32.toNat_inj]
  show p.toNat = (UInt32.ofNat i).toNat ↔ _
  rw [hnat]

/-- One thread more than the map has room for. -/
def crowdTasks : List TaskStruct := (List.range 10241).map crowdThread

theorem mem_crowdTasks {t : TaskStruct} : t ∈ crowdTasks ↔ ∃ i ≤ 10240, crowdThread i = t := by
  simp only [crowdTasks, List.mem_map, List.mem_range, Nat.lt_succ_iff]

/-- One CPU. -/
def crowdBoot : Boot sampleConfig where
  tasks := crowdTasks
  running := [crowdThread 0]
  placed t ht := mem_crowdTasks.mpr ⟨0, Nat.zero_le _, (List.mem_singleton.mp ht).symm⟩
  once := List.nodup_singleton _
  apart := by
    intro t ht u hu _ hpid
    obtain ⟨i, hi, rfl⟩ := mem_crowdTasks.mp ht
    obtain ⟨j, hj, rfl⟩ := mem_crowdTasks.mp hu
    have hij := (eq_crowdThread_pid (by omega)).mp hpid
    rw [(eq_crowdThread_pid (by omega)).mp rfl] at hij
    rw [hij]

/-- The first `n` threads leave, one for the next, all at 1 ms. -/
def crowd (n : Nat) : List KernelOp :=
  (List.range n).map fun i => .switch 0 (crowdThread (i + 1)) false (sampleHelpers 1000000)

/-- The kernel after `crowd n`. -/
structure Crowded (n : Nat) (s : Kernel) : Prop where
  born : s.born = crowdTasks
  exited : s.exited = []
  running : s.running = [crowdThread n]
  clock : s.clock ≤ 1000000
  stamps : ∀ p, s.startTimes.get? p = if p.toNat < n then some 1000000 else none

/-- The map holds as many stamps as threads have left. -/
theorem Crowded.size {n : Nat} {s : Kernel} (h : Crowded n s) (hn : n ≤ 10240) :
    s.startTimes.size = n := by
  have hkeys : s.startTimes.keys = (Finset.range n).image UInt32.ofNat := by
    ext p
    rw [BoundedMap.mem_keys, h.stamps, Finset.mem_image]
    constructor
    · intro hp
      have hlt : p.toNat < n := by
        by_contra hno
        rw [if_neg hno] at hp
        cases hp
      exact ⟨p.toNat, Finset.mem_range.mpr hlt, UInt32.ofNat_toNat⟩
    · rintro ⟨i, hi, hp⟩
      have hi := Finset.mem_range.mp hi
      rw [(eq_crowdThread_pid (by omega)).mp hp.symm, if_pos hi]
      rfl
  rw [BoundedMap.size, hkeys, Finset.card_image_of_injOn, Finset.card_range]
  intro i hi j hj hij
  rw [Finset.mem_coe, Finset.mem_range] at hi hj
  have hleft := (@eq_crowdThread_pid (UInt32.ofNat i) i (by omega)).mp rfl
  have hright := (@eq_crowdThread_pid (UInt32.ofNat i) j (by omega)).mp hij
  exact hleft.symm.trans hright

/-- A thread of the crowd that does not run can be switched to. -/
theorem Crowded.step {n : Nat} {s : Kernel} (h : Crowded n s) {i : Nat} (hi : i ≤ 10240)
    (hne : i ≠ n) {now : UInt64} (hnow : 1000000 ≤ now) :
    let r := tryJbm sampleConfig (crowdThread n) (crowdThread i) (sampleHelpers now) s.startTimes
    s.step sampleConfig (.switch 0 (crowdThread i) false (sampleHelpers now)) =
      some
        { s with
          running := [crowdThread i]
          clock := now
          startTimes := r.startTimes
          trace := ⟨crowdThread n, crowdThread i, sampleHelpers now, false, r.output,
            r.signals⟩ :: s.trace } := by
  intro r
  have hborn : crowdThread i ∈ s.born := by
    rw [h.born]
    exact mem_crowdTasks.mpr ⟨i, hi, rfl⟩
  have hoff : crowdThread i ∉ s.running := by
    rw [h.running, List.mem_singleton]
    exact fun heq => hne (congrArg TaskStruct.serial heq)
  have hprev : s.running[0]? = some (crowdThread n) := by rw [h.running]; rfl
  have halive : s.Alive (crowdThread i) := ⟨hborn, by simp [h.exited]⟩
  simp only [Kernel.step, hprev]
  rw [if_pos ⟨halive, hoff, UInt64.le_trans h.clock hnow, UInt64.le_refl _⟩, h.running]
  rfl

/-- The next thread takes over, and one more stamp is held. -/
theorem Crowded.next {n : Nat} {s : Kernel} (h : Crowded n s) (hn : n < 10240) :
    ∃ s', s.step sampleConfig
      (.switch 0 (crowdThread (n + 1)) false (sampleHelpers 1000000)) = some s' ∧
      Crowded (n + 1) s' := by
  have hnext : (crowdThread (n + 1)).pid ≠ (crowdThread n).pid := by
    intro heq
    have hpid := (eq_crowdThread_pid (by omega)).mp heq
    rw [(eq_crowdThread_pid (by omega)).mp rfl] at hpid
    omega
  have hroom : s.startTimes.hasRoom (crowdThread n).pid = true :=
    decide_eq_true (.inr (by rw [h.size (by omega)]; exact hn))
  have ha := (probes_tryJbm sampleConfig (crowdThread n) (crowdThread (n + 1))
    (sampleHelpers 1000000) s.startTimes).answers (by decide) (fun _ => hroom)
    fun hids => hnext hids.2
  refine ⟨_, h.step (by omega) (by omega) (UInt64.le_refl _), h.born, h.exited, rfl,
    UInt64.le_refl _, fun p => ?_⟩
  refine (ha.stamps p).trans ?_
  simp only [h.stamps, eq_crowdThread_pid (show n + 1 ≤ 10240 by omega),
    eq_crowdThread_pid (show n ≤ 10240 by omega)]
  by_cases hp : p.toNat = n + 1
  · rw [if_pos hp, if_neg (by omega)]
  · rw [if_neg hp]
    by_cases hlast : p.toNat = n
    · rw [if_pos ⟨rfl, hlast⟩, if_pos (by omega)]
      rfl
    · rw [if_neg fun hq => hlast hq.2]
      by_cases hlt : p.toNat < n
      · rw [if_pos hlt, if_pos (by omega)]
      · rw [if_neg hlt, if_neg (by omega)]

theorem crowded_of_crowd {n : Nat} (hn : n ≤ 10240) :
    ∃ s, Kernel.run crowdBoot (crowd n) = some s ∧ Crowded n s := by
  induction n with
  | zero =>
    refine ⟨.boot crowdBoot, rfl, ?_, rfl, rfl, by decide, fun p => ?_⟩
    · simp only [Kernel.boot, crowdBoot]
    · simp [Kernel.boot]
  | succ n ih =>
    obtain ⟨m, hm, hcrowded⟩ := ih (by omega)
    obtain ⟨s, hs, hnext⟩ := hcrowded.next (by omega)
    refine ⟨s, ?_, hnext⟩
    rw [Kernel.run, crowd, List.range_succ, List.map_append]
    exact exec_concat.mpr ⟨m, hm, hs⟩

/-- The first thread of the crowd comes back after 4 ms, when the map is full. -/
def comeback : KernelOp := .switch 0 (crowdThread 0) false (sampleHelpers 5000000)

/-- Its block is not reported, and its stamp stays. -/
theorem crowd_starves :
    ∃ s s', Kernel.run crowdBoot (crowd 10240) = some s ∧ s.step sampleConfig comeback = some s' ∧
      comeback.Succeed ∧ ¬ s.Serves sampleConfig comeback := by
  obtain ⟨s, hs, hcrowded⟩ := crowded_of_crowd (Nat.le_refl 10240)
  have hstep := hcrowded.step (Nat.zero_le _) (by omega)
    (show (1000000 : UInt64) ≤ 5000000 by decide)
  have hsane := Kernel.sane_of_run hs
  have hsucceed : comeback.Succeed := show (sampleHelpers 5000000).Succeed by decide
  refine ⟨s, _, hs, hstep, hsucceed, fun hserves => ?_⟩
  have hspares := (hsane.serves_iff (Kernel.steps_of_step hstep) hsucceed).mp hserves
  refine hspares (crowdThread 10240) (by rw [hcrowded.running]; rfl) ⟨rfl, ?_, ?_⟩
  · refine decide_eq_false fun hroom => ?_
    rw [BoundedMap.mem_keys, hcrowded.stamps, hcrowded.size (Nat.le_refl _)] at hroom
    rcases hroom with hkey | hlt
    · rw [(eq_crowdThread_pid (Nat.le_refl _)).mp rfl] at hkey
      simp at hkey
    · exact Nat.lt_irrefl _ hlt
  · rw [hcrowded.stamps, (eq_crowdThread_pid (Nat.zero_le _)).mp rfl]
    rfl

end Jbm
