import Jbm.Ebpf.Kernel

/-!
# What `START_TIMES` holds

A stamp is written when a thread of the target leaves the CPU and removed when a thread of the
same id enters one. Nothing removes it when the thread exits: an exiting thread is switched out
like any other, and its stamp stays until its id is used again. So the map holds ids of threads
that are off the CPU, live or exited (`Kernel.Left`), as long as no run of `try_jbm` has returned
before the removal.
-/

set_option autoImplicit false

namespace Jbm

open Base

/-- A thread of the target has left the CPU, and no thread of its id has entered one since. The
thread is live or has exited. -/
structure Kernel.Left (config : Config) (s : Kernel) (t : TaskStruct) : Prop where
  born : t ∈ s.born
  target : t.tgid = config.targetTgid
  off : t ∉ s.running
  leave : ∃ newer o older, s.trace = newer ++ o :: older ∧ o.prev = t ∧
    ∀ x ∈ newer, x.next.pid ≠ t.pid

/-- The switch at which a thread of the target left under an id no thread has entered with
since. -/
def lastOutId (config : Config) (p : UInt32) : List Switch → Option Switch :=
  latest (fun e => decide (e.next.pid = p))
    (fun e => decide (e.prev.pid = p ∧ e.prev.tgid = config.targetTgid))

theorem lastOutId_cons {config : Config} {p : UInt32} {e : Switch} {trace : List Switch} :
    lastOutId config p (e :: trace) =
      if e.next.pid = p then none
      else if e.prev.pid = p ∧ e.prev.tgid = config.targetTgid then some e
      else lastOutId config p trace := by
  simp [lastOutId, latest]

/-- The thread that left is off the CPU. -/
theorem Kernel.Sane.left {config : Config} {s : Kernel} (hs : s.Sane config) {p : UInt32}
    {o : Switch} (ho : lastOutId config p s.trace = some o) :
    s.Left config o.prev ∧ o.prev.pid = p := by
  obtain ⟨newer, older, htrace, hopen, hclose, hnewer⟩ := latest_eq_some.mp ho
  simp only [decide_eq_true_eq, decide_eq_false_iff_not] at hopen hclose hnewer
  obtain ⟨hpid, htgid⟩ := hopen
  have hlast : lastOut o.prev s.trace = some o := by
    apply lastOut_eq_some.mpr
    refine ⟨newer, older, htrace, rfl, fun heq => hclose ?_, fun x hx => ⟨fun heq => ?_,
      fun heq => ?_⟩⟩
    · rw [heq, hpid]
    · refine (hnewer x hx).1 ⟨?_, ?_⟩
      · rw [heq, hpid]
      · rw [heq, htgid]
    · exact (hnewer x hx).2 (by rw [heq, hpid])
  have hmem : o ∈ s.trace := by
    rw [htrace]
    exact List.mem_append_right _ List.mem_cons_self
  refine ⟨⟨(hs.seen o hmem).1, htgid, hs.off _ o hlast, newer, o, older, htrace, rfl, ?_⟩, hpid⟩
  intro x hx
  rw [hpid]
  exact (hnewer x hx).2

/-- The ids under which threads of the target have left and none has entered since. -/
def Kernel.leftIds (config : Config) (s : Kernel) : Finset UInt32 :=
  (s.trace.map fun e => e.prev.pid).toFinset.filter fun p => (lastOutId config p s.trace).isSome

theorem Kernel.mem_leftIds {config : Config} {s : Kernel} {p : UInt32} :
    p ∈ s.leftIds config ↔ ∃ o, lastOutId config p s.trace = some o := by
  rw [Kernel.leftIds, Finset.mem_filter, Option.isSome_iff_exists, and_iff_right_iff_imp]
  rintro ⟨o, ho⟩
  obtain ⟨hmem, hopen, _⟩ := mem_of_latest ho
  rw [decide_eq_true_eq] at hopen
  rw [List.mem_toFinset]
  exact List.mem_map.mpr ⟨o, hmem, hopen.1⟩

/-- The run of `try_jbm` gets past the removal: it learns who leaves, finds room, and its removal
does not fail. -/
def Kernel.Orderly (config : Config) (s : Kernel) : KernelOp → Prop
  | .fork _ => True
  | .switch cpu _ _ h => h.reads ∧ h.removeError = none ∧
      ∀ prev ∈ s.running[cpu]?, prev.tgid = config.targetTgid →
        s.startTimes.hasRoom prev.pid = true

instance (config : Config) (s : Kernel) (op : KernelOp) : Decidable (s.Orderly config op) :=
  match op with
  | .fork _ => .isTrue trivial
  | .switch cpu _ _ h =>
    inferInstanceAs (Decidable (h.reads ∧ h.removeError = none ∧ ∀ prev ∈ s.running[cpu]?, _))

/-- A run that gets past the removal leaves no stamp under the entering thread's id. -/
theorem Probes.removed {config : Config} {prev current : TaskStruct} {h : Helpers}
    {m : StartTimes} {r : Probed} (hr : Probes config prev current h m r) (hreads : h.reads)
    (hremove : h.removeError = none)
    (hroom : prev.tgid = config.targetTgid → m.hasRoom prev.pid = true) :
    r.startTimes.get? current.pid = none := by
  have gone : ∀ {m' m'' : StartTimes}, m'.remove current.pid = some m'' →
      m''.get? current.pid = none := by
    intro m' m'' hrem
    rw [BoundedMap.get?_of_remove hrem, if_pos rfl]
  cases hr with
  | unread hno => exact absurd hreads hno
  | full _ htgid hins => exact absurd hins (BoundedMap.insert_ne_none (hroom htgid) _)
  | recorded _ _ hrep =>
    cases hrep with
    | absent hget => exact hget
    | stuck _ herr =>
      rw [hremove] at herr
      cases herr
    | silent _ _ hrem _ => exact gone hrem
    | failed _ _ hrem _ => exact gone hrem
    | reported _ _ hrem _ _ => exact gone hrem

/-- Every stamp is filed under an id whose thread has left. -/
structure Kernel.Holds (config : Config) (s : Kernel) : Prop where
  sane : s.Sane config
  held : s.startTimes.keys ⊆ s.leftIds config

theorem Kernel.holds_boot {config : Config} (b : Boot config) : (Kernel.boot b).Holds config where
  sane := Kernel.sane_boot b
  held := by
    intro p hp
    rw [BoundedMap.mem_keys] at hp
    simp [Kernel.boot] at hp

theorem Kernel.Holds.step {config : Config} {s s' : Kernel} {op : KernelOp}
    (hs : s.Holds config) (hop : s.Orderly config op) (h : Kernel.Steps config s op s') :
    s'.Holds config := by
  refine ⟨hs.sane.step h, ?_⟩
  cases h with
  | fork _ _ => exact hs.held
  | @switch cpu prev next exits helpers r hprev _ _ _ _ hprobe =>
    obtain ⟨hreads, hremove, hroom⟩ := hop
    intro p hp
    obtain ⟨v, hv⟩ := Option.isSome_iff_exists.mp (BoundedMap.mem_keys.mp hp)
    have hnext : next.pid ≠ p := by
      rintro rfl
      rw [hprobe.removed hreads hremove (hroom prev hprev)] at hv
      cases hv
    rw [Kernel.mem_leftIds, lastOutId_cons, if_neg hnext]
    have hstamp := hprobe.get? hv
    split
    · exact ⟨_, rfl⟩
    · next hprev =>
      rw [if_neg fun hp => hprev ⟨hp.1.2.symm, hp.1.1⟩] at hstamp
      apply Kernel.mem_leftIds.mp
      apply hs.held
      rw [BoundedMap.mem_keys, hstamp]
      rfl

/-- **`START_TIMES` holds only ids of threads that are off the CPU, live or exited**, as long as
every run of `try_jbm` has got past its removal. So there are never more entries than such ids,
and the first insert to fail, for a thread of the target that runs, finds 10240 of them beside
that thread's. -/
theorem start_times_off_cpu {config : Config} {b : Boot config} {ops : List KernelOp} {s : Kernel}
    (h : Kernel.run b ops = some s)
    (hok : Meets (Kernel.step config) (Kernel.Orderly config) (.boot b) ops) :
    s.startTimes.keys ⊆ s.leftIds config ∧
      (∀ p ∈ s.leftIds config, ∃ t, s.Left config t ∧ t.pid = p) ∧
      s.startTimes.size ≤ (s.leftIds config).card ∧
      ∀ p ts, s.startTimes.insert p ts = none → 10240 ≤ ((s.leftIds config).erase p).card := by
  have keep : ∀ (s : Kernel) (op : KernelOp) (s' : Kernel), s.Holds config →
      s.Orderly config op → s.step config op = some s' → s'.Holds config :=
    fun _ _ _ hs hop hstep => hs.step hop (Kernel.steps_of_step hstep)
  have hs : s.Holds config := exec_invariant keep (Kernel.holds_boot b) hok h
  refine ⟨hs.held, fun p hp => ?_, Finset.card_le_card hs.held, fun p ts hins => ?_⟩
  · obtain ⟨o, ho⟩ := Kernel.mem_leftIds.mp hp
    exact ⟨o.prev, hs.sane.left ho⟩
  · obtain ⟨habsent, hfull⟩ := BoundedMap.insert_eq_none.mp hins
    rw [← hfull]
    apply Finset.card_le_card
    apply Finset.subset_erase.mpr
    exact ⟨hs.held, BoundedMap.not_mem_keys.mpr habsent⟩

/-- Thread 7 exits. -/
def sampleExit : List KernelOp := [.switch 0 sampleIdle true (sampleHelpers 1000000)]

theorem sampleExit_runs : (Kernel.run sampleBoot sampleExit).isSome := by decide

theorem start_times_off_cpu_sampleExit :
    let s := (Kernel.run sampleBoot sampleExit).get sampleExit_runs
    s.startTimes.keys = {7} ∧ s.startTimes.keys ⊆ s.leftIds sampleConfig ∧
      (∀ p ∈ s.leftIds sampleConfig, ∃ t, s.Left sampleConfig t ∧ t.pid = p) ∧
      s.startTimes.size ≤ (s.leftIds sampleConfig).card ∧
      ∀ p ts, s.startTimes.insert p ts = none →
        10240 ≤ ((s.leftIds sampleConfig).erase p).card :=
  ⟨by decide, start_times_off_cpu (Option.some_get sampleExit_runs).symm (by decide)⟩

/-- An exited thread leaves its stamp behind. -/
theorem stamp_of_exited_thread :
    ¬ ∀ s, Kernel.run sampleBoot sampleExit = some s → ∀ p ∈ s.startTimes.keys,
      ∃ t ∈ s.born, s.Alive t ∧ t.tgid = sampleConfig.targetTgid ∧ t.pid = p ∧
        t ∉ s.running := by
  intro hall
  exact absurd (hall _ (Option.some_get sampleExit_runs).symm 7 (by decide)) (by decide)

end Jbm
