import Jbm.Ebpf.Kernel

/-!
# Reported blocks do not overlap

The stamp a block starts from was written after the id's last report, since a report removes the
stamp it used. So the blocks output under one thread id follow one another: each starts when the
one before it has ended, or later. This needs no condition on the run: it holds whichever helpers
fail and however ids are reused, also where a block is no real interval of one thread.
-/

set_option autoImplicit false

namespace Jbm

open Base

/-- The events output so far, oldest first. -/
def Kernel.outputs (s : Kernel) : List BlockEvent := s.trace.reverse.flatMap (·.output)

/-- Of two blocks output under one thread id, the later starts when the earlier has ended. -/
def Follows (a b : BlockEvent) : Prop := a.pid = b.pid → a.tEnd ≤ b.tStart

/-- The length of a block in nanoseconds lies within the configured bounds. -/
structure Lasts (config : Config) (event : BlockEvent) : Prop where
  long : event.tStart.toNat + 1000 * config.minBlockUs.toNat ≤ event.tEnd.toNat
  short : event.tEnd.toNat < event.tStart.toNat + 1000 * (config.maxBlockUs.toNat + 1)
  offtime : event.offtime.toNat = (event.tEnd.toNat - event.tStart.toNat) / 1000

/-- A run outputs one event at most, and then no stamp is left under its id. -/
theorem Probes.output_cases {config : Config} {prev current : TaskStruct} {h : Helpers}
    {m : StartTimes} {r : Probed} (hr : Probes config prev current h m r) :
    r.output = [] ∨
      ∃ event, r.output = [event] ∧ event.pid = current.pid ∧ r.startTimes.get? event.pid = none := by
  cases hr with
  | unread _ => exact .inl rfl
  | full _ _ _ => exact .inl rfl
  | recorded _ _ hrep =>
    cases hrep with
    | absent _ => exact .inl rfl
    | stuck _ _ => exact .inl rfl
    | silent _ _ _ _ => exact .inl rfl
    | failed _ _ _ _ => exact .inl rfl
    | reported _ _ hrem _ hs =>
      refine .inr ⟨_, rfl, (submit_ok hs).1, ?_⟩
      rw [BoundedMap.get?_of_remove hrem, if_pos (submit_ok hs).1]

/-- A block output by a run of `try_jbm` has the configured length. -/
theorem Probes.lasts {config : Config} {prev current : TaskStruct} {h : Helpers}
    {m : StartTimes} {r : Probed} (hr : Probes config prev current h m r) {event : BlockEvent}
    (he : event ∈ r.output) : Lasts config event := by
  obtain ⟨_, _, tStart, _, _, hq, hblock⟩ := hr.output he
  have hle := UInt64.le_iff_toNat_le.mp hq.ordered
  obtain ⟨_, hlong, hshort⟩ := (qualifies_iff hq.ordered).mp hq
  have hoff := hblock.offtime
  rw [← hblock.tStart, ← hblock.tEnd] at *
  exact ⟨by omega, by omega, hoff⟩

/-- What holds of the outputs and the stamps of every reachable kernel. -/
structure Kernel.Sequenced (config : Config) (s : Kernel) : Prop where
  ended : ∀ a ∈ s.outputs, a.tEnd ≤ s.clock
  stamped : ∀ p v, s.startTimes.get? p = some v → v ≤ s.clock
  /-- a stamp is not older than any block output under its id -/
  later : ∀ p v, s.startTimes.get? p = some v → ∀ a ∈ s.outputs, a.pid = p → a.tEnd ≤ v
  follows : s.outputs.Pairwise Follows
  lasts : ∀ a ∈ s.outputs, Lasts config a

theorem Kernel.sequenced_boot {config : Config} (b : Boot config) :
    (Kernel.boot b).Sequenced config where
  ended _ ha := by cases ha
  stamped _ _ hv := by cases (BoundedMap.get?_empty _).symm.trans hv
  later _ _ _ _ ha := by cases ha
  follows := List.Pairwise.nil
  lasts _ ha := by cases ha

theorem Kernel.Sequenced.step {config : Config} {s s' : Kernel} {op : KernelOp}
    (hs : s.Sequenced config) (h : Kernel.Steps config s op s') : s'.Sequenced config := by
  cases h with
  | fork _ _ => exact ⟨hs.ended, hs.stamped, hs.later, hs.follows, hs.lasts⟩
  | @switch cpu prev next exits helpers r _ _ _ hclock hts hprobe =>
    have hnow := UInt64.le_trans hclock hts
    have houtputs : Kernel.outputs
        { s with
          exited := if exits then prev :: s.exited else s.exited
          running := s.running.set cpu next
          clock := helpers.tEnd
          startTimes := r.startTimes
          trace := ⟨prev, next, helpers, exits, r.output, r.signals⟩ :: s.trace } =
        s.outputs ++ r.output := by simp [Kernel.outputs]
    have hend : ∀ event ∈ r.output, event.tEnd = helpers.tEnd := by
      intro event he
      obtain ⟨_, _, _, _, _, _, hblock⟩ := hprobe.output he
      exact hblock.tEnd
    -- a stamp that is new is not older than anything that was output before
    have hstamp : ∀ p v, (if (prev.tgid = config.targetTgid ∧ p = prev.pid) ∧ helpers.reads
        then v = helpers.ts else s.startTimes.get? p = some v) →
        v ≤ helpers.tEnd ∧ ∀ a ∈ s.outputs, a.pid = p → a.tEnd ≤ v := by
      intro p v hv
      split at hv
      · subst hv
        exact ⟨hts, fun a ha _ => UInt64.le_trans (hs.ended a ha) hclock⟩
      · exact ⟨UInt64.le_trans (hs.stamped p v hv) hnow, hs.later p v hv⟩
    refine ⟨?_, fun p v hv => (hstamp p v (hprobe.get? hv)).1, ?_, ?_, ?_⟩
    · rw [houtputs]
      intro a ha
      rcases List.mem_append.mp ha with ha | ha
      · exact UInt64.le_trans (hs.ended a ha) hnow
      · exact UInt64.le_of_eq (hend a ha)
    · rw [houtputs]
      intro p v hv a ha hp
      rcases List.mem_append.mp ha with ha | ha
      · exact (hstamp p v (hprobe.get? hv)).2 a ha hp
      · rcases hprobe.output_cases with hnone | ⟨event, hone, _, hgone⟩
        · rw [hnone] at ha
          cases ha
        · -- the report has removed the stamp
          rw [hone] at ha
          obtain rfl := List.mem_singleton.mp ha
          change r.startTimes.get? p = some v at hv
          rw [← hp, hgone] at hv
          cases hv
    · rw [houtputs]
      refine List.pairwise_append.mpr ⟨hs.follows, ?_, fun a ha b hb hpid => ?_⟩
      · rcases hprobe.output_cases with hnone | ⟨event, hone, _⟩
        · rw [hnone]
          exact List.Pairwise.nil
        · rw [hone]
          exact List.pairwise_singleton _ _
      · obtain ⟨hsucceed, m', tStart, hrec, hget, _, hblock⟩ := hprobe.output hb
        rw [hblock.tStart]
        refine (hstamp b.pid tStart ?_).2 a ha hpid
        rw [get?_of_recordPrev hrec, ← hblock.pid] at hget
        split at hget
        · next hp => rw [if_pos ⟨hp, hsucceed.reads⟩, Option.some.inj hget]
        · next hp =>
          rw [if_neg fun h => hp h.1]
          exact hget
    · rw [houtputs]
      intro a ha
      rcases List.mem_append.mp ha with ha | ha
      · exact hs.lasts a ha
      · exact hprobe.lasts ha

/-- Every reachable kernel is sequenced. -/
theorem Kernel.sequenced_of_run {config : Config} {b : Boot config} {ops : List KernelOp}
    {s : Kernel} (h : Kernel.run b ops = some s) : s.Sequenced config :=
  exec_keeps (fun _ _ _ hI hstep => hI.step (Kernel.steps_of_step hstep))
    (Kernel.sequenced_boot b) h

/-- **Reported blocks of one thread id never overlap**: in every run, whichever helpers fail and
however ids are reused, of two events output under one thread id the later starts when the earlier
has ended or afterwards, and every event has a length within the configured bounds. -/
theorem outputs_follow {config : Config} {b : Boot config} {ops : List KernelOp} {s : Kernel}
    (h : Kernel.run b ops = some s) :
    s.outputs.Pairwise (fun a b => a.pid = b.pid → a.tEnd ≤ b.tStart) ∧
      ∀ e ∈ s.outputs, e.tStart.toNat + 1000 * config.minBlockUs.toNat ≤ e.tEnd.toNat ∧
        e.tEnd.toNat < e.tStart.toNat + 1000 * (config.maxBlockUs.toNat + 1) ∧
        e.offtime.toNat = (e.tEnd.toNat - e.tStart.toNat) / 1000 := by
  have hs := Kernel.sequenced_of_run h
  refine ⟨hs.follows, fun e he => ?_⟩
  exact ⟨(hs.lasts e he).long, (hs.lasts e he).short, (hs.lasts e he).offtime⟩

/-- Thread 7 leaves the CPU twice and is back 4 ms and 9 ms later. -/
def sampleTwice : List KernelOp :=
  sampleInterval ++ [.switch 0 sampleIdle false (sampleHelpers 6000000),
    .switch 0 sampleThread false (sampleHelpers 15000000)]

theorem sampleTwice_runs : (Kernel.run sampleBoot sampleTwice).isSome := by decide

theorem outputs_follow_sampleTwice :
    let s := (Kernel.run sampleBoot sampleTwice).get sampleTwice_runs
    (s.outputs.map fun e => (e.pid, e.tStart, e.tEnd)) =
        [(7, 1000000, 5000000), (7, 6000000, 15000000)] ∧
      s.outputs.Pairwise (fun a b => a.pid = b.pid → a.tEnd ≤ b.tStart) ∧
      ∀ e ∈ s.outputs, e.tStart.toNat + 1000 * sampleConfig.minBlockUs.toNat ≤ e.tEnd.toNat ∧
        e.tEnd.toNat < e.tStart.toNat + 1000 * (sampleConfig.maxBlockUs.toNat + 1) ∧
        e.offtime.toNat = (e.tEnd.toNat - e.tStart.toNat) / 1000 :=
  ⟨by decide, outputs_follow (Option.some_get sampleTwice_runs).symm⟩

end Jbm
