import Jbm.Ebpf.Kernel

/-!
# One event and one signal for every block

When no helper fails, the map has room and no id is given away twice, the map is a picture of the
trace: the id of a thread of the target has a stamp exactly while the thread has left the CPU and
not entered again, and the stamp is the time it left (`Kernel.Tracks`). What a switch reports then
depends on the entering thread's own last leave and on nothing else that happened.
-/

set_option autoImplicit false

namespace Jbm

open Base

/-- The step gives no id away twice; a switch finds its helpers working and room in the map. -/
def Kernel.Smooth (config : Config) (s : Kernel) : KernelOp → Prop
  | .fork t => ∀ u ∈ s.born, u.pid ≠ t.pid
  | .switch cpu _ _ h => h.Succeed ∧ ∀ prev ∈ s.running[cpu]?, prev.tgid = config.targetTgid →
      s.startTimes.hasRoom prev.pid = true

instance (config : Config) (s : Kernel) (op : KernelOp) : Decidable (s.Smooth config op) :=
  match op with
  | .fork t => inferInstanceAs (Decidable (∀ u ∈ s.born, u.pid ≠ t.pid))
  | .switch cpu _ _ h =>
    inferInstanceAs (Decidable (h.Succeed ∧ ∀ prev ∈ s.running[cpu]?, _))

/-- The interval from the leave `o` to the entry `e` lies within the bounds. -/
def Within (config : Config) (o e : Switch) : Prop :=
  config.minBlockUs.toNat ≤ (e.helpers.tEnd.toNat - o.helpers.ts.toNat) / 1000 ∧
    (e.helpers.tEnd.toNat - o.helpers.ts.toNat) / 1000 ≤ config.maxBlockUs.toNat

/-- A switch reports the interval the entering thread completes, and nothing else. -/
structure Exact (config : Config) (older : List Switch) (e : Switch) : Prop where
  reported : ∀ o, lastOut e.next older = some o → e.next.tgid = config.targetTgid →
    Within config o e → ∃ event, e.output = [event] ∧
      IsBlock config e.next o.helpers.ts e.helpers.tEnd event ∧ e.signals = [27]
  silent : (∀ o, lastOut e.next older = some o → e.next.tgid = config.targetTgid →
    ¬ Within config o e) → e.output = [] ∧ e.signals = []

/-- The map is a picture of the trace. -/
structure Kernel.Tracks (config : Config) (s : Kernel) : Prop where
  sane : s.Sane config
  unique : ∀ t ∈ s.born, ∀ u ∈ s.born, t.tgid = config.targetTgid → t.pid = u.pid → t = u
  known : ∀ t ∈ s.born, s.startTimes.get? t.pid =
    if t.tgid = config.targetTgid then (lastOut t s.trace).map (·.helpers.ts) else none
  unknown : ∀ p, (∀ t ∈ s.born, t.pid ≠ p) → s.startTimes.get? p = none
  exact : ∀ newer e older, s.trace = newer ++ e :: older → Exact config older e

theorem Kernel.tracks_boot {config : Config} (b : Boot config) :
    (Kernel.boot b).Tracks config where
  sane := Kernel.sane_boot b
  unique := b.apart
  known t _ := by simp [Kernel.boot, lastOut, latest]
  unknown p _ := by simp [Kernel.boot]
  exact := splits_nil

/-- What a switch answers is exact, when the stamps are those of the trace. -/
theorem Kernel.Tracks.answers_exact {config : Config} {s : Kernel} {prev next : TaskStruct}
    {exits : Bool} {h : Helpers} {r : Probed} (hs : s.Tracks config) (halive : s.Alive next)
    (hclock : s.clock ≤ h.tEnd) (ha : Answers config prev next h s.startTimes r) :
    Exact config s.trace ⟨prev, next, h, exits, r.output, r.signals⟩ := by
  have hknown := hs.known next halive.1
  have hordered : ∀ o, lastOut next s.trace = some o → o.helpers.ts ≤ h.tEnd := by
    intro o ho
    exact UInt64.le_trans (hs.sane.stamped o (mem_of_latest ho).1) hclock
  constructor
  · intro o ho htgid hwithin
    rw [if_pos htgid, ho, Option.map_some] at hknown
    exact ha.reported _ hknown ((qualifies_iff (hordered o ho)).mpr ⟨htgid, hwithin⟩)
  · intro hno
    refine ha.silent fun tStart hstart hq => ?_
    rw [hknown, if_pos hq.target] at hstart
    obtain ⟨o, ho, rfl⟩ := Option.map_eq_some_iff.mp hstart
    exact hno o ho hq.target ((qualifies_iff (hordered o ho)).mp hq).2

theorem Kernel.Tracks.step {config : Config} {s s' : Kernel} {op : KernelOp}
    (hs : s.Tracks config) (hop : s.Smooth config op) (h : Kernel.Steps config s op s') :
    s'.Tracks config := by
  have hsane := hs.sane.step h
  cases h with
  | @fork t hborn _ =>
    refine ⟨hsane, fun u hu v hv htgid hpid => ?_, fun u hu => ?_, fun p hp => ?_, hs.exact⟩
    · rcases List.mem_cons.mp hu with rfl | hold
      · rcases List.mem_cons.mp hv with rfl | hold'
        · rfl
        · exact absurd hpid.symm (hop v hold')
      · rcases List.mem_cons.mp hv with rfl | hold'
        · exact absurd hpid (hop u hold)
        · exact hs.unique u hold v hold' htgid hpid
    · rcases List.mem_cons.mp hu with rfl | hold
      · rw [hs.sane.lastOut_unborn hborn, hs.unknown u.pid hop]
        simp
      · exact hs.known u hold
    · exact hs.unknown p fun u hu => hp u (List.mem_cons_of_mem _ hu)
  | @switch cpu prev next exits helpers r hprev halive hoff hclock hts hprobe =>
    obtain ⟨hhelpers, hroom⟩ := hop
    obtain ⟨hne, hids⟩ := hs.sane.prev_ne_next hprev halive hoff
    have hprev_born := (hs.sane.running_alive prev (List.mem_of_getElem? hprev)).1
    have ha := hprobe.answers hhelpers (hroom prev hprev) hids
    refine ⟨hsane, hs.unique, fun t ht => ?_, fun p hp => ?_, splits_cons ?_ hs.exact⟩
    · rw [lastOut_cons, ha.stamps]
      by_cases hnext : t.pid = next.pid
      · -- the entering thread's stamp is gone, and so is that of another process's thread
        rw [if_pos hnext]
        split
        · next htgid =>
          rw [if_pos (hs.unique t ht next halive.1 htgid hnext).symm]
          rfl
        · rfl
      · rw [if_neg hnext, if_neg fun heq => hnext (congrArg TaskStruct.pid heq).symm]
        by_cases hp : prev.tgid = config.targetTgid ∧ t.pid = prev.pid
        · have hpt : prev = t := hs.unique prev hprev_born t ht hp.1 hp.2.symm
          rw [if_pos hp, if_pos hpt, if_pos (hpt ▸ hp.1)]
          rfl
        · rw [if_neg hp, hs.known t ht]
          split
          · next htgid =>
            have hpt : prev ≠ t := by
              rintro rfl
              exact hp ⟨htgid, rfl⟩
            rw [if_neg hpt]
          · rfl
    · rw [ha.stamps, if_neg fun heq => hp next halive.1 heq.symm,
        if_neg fun hpp => hp prev hprev_born hpp.2.symm]
      exact hs.unknown p hp
    · exact hs.answers_exact halive (UInt64.le_trans hclock hts) ha

/-- **Exactly one event and one signal per qualifying block**, and none otherwise, in every run in
which no id is reused, no helper fails and the map has room. -/
theorem one_event_per_block {config : Config} {b : Boot config} {ops : List KernelOp} {s : Kernel}
    (h : Kernel.run b ops = some s)
    (hok : Meets (Kernel.step config) (Kernel.Smooth config) (.boot b) ops) :
    ∀ newer e older, s.trace = newer ++ e :: older → Exact config older e := by
  have keep : ∀ (s : Kernel) (op : KernelOp) (s' : Kernel), s.Tracks config →
      s.Smooth config op → s.step config op = some s' → s'.Tracks config :=
    fun _ _ _ hs hop hstep => hs.step hop (Kernel.steps_of_step hstep)
  have hs : s.Tracks config := exec_invariant keep (Kernel.tracks_boot b) hok h
  exact hs.exact

theorem one_event_per_block_sampleInterval :
    let trace := ((Kernel.run sampleBoot sampleInterval).get sampleInterval_runs).trace
    ∃ h : trace ≠ [], Exact sampleConfig trace.tail (trace.head h) :=
  ⟨by decide,
    one_event_per_block (Option.some_get sampleInterval_runs).symm (by decide) [] _ _
      (List.cons_head_tail _).symm⟩

end Jbm
