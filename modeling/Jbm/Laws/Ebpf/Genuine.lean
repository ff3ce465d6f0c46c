import Jbm.Ebpf.Kernel

/-!
# Every block reported is a real one

A stamp in `START_TIMES` is filed under a thread id, while an interval belongs to a thread. The
two come apart in two ways: an exited thread leaves its stamp to the next thread of its id, and a
run that returns early leaves the entering thread's stamp in the map, where it stays when the
thread's next leave is not recorded either. `Kernel.Fresh` is the condition that neither has
happened to the thread that enters; where no two leaves are stamped alike, it is what every run
that reports real blocks only meets (`fresh_of_genuine`).
-/

set_option autoImplicit false

namespace Jbm

open Base

/-- The event reports an interval the entering thread spent off the CPU: it was switched out at
`tStart`, has not run since, and enters at `tEnd`. -/
structure Genuine (config : Config) (older : List Switch) (e : Switch) (event : BlockEvent) :
    Prop where
  target : e.next.tgid = config.targetTgid
  ordered : event.tStart ≤ event.tEnd
  block : IsBlock config e.next event.tStart e.helpers.tEnd event
  long : config.minBlockUs ≤ event.offtime
  short : event.offtime ≤ config.maxBlockUs
  interval : ∃ between o rest, older = between ++ o :: rest ∧ o.prev = e.next ∧
    o.helpers.ts = event.tStart ∧ ∀ x ∈ between, x.prev ≠ e.next ∧ x.next ≠ e.next

/-- A block made of a stamp is genuine exactly when the stamp is the time of the entering thread's
latest leave. -/
theorem genuine_iff {config : Config} {older : List Switch} {e : Switch} {event : BlockEvent}
    (hmoves : ∀ o ∈ older, o.prev ≠ o.next)
    (hq : Qualifies config e.next event.tStart e.helpers.tEnd)
    (hblock : IsBlock config e.next event.tStart e.helpers.tEnd event) :
    Genuine config older e event ↔ ∃ o ∈ lastOut e.next older, o.helpers.ts = event.tStart := by
  constructor
  · intro hgenuine
    obtain ⟨between, o, rest, holder, hout, hts, hbetween⟩ := hgenuine.interval
    refine ⟨o, lastOut_eq_some.mpr ⟨between, rest, holder, hout, ?_, hbetween⟩, hts⟩
    rw [← hout]
    apply Ne.symm
    apply hmoves o
    rw [holder]
    exact List.mem_append_right _ List.mem_cons_self
  · rintro ⟨o, ho, hts⟩
    obtain ⟨between, rest, holder, hout, _, hbetween⟩ := lastOut_eq_some.mp ho
    have hoffset : event.offtime = (e.helpers.tEnd - event.tStart) / 1000 := by
      apply UInt64.toNat_inj.mp
      rw [hblock.offtime, offtime_toNat hq.ordered]
    refine ⟨hq.target, ?_, hblock, ?_, ?_, between, o, rest, holder, hout, hts, hbetween⟩
    · rw [hblock.tEnd]
      exact hq.ordered
    · rw [hoffset]
      exact hq.long
    · rw [hoffset]
      exact hq.short

/-- A thread that enters while its id has a stamp to report, in a run of `try_jbm` no part of which
fails, has been switched out before, and `try_jbm` learnt of the latest time. -/
def Kernel.Fresh (config : Config) (s : Kernel) : KernelOp → Prop
  | .fork _ => True
  | .switch cpu next _ h => ∀ v ∈ s.startTimes.get? next.pid, h.Succeed →
      (∀ prev ∈ s.running[cpu]?, prev.tgid = config.targetTgid →
        s.startTimes.hasRoom prev.pid = true) →
      Qualifies config next v h.tEnd → ∃ o ∈ lastOut next s.trace, o.helpers.reads

instance (config : Config) (s : Kernel) (op : KernelOp) : Decidable (s.Fresh config op) :=
  match op with
  | .fork _ => .isTrue trivial
  | .switch cpu next _ h =>
    match hv : s.startTimes.get? next.pid with
    | none => .isTrue (by simp [Kernel.Fresh, hv])
    | some v =>
      decidable_of_iff
        (h.Succeed → (∀ prev ∈ s.running[cpu]?, prev.tgid = config.targetTgid →
            s.startTimes.hasRoom prev.pid = true) →
          Qualifies config next v h.tEnd → ∃ o ∈ lastOut next s.trace, o.helpers.reads)
        (by simp [Kernel.Fresh, hv])

/-- The stamp of a live thread of the target is that of its latest leave, if `try_jbm` learnt of
that, and every stamp is of some leave it learnt of. -/
structure Kernel.Stamps (config : Config) (s : Kernel) : Prop where
  sane : s.Sane config
  latest : ∀ t o v, s.Alive t → t.tgid = config.targetTgid → lastOut t s.trace = some o →
    o.helpers.reads → s.startTimes.get? t.pid = some v → v = o.helpers.ts
  origin : ∀ p v, s.startTimes.get? p = some v → ∃ o ∈ s.trace, o.helpers.reads ∧
    o.helpers.ts = v
  genuine : ∀ newer e older, s.trace = newer ++ e :: older →
    ∀ event ∈ e.output, Genuine config older e event

theorem Kernel.stamps_boot {config : Config} (b : Boot config) :
    (Kernel.boot b).Stamps config where
  sane := Kernel.sane_boot b
  latest t o v _ _ ho := by cases ho
  origin p v hv := by cases (BoundedMap.get?_empty _).symm.trans hv
  genuine := splits_nil

section Report

variable {config : Config} {s : Kernel} {cpu : Nat} {prev next : TaskStruct} {exits : Bool}
  {h : Helpers} {r : Probed}

/-- A switch reports a block from the stamp it finds, and nothing has failed. -/
theorem Kernel.Sane.reported (hs : s.Sane config) (hprev : s.running[cpu]? = some prev)
    (halive : s.Alive next) (hoff : next ∉ s.running)
    (hprobe : Probes config prev next h s.startTimes r) {event : BlockEvent}
    (he : event ∈ r.output) :
    h.Succeed ∧ (prev.tgid = config.targetTgid → s.startTimes.hasRoom prev.pid = true) ∧
      s.startTimes.get? next.pid = some event.tStart ∧
      Qualifies config next event.tStart h.tEnd ∧
      IsBlock config next event.tStart h.tEnd event := by
  obtain ⟨hsucceed, m', tStart, hrec, hget, hq, hblock⟩ := hprobe.output he
  -- the leaving thread has another id, so the stamp is the one the switch found
  rw [get?_of_recordPrev hrec, if_neg (hs.prev_ne_next hprev halive hoff).2] at hget
  rw [← hblock.tStart] at hget hq hblock
  exact ⟨hsucceed, hasRoom_of_recordPrev hrec, hget, hq, hblock⟩

/-- What a switch of a fresh thread reports is genuine. -/
theorem Kernel.Stamps.report (hs : s.Stamps config)
    (hfresh : s.Fresh config (.switch cpu next exits h)) (hprev : s.running[cpu]? = some prev)
    (halive : s.Alive next) (hoff : next ∉ s.running)
    (hprobe : Probes config prev next h s.startTimes r) :
    ∀ event ∈ r.output,
      Genuine config s.trace ⟨prev, next, h, exits, r.output, r.signals⟩ event := by
  intro event he
  obtain ⟨hsucceed, hroom, hget, hq, hblock⟩ := hs.sane.reported hprev halive hoff hprobe he
  have hroom' : ∀ p ∈ s.running[cpu]?, p.tgid = config.targetTgid →
      s.startTimes.hasRoom p.pid = true := by
    intro p hp
    obtain rfl := Option.some.inj (hprev.symm.trans hp)
    exact hroom
  obtain ⟨o, ho, hreads⟩ := hfresh _ hget hsucceed hroom' hq
  apply (genuine_iff hs.sane.moves hq hblock).mpr
  exact ⟨o, ho, (hs.latest next o _ halive hq.target ho hreads hget).symm⟩

/-- **At every switch the blocks reported are genuine exactly when the thread that enters is
fresh**, after fresh ones no two of which are stamped alike. -/
theorem Kernel.Stamps.genuine_iff_fresh (hs : s.Stamps config)
    (honce : (s.trace.map fun o => o.helpers.ts).Nodup) (hprev : s.running[cpu]? = some prev)
    (halive : s.Alive next) (hoff : next ∉ s.running)
    (hprobe : Probes config prev next h s.startTimes r) :
    (∀ event ∈ r.output,
        Genuine config s.trace ⟨prev, next, h, exits, r.output, r.signals⟩ event) ↔
      s.Fresh config (.switch cpu next exits h) := by
  refine ⟨fun hgenuine => ?_, fun hfresh => hs.report hfresh hprev halive hoff hprobe⟩
  intro v hv hsucceed hroom hq
  have hids := (hs.sane.prev_ne_next hprev halive hoff).2
  obtain ⟨event, hout, hblock, _⟩ :=
    (hprobe.answers hsucceed (hroom prev hprev) hids).reported v hv hq
  obtain rfl := hblock.tStart
  obtain ⟨o, ho, hts⟩ := (genuine_iff hs.sane.moves hq hblock).mp
    (hgenuine event (by rw [hout]; exact List.mem_cons_self))
  -- the leave the stamp was written at and the thread's latest are the same
  obtain ⟨o', ho', hreads, hts'⟩ := hs.origin next.pid event.tStart hv
  have hsame : o' = o :=
    List.inj_on_of_nodup_map honce ho' (mem_of_latest ho).1 (hts'.trans hts.symm)
  exact ⟨o, ho, hsame ▸ hreads⟩

end Report

theorem Kernel.Stamps.step {config : Config} {s s' : Kernel} {op : KernelOp}
    (hs : s.Stamps config) (hfresh : s.Fresh config op) (h : Kernel.Steps config s op s') :
    s'.Stamps config := by
  have hsane := hs.sane.step h
  cases h with
  | @fork t hborn hnew =>
    refine ⟨hsane, fun u o v hu htgid ho => ?_, hs.origin, hs.genuine⟩
    have hub : u ∈ s.born := by
      by_contra hno
      rw [hs.sane.lastOut_unborn hno] at ho
      cases ho
    exact hs.latest u o v ⟨hub, hu.2⟩ htgid ho
  | @switch cpu prev next exits helpers r hprev halive hoff hclock hts hprobe =>
    have hprev_alive := hs.sane.running_alive prev (List.mem_of_getElem? hprev)
    refine ⟨hsane, fun t o v ht htgid ho hreads hv => ?_, fun p v hv => ?_,
      splits_cons ?_ hs.genuine⟩
    · have hstamp := hprobe.get? hv
      have halive_t : s.Alive t := ⟨ht.1, fun hex => ht.2 (mem_exited_iff.mpr (.inr hex))⟩
      rw [lastOut_cons] at ho
      split at ho
      · cases ho
      · split at ho
        · next hp =>
          -- the thread that leaves: its stamp is the new one
          change prev = t at hp
          subst hp
          cases ho
          rw [if_pos ⟨⟨htgid, rfl⟩, hreads⟩] at hstamp
          exact hstamp
        · next hp =>
          -- any other thread: its stamp is untouched, since the leaving one has another id
          rw [if_neg] at hstamp
          · exact hs.latest t o v halive_t htgid ho hreads hstamp
          · rintro ⟨⟨hptgid, hpid⟩, _⟩
            exact hp (hs.sane.apart prev t hprev_alive halive_t hptgid hpid.symm)
    · have hstamp := hprobe.get? hv
      split at hstamp
      · next hp => exact ⟨_, List.mem_cons_self, hp.2, hstamp.symm⟩
      · obtain ⟨o, ho, horigin⟩ := hs.origin p v hstamp
        exact ⟨o, List.mem_cons_of_mem _ ho, horigin⟩
    · exact hs.report hfresh hprev halive hoff hprobe

/-- **Every reported block is a real off-CPU interval of one thread**, in every run in which each
thread that enters with a stamp to report is fresh. -/
theorem blocks_genuine {config : Config} {b : Boot config} {ops : List KernelOp} {s : Kernel}
    (h : Kernel.run b ops = some s)
    (hok : Meets (Kernel.step config) (Kernel.Fresh config) (.boot b) ops) :
    ∀ newer e older, s.trace = newer ++ e :: older →
      ∀ event ∈ e.output, Genuine config older e event := by
  have keep : ∀ (s : Kernel) (op : KernelOp) (s' : Kernel), s.Stamps config →
      s.Fresh config op → s.step config op = some s' → s'.Stamps config :=
    fun _ _ _ hs hop hstep => hs.step hop (Kernel.steps_of_step hstep)
  have hs : s.Stamps config := exec_invariant keep (Kernel.stamps_boot b) hok h
  exact hs.genuine

/-- No two leaves are stamped alike, and every block reported is genuine. -/
structure Kernel.Clear (config : Config) (s : Kernel) : Prop where
  once : (s.trace.map fun o => o.helpers.ts).Nodup
  genuine : ∀ newer e older, s.trace = newer ++ e :: older →
    ∀ event ∈ e.output, Genuine config older e event

/-- A trace only grows, so a kernel is clear before a step when it is clear after it. -/
theorem Kernel.Clear.back {config : Config} {s s' : Kernel} {op : KernelOp}
    (hs : s'.Clear config) (h : Kernel.Steps config s op s') : s.Clear config := by
  cases h with
  | fork _ _ => exact ⟨hs.once, hs.genuine⟩
  | switch _ _ _ _ _ _ =>
    refine ⟨(List.nodup_cons.mp hs.once).2, fun newer e older heq => ?_⟩
    exact hs.genuine (_ :: newer) e older (congrArg _ heq)

/-- The condition is exact: in a run that reports genuine blocks only, and no two leaves of which
are stamped alike, every thread that enters with a stamp to report is fresh. -/
theorem fresh_of_genuine {config : Config} {b : Boot config} {ops : List KernelOp} {s : Kernel}
    (h : Kernel.run b ops = some s) (hclear : s.Clear config) :
    Meets (Kernel.step config) (Kernel.Fresh config) (.boot b) ops := by
  have hback := meets_of_back
    (fun _ _ _ hstep hs' => Kernel.Clear.back hs' (Kernel.steps_of_step hstep)) h hclear
  refine exec_meets_of (I := Kernel.Stamps config) (fun s op s' hs hclear hstep => ?_)
    (fun s op s' hs hfresh hstep => hs.step hfresh (Kernel.steps_of_step hstep))
    (Kernel.stamps_boot b) hback h
  obtain ⟨honce, hgenuine⟩ := hclear s' hstep
  cases Kernel.steps_of_step hstep with
  | fork _ _ => trivial
  | switch hprev halive hoff _ _ hprobe =>
    exact (hs.genuine_iff_fresh (List.nodup_cons.mp honce).2 hprev halive hoff hprobe).mp
      (hgenuine [] _ _ rfl)

theorem blocks_genuine_sampleInterval :
    let trace := ((Kernel.run sampleBoot sampleInterval).get sampleInterval_runs).trace
    ∃ (h : trace ≠ []) (h' : (trace.head h).output ≠ []),
      Genuine sampleConfig trace.tail (trace.head h) ((trace.head h).output.head h') :=
  ⟨by decide, by decide,
    blocks_genuine (Option.some_get sampleInterval_runs).symm (by decide) [] _ _
      (List.cons_head_tail _).symm _ (List.head_mem _)⟩

/-- The new thread's first switch onto the CPU reports a block that began when the exited thread
left. -/
theorem block_of_reused_id :
    ¬ ∀ s, Kernel.run sampleBoot sampleReuse = some s →
      ∀ newer e older, s.trace = newer ++ e :: older →
        ∀ event ∈ e.output, Genuine sampleConfig older e event := by
  intro hall
  have hgenuine := hall _ (Option.some_get sampleReuse_runs).symm [] _ _
    (List.cons_head_tail (by decide)).symm _ (List.head_mem (by decide))
  obtain ⟨between, o, rest, holder, hout, _⟩ := hgenuine.interval
  have hmem : o ∈ between ++ o :: rest := List.mem_append_right _ List.mem_cons_self
  rw [← holder] at hmem
  have hnever : ∀ x ∈ ((Kernel.run sampleBoot sampleReuse).get sampleReuse_runs).trace.tail,
      x.prev ≠ (((Kernel.run sampleBoot sampleReuse).get sampleReuse_runs).trace.head
        (by decide)).next := by decide
  exact hnever o hmem hout

end Jbm
