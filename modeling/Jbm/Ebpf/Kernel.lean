import Jbm.Base.Exec
import Jbm.Base.Latest
import Jbm.Ebpf.TryJbm

/-!
# The kernel around `try_jbm`

Threads come into being, are switched onto CPUs and off them, and exit; every context switch runs
`try_jbm`. A thread runs on one CPU at most, an exiting thread is switched out one last time, and
an id is given to a new thread only when no live thread has it. What a switch does, which helper
fails, and what the clock shows is up to the label; the clock never goes back.

The trace lists the switches, newest first, with what `try_jbm` did. It is not in the kernel: no
step reads it.
-/

set_option autoImplicit false

namespace Jbm

open Base

/-- A context switch, and what `try_jbm` output and sent during it. -/
structure Switch where
  prev : TaskStruct
  next : TaskStruct
  helpers : Helpers
  exits : Bool
  output : List BlockEvent
  signals : List UInt32

/-- The kernel: the threads ever created, those that have exited, the thread on each CPU, the
last reading of the clock, the map, and the trace. -/
structure Kernel where
  born : List TaskStruct
  exited : List TaskStruct
  running : List TaskStruct
  clock : UInt64
  startTimes : StartTimes
  trace : List Switch

/-- The threads and CPUs a run starts from. No other thread has the id of a thread of the target
process; the idle threads of the CPUs may share theirs. -/
structure Boot (config : Config) where
  tasks : List TaskStruct
  running : List TaskStruct
  placed : running ⊆ tasks
  once : running.Nodup
  apart : ∀ t ∈ tasks, ∀ u ∈ tasks, t.tgid = config.targetTgid → t.pid = u.pid → t = u

/-- The kernel when `try_jbm` is attached. -/
def Kernel.boot {config : Config} (b : Boot config) : Kernel :=
  ⟨b.tasks, [], b.running, 0, .empty, []⟩

/-- The thread exists. -/
def Kernel.Alive (s : Kernel) (t : TaskStruct) : Prop := t ∈ s.born ∧ t ∉ s.exited

instance (s : Kernel) (t : TaskStruct) : Decidable (s.Alive t) :=
  inferInstanceAs (Decidable (_ ∧ _))

/-- The steps of the kernel. -/
inductive KernelOp
  | fork (t : TaskStruct)
  /-- `cpu` goes from its thread to `next`; the thread that leaves may be exiting -/
  | switch (cpu : Nat) (next : TaskStruct) (exits : Bool) (h : Helpers)

/-- One step. -/
def Kernel.step (config : Config) (s : Kernel) : KernelOp → Option Kernel
  | .fork t =>
    if t ∉ s.born ∧ ∀ u ∈ s.born, u ∉ s.exited → u.pid ≠ t.pid then
      some { s with born := t :: s.born }
    else none
  | .switch cpu next exits h =>
    match s.running[cpu]? with
    | none => none
    | some prev =>
      if s.Alive next ∧ next ∉ s.running ∧ s.clock ≤ h.ts ∧ h.ts ≤ h.tEnd then
        let r := tryJbm config prev next h s.startTimes
        some
          { s with
            exited := if exits then prev :: s.exited else s.exited
            running := s.running.set cpu next
            clock := h.tEnd
            startTimes := r.startTimes
            trace := ⟨prev, next, h, exits, r.output, r.signals⟩ :: s.trace }
      else none

/-- A run of the kernel. -/
def Kernel.run {config : Config} (b : Boot config) (ops : List KernelOp) : Option Kernel :=
  exec (Kernel.step config) (.boot b) ops

/-- What a step does, by the operation. -/
inductive Kernel.Steps (config : Config) (s : Kernel) : KernelOp → Kernel → Prop
  | fork {t : TaskStruct} :
      t ∉ s.born → (∀ u, s.Alive u → u.pid ≠ t.pid) →
      Steps config s (.fork t) { s with born := t :: s.born }
  | switch {cpu : Nat} {prev next : TaskStruct} {exits : Bool} {h : Helpers} {r : Probed} :
      s.running[cpu]? = some prev → s.Alive next → next ∉ s.running →
      s.clock ≤ h.ts → h.ts ≤ h.tEnd → Probes config prev next h s.startTimes r →
      Steps config s (.switch cpu next exits h)
        { s with
          exited := if exits then prev :: s.exited else s.exited
          running := s.running.set cpu next
          clock := h.tEnd
          startTimes := r.startTimes
          trace := ⟨prev, next, h, exits, r.output, r.signals⟩ :: s.trace }

theorem Kernel.steps_of_step {config : Config} {s s' : Kernel} {op : KernelOp}
    (h : s.step config op = some s') : Kernel.Steps config s op s' := by
  cases op with
  | fork t =>
    simp only [Kernel.step] at h
    split at h
    · next hfork =>
      cases h
      exact .fork hfork.1 fun u hu => hfork.2 u hu.1 hu.2
    · cases h
  | switch cpu next exits helpers =>
    simp only [Kernel.step] at h
    split at h
    · cases h
    · next prev hprev =>
      split at h
      · next hsw =>
        cases h
        obtain ⟨halive, hoff, hclock, hts⟩ := hsw
        exact .switch hprev halive hoff hclock hts (probes_tryJbm config prev next helpers _)
      · cases h

/-! ## Leaving and entering -/

/-- The switch at which a thread left the CPU it has not entered again since. -/
def lastOut (t : TaskStruct) : List Switch → Option Switch :=
  latest (fun e => decide (e.next = t)) (fun e => decide (e.prev = t))

theorem lastOut_eq_some {t : TaskStruct} {trace : List Switch} {e : Switch} :
    lastOut t trace = some e ↔
      ∃ newer older, trace = newer ++ e :: older ∧ e.prev = t ∧ e.next ≠ t ∧
        ∀ x ∈ newer, x.prev ≠ t ∧ x.next ≠ t := by
  simp only [lastOut, latest_eq_some, decide_eq_true_eq, decide_eq_false_iff_not, ne_eq]

/-- A switch closes the entering thread's interval, opens the leaving thread's, and leaves every
other thread where it was. -/
theorem lastOut_cons {t : TaskStruct} {e : Switch} {trace : List Switch} :
    lastOut t (e :: trace) =
      if e.next = t then none else if e.prev = t then some e else lastOut t trace := by
  simp [lastOut, latest]

/-- What holds of the threads of every reachable kernel. -/
structure Kernel.Sane (config : Config) (s : Kernel) : Prop where
  running_alive : ∀ t ∈ s.running, s.Alive t
  once : s.running.Nodup
  apart : ∀ t u, s.Alive t → s.Alive u → t.tgid = config.targetTgid → t.pid = u.pid → t = u
  seen : ∀ e ∈ s.trace, e.prev ∈ s.born ∧ e.next ∈ s.born
  moves : ∀ e ∈ s.trace, e.prev ≠ e.next
  off : ∀ t e, lastOut t s.trace = some e → t ∉ s.running
  stamped : ∀ e ∈ s.trace, e.helpers.ts ≤ s.clock

theorem Kernel.sane_boot {config : Config} (b : Boot config) : (Kernel.boot b).Sane config where
  running_alive _ ht := ⟨b.placed ht, List.not_mem_nil⟩
  once := b.once
  apart t u ht hu := b.apart t ht.1 u hu.1
  seen _ he := absurd he List.not_mem_nil
  moves _ he := absurd he List.not_mem_nil
  off _ _ h := by cases h
  stamped _ he := absurd he List.not_mem_nil

/-- A thread that has never been switched has not left. -/
theorem Kernel.Sane.lastOut_unborn {config : Config} {s : Kernel} (hs : s.Sane config)
    {t : TaskStruct} (ht : t ∉ s.born) : lastOut t s.trace = none := by
  cases h : lastOut t s.trace with
  | none => rfl
  | some e =>
    obtain ⟨newer, older, htrace, hprev, _⟩ := lastOut_eq_some.mp h
    have hmem : e ∈ s.trace := by
      rw [htrace]
      exact List.mem_append_right _ List.mem_cons_self
    exact absurd (hprev ▸ (hs.seen e hmem).1) ht

/-- The thread that leaves is not the one that enters, and shares its id with it in no way that
matters to the target. -/
theorem Kernel.Sane.prev_ne_next {config : Config} {s : Kernel} {cpu : Nat}
    {prev next : TaskStruct} (hs : s.Sane config) (hprev : s.running[cpu]? = some prev)
    (halive : s.Alive next) (hoff : next ∉ s.running) :
    prev ≠ next ∧ ¬ (prev.tgid = config.targetTgid ∧ next.pid = prev.pid) := by
  have hmem := List.mem_of_getElem? hprev
  have hne : prev ≠ next := fun heq => hoff (heq ▸ hmem)
  refine ⟨hne, fun ⟨htgid, hpid⟩ => hne ?_⟩
  exact hs.apart prev next (hs.running_alive prev hmem) halive htgid hpid.symm

/-- What takes a place in a list without duplicates drives out what was there. -/
theorem ne_of_mem_set {α : Type} {l : List α} (hl : l.Nodup) {i : Nat} {a b : α}
    (ha : l[i]? = some a) (hne : a ≠ b) : ∀ x ∈ l.set i b, x ≠ a := by
  obtain ⟨hi, hget⟩ := List.getElem?_eq_some_iff.mp ha
  intro x hx heq
  obtain ⟨k, hk, hkx⟩ := List.mem_iff_getElem.mp hx
  rw [List.getElem_set] at hkx
  split at hkx
  · exact hne (heq.symm.trans hkx.symm)
  · next hik =>
    rw [List.length_set] at hk
    have hsame : l[i] = l[k] := hget.trans (heq.symm.trans hkx.symm)
    exact hik ((List.Nodup.getElem_inj_iff hl).mp hsame)

theorem mem_exited_iff {exits : Bool} {prev t : TaskStruct} {exited : List TaskStruct} :
    t ∈ (if exits then prev :: exited else exited) ↔ (exits = true ∧ t = prev) ∨ t ∈ exited := by
  cases exits <;> simp

theorem Kernel.Sane.fork {config : Config} {s : Kernel} (hs : s.Sane config) {t : TaskStruct}
    (hfresh : ∀ u, s.Alive u → u.pid ≠ t.pid) :
    Kernel.Sane config { s with born := t :: s.born } := by
  have hgrow : ∀ u, u ∈ s.born → u ∈ t :: s.born := fun u hu => List.mem_cons_of_mem _ hu
  refine ⟨fun u hu => ?_, hs.once, fun u v hu hv htgid hpid => ?_, fun e he => ?_, hs.moves,
    hs.off, hs.stamped⟩
  · exact ⟨hgrow u (hs.running_alive u hu).1, (hs.running_alive u hu).2⟩
  · obtain ⟨hub, hue⟩ := hu
    obtain ⟨hvb, hve⟩ := hv
    rcases List.mem_cons.mp hub with rfl | hold
    · rcases List.mem_cons.mp hvb with rfl | hold'
      · rfl
      · exact absurd hpid.symm (hfresh v ⟨hold', hve⟩)
    · rcases List.mem_cons.mp hvb with rfl | hold'
      · exact absurd hpid (hfresh u ⟨hold, hue⟩)
      · exact hs.apart u v ⟨hold, hue⟩ ⟨hold', hve⟩ htgid hpid
  · exact ⟨hgrow _ (hs.seen e he).1, hgrow _ (hs.seen e he).2⟩

theorem Kernel.Sane.step {config : Config} {s s' : Kernel} {op : KernelOp} (hs : s.Sane config)
    (h : Kernel.Steps config s op s') : s'.Sane config := by
  cases h with
  | fork _ hfresh => exact hs.fork hfresh
  | @switch cpu prev next exits helpers r hprev halive hoff hclock hts hprobe =>
    have hprev_alive := hs.running_alive prev (List.mem_of_getElem? hprev)
    -- nobody but the leaving thread can exit, and it runs no longer
    have hne := (hs.prev_ne_next hprev halive hoff).1
    have hgone := ne_of_mem_set hs.once hprev hne
    have hstay : ∀ t, t ≠ prev → t ∉ s.exited →
        t ∉ (if exits then prev :: s.exited else s.exited) := by
      intro t ht hex hmem
      rcases mem_exited_iff.mp hmem with h | h
      · exact ht h.2
      · exact hex h
    have hleft : ∀ t, t ∉ (if exits then prev :: s.exited else s.exited) → t ∉ s.exited :=
      fun t ht hex => ht (mem_exited_iff.mpr (.inr hex))
    refine ⟨fun t ht => ?_, hs.once.set hoff, fun t u ht hu => ?_, fun e he => ?_,
      fun e he => ?_, fun t e he => ?_, fun e he => ?_⟩
    · have hp := hgone t ht
      rcases List.mem_or_eq_of_mem_set ht with ht | rfl
      · exact ⟨(hs.running_alive t ht).1, hstay t hp (hs.running_alive t ht).2⟩
      · exact ⟨halive.1, hstay _ hp halive.2⟩
    · exact hs.apart t u ⟨ht.1, hleft t ht.2⟩ ⟨hu.1, hleft u hu.2⟩
    · rcases List.mem_cons.mp he with rfl | he
      · exact ⟨hprev_alive.1, halive.1⟩
      · exact hs.seen e he
    · rcases List.mem_cons.mp he with rfl | he
      · exact hne
      · exact hs.moves e he
    · rw [lastOut_cons] at he
      split at he
      · cases he
      · next hnext =>
        split at he
        · next hp => exact fun ht => hgone t ht hp.symm
        · intro ht
          rcases List.mem_or_eq_of_mem_set ht with ht | ht
          · exact hs.off t e he ht
          · exact hnext ht.symm
    · rcases List.mem_cons.mp he with rfl | he
      · exact hts
      · exact UInt64.le_trans (hs.stamped e he) (UInt64.le_trans hclock hts)

/-- Every reachable kernel is sane. -/
theorem Kernel.sane_of_run {config : Config} {b : Boot config} {ops : List KernelOp} {s : Kernel}
    (h : Kernel.run b ops = some s) : s.Sane config :=
  exec_keeps (fun _ _ _ hI hstep => hI.step (Kernel.steps_of_step hstep)) (Kernel.sane_boot b) h

/-! ## A sample host

One CPU, an idle thread, and thread 7 of the target process, which runs at first. -/

def sampleConfig : Config := ⟨100, 1000, 1000000, 10240⟩

def sampleIdle : TaskStruct := ⟨0, 0, 0⟩

def sampleThread : TaskStruct := ⟨1, 7, 100⟩

def sampleBoot : Boot sampleConfig where
  tasks := [sampleIdle, sampleThread]
  running := [sampleThread]
  placed := by simp
  once := List.nodup_singleton _
  apart := by decide

/-- A run of `try_jbm` at `now` in which every helper succeeds. -/
def sampleHelpers (now : UInt64) : Helpers where
  arg := true
  pidRead := none
  tgidRead := none
  ts := now
  tEnd := now
  removeError := none
  kernelStackId := .ok 0
  userStackId := .ok 0
  comm := .ok (Vector.replicate taskCommLen 0)

/-- Thread 7 leaves the CPU and is back 4 ms later. -/
def sampleInterval : List KernelOp :=
  [.switch 0 sampleIdle false (sampleHelpers 1000000),
    .switch 0 sampleThread false (sampleHelpers 5000000)]

theorem sampleInterval_runs : (Kernel.run sampleBoot sampleInterval).isSome := by decide

/-- Thread 7 exits, and its id goes to a new thread of the process. -/
def sampleReuse : List KernelOp :=
  [.switch 0 sampleIdle true (sampleHelpers 1000000), .fork ⟨2, 7, 100⟩,
    .switch 0 ⟨2, 7, 100⟩ false (sampleHelpers 5000000)]

theorem sampleReuse_runs : (Kernel.run sampleBoot sampleReuse).isSome := by decide

end Jbm
