import Jbm.Laws.Stream.Isolation

/-!
# What is never let go

A sweep visits the threads that have BPF events. So the JVM events of a thread stay queued for as
long as no BPF event of the thread comes, and everything filed in the meantime is queued behind
them: neither the age of an event nor the number of events makes the stream give any of them up
(`jvm_retained`). A thread whose blocks are never reported holds every JVM event it ever sent.
-/

set_option autoImplicit false

namespace Jbm

open Base

/-- A sweep leaves the JVM events of a thread without BPF events alone. -/
theorem sweep_retains {o : Overflow} {now : UInt64} {order : List UInt32} {s : EventStream}
    {out : Swept} {t : UInt32} (hv : s.bpfEvents.Visits order)
    (h : s.sweep o now order = some out) (hempty : s.bpfEvents.queue t = []) :
    out.stream.bpfEvents.queue t = [] ∧
      out.stream.jvmEvents.queue t = s.jvmEvents.queue t := by
  obtain ⟨l, hl, rfl⟩ := sweep_eq_some.mp h
  have ht : t ∉ order := fun hmem => (hv.mem_iff t).mp hmem hempty
  obtain ⟨hbpf, hjvm⟩ := queues_of_exec ht hl
  exact ⟨hbpf.trans hempty, hjvm⟩

/-- The BPF events of a thread that were added. -/
def History.addedOf (s : History) (t : UInt32) : List BpfEvent :=
  s.addedEvents.filter (·.tid = t)

/-- A stream that went on from `s`: it added more events, of `t` or not, and as long as it added
none of `t`, it let none of `t` go. -/
structure Retains (t : UInt32) (s s' : History) : Prop where
  added : s.addedOf t <+: s'.addedOf t
  filed : ∃ new, s'.filed = s.filed ++ new ∧ (s'.addedOf t = s.addedOf t →
    s'.stream.bpfEvents.queue t = [] ∧
      s'.stream.jvmEvents.queue t = s.stream.jvmEvents.queue t ++ new.filter (·.tid = t))

theorem Retains.start {t : UInt32} {s : History} (h : s.stream.bpfEvents.queue t = []) :
    Retains t s s where
  added := List.prefix_refl _
  filed := ⟨[], by simp, fun _ => ⟨h, by simp⟩⟩

theorem Retains.step {o : Overflow} {decode : List Char → Option JvmEvent} {t : UInt32}
    {s m s' : History} {op : Op} (h : Retains t s m) (hstep : History.Steps o decode m op s') :
    Retains t s s' := by
  obtain ⟨new, hnew, hold⟩ := h.filed
  cases hstep with
  | @add host event e he =>
    have hadded : ({ m with stream := m.stream.file e, added := m.added ++ [(event, e)] } :
        History).addedOf t = m.addedOf t ++ [e].filter (·.tid = t) := by
      simp [History.addedOf, History.addedEvents]
    refine ⟨hadded ▸ h.added.trans (List.prefix_append _ _), new, hnew, fun hsame => ?_⟩
    rw [hadded] at hsame
    -- the event is of another thread
    have hlen := h.added.length_le
    have hother : [e].filter (·.tid = t) = [] := by
      refine List.eq_nil_of_length_eq_zero ?_
      have heq := congrArg List.length hsame
      rw [List.length_append] at heq
      omega
    rw [hother, List.append_nil] at hsame
    obtain ⟨hbpf, hjvm⟩ := hold hsame
    have hqueue : (m.stream.bpfEvents.push e).queue t = m.stream.bpfEvents.queue t := by
      rw [Filing.queue_push, hother, List.append_nil]
    exact ⟨hqueue.trans hbpf, hjvm⟩
  | @fill text =>
    refine ⟨h.added, new ++ eventsOf decode text, by simp [hnew], fun hsame => ?_⟩
    obtain ⟨hbpf, hjvm⟩ := hold hsame
    refine ⟨hbpf, ?_⟩
    rw [List.filter_append, ← List.append_assoc, ← hjvm]
    exact Filing.queue_pushAll _ _ t
  | @sweep now order out hv hout =>
    refine ⟨h.added, new, hnew, fun hsame => ?_⟩
    obtain ⟨hbpf, hjvm⟩ := hold hsame
    obtain ⟨hbpf', hjvm'⟩ := sweep_retains hv hout hbpf
    exact ⟨hbpf', hjvm'.trans hjvm⟩

/-- **A thread without BPF events keeps its JVM events**: take any run that goes on from a stream in
which a thread has no BPF event queued, and adds none of it. However long it is and whatever it adds
of other threads, the thread's JVM queue at its end is the queue it had, followed by every JVM event
filed for it in the meantime. -/
theorem jvm_retained {o : Overflow} {decode : List Char → Option JvmEvent} {ops : List Op}
    {s s' : History} {t : UInt32} (h : exec (History.step o decode) s ops = some s')
    (hempty : s.stream.bpfEvents.queue t = []) (hnone : s'.addedOf t = s.addedOf t) :
    ∃ new, s'.filed = s.filed ++ new ∧
      s'.stream.jvmEvents.queue t = s.stream.jvmEvents.queue t ++ new.filter (·.tid = t) := by
  have hretains : Retains t s s' :=
    exec_keeps (I := Retains t s) (fun _ _ _ hI hstep => hI.step (History.steps_of_step hstep))
      (.start hempty) h
  obtain ⟨new, hnew, hqueue⟩ := hretains.filed
  exact ⟨new, hnew, (hqueue hnone).2⟩

/-- Thread 7 sends a sample twice; a block of thread 8 comes and is given up in between. -/
def sampleIdleThread : List Op :=
  [.fill (sampleLine ++ ['\n']), sampleAdd 8 4, .sweep 40000 [8], .fill (sampleLine ++ ['\n'])]

theorem sampleIdleThread_runs :
    (exec (History.step .abort sampleDecode) .new sampleIdleThread).isSome := by decide

theorem jvm_retained_sampleIdleThread :
    let s := Option.get _ sampleIdleThread_runs
    ∃ new, s.filed = History.new.filed ++ new ∧ s.stream.jvmEvents.queue 7 =
      History.new.stream.jvmEvents.queue 7 ++ new.filter (·.tid = 7) :=
  jvm_retained (Option.some_get sampleIdleThread_runs).symm (by decide) (by decide)

end Jbm
