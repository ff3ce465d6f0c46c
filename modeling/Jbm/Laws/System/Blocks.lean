import Jbm.Laws.Ebpf.Complete
import Jbm.Laws.System.Provenance

/-!
# What is reported is what blocked

`staysOf` says what `jbm` is for, on the trace of the scheduler alone: the times a thread of the
target process spent off the CPU, between its leave and its next entry, of a length within the
bounds. In a run in which no helper fails, no id is given away twice and the map of the stamps has
room, each of them is an event of `try_jbm` (`outputs_eq_stays`), and an event is in one place
(`Accounted`). So each stay is reported once, waits somewhere, or has got lost where the code says
so, and nothing else is reported.
-/

set_option autoImplicit false

namespace Jbm

open Base

/-- What a report says of a time off the CPU. -/
structure Stay where
  tid : UInt32
  pid : UInt32
  micros : Nat
  deriving DecidableEq

def BlockEvent.stay (event : BlockEvent) : Stay :=
  ⟨event.pid, event.tgid, event.offtime.toNat⟩

def BpfEvent.stay (e : BpfEvent) : Stay := ⟨e.tid, e.pid, e.duration.asMicros⟩

/-! ## The stays of a trace -/

instance (config : Config) (o e : Switch) : Decidable (Within config o e) :=
  inferInstanceAs (Decidable (_ ∧ _))

/-- The stay that ends with the switch `e`, where the trace before says that one began. -/
def stayOf (config : Config) (older : List Switch) (e : Switch) : Option Stay :=
  ((lastOut e.next older).filter fun o => e.next.tgid = config.targetTgid ∧ Within config o e).map
    fun o => ⟨e.next.pid, e.next.tgid, (e.helpers.tEnd.toNat - o.helpers.ts.toNat) / 1000⟩

/-- The stays of a trace, the first that ended first. -/
def staysOf (config : Config) : List Switch → List Stay
  | [] => []
  | e :: older => staysOf config older ++ (stayOf config older e).toList

/-- An exact switch reports the stay it ends. -/
theorem Exact.stay {config : Config} {older : List Switch} {e : Switch}
    (h : Exact config older e) : e.output.map BlockEvent.stay = (stayOf config older e).toList := by
  cases hout : lastOut e.next older with
  | none =>
    have hsilent := h.silent fun o ho => by rw [hout] at ho; cases ho
    rw [hsilent.1, stayOf, hout]
    rfl
  | some o =>
    by_cases hq : e.next.tgid = config.targetTgid ∧ Within config o e
    · obtain ⟨event, hevent, hblock, _⟩ := h.reported o hout hq.1 hq.2
      have hstay : event.stay =
          ⟨e.next.pid, e.next.tgid, (e.helpers.tEnd.toNat - o.helpers.ts.toNat) / 1000⟩ := by
        rw [BlockEvent.stay, hblock.pid, hblock.tgid, hblock.offtime, hq.1]
      rw [hevent, stayOf, hout, Option.filter_some_pos (by simpa using hq), List.map_singleton,
        hstay]
      rfl
    · have hsilent := h.silent fun o' ho' htgid hwithin => by
        rw [hout, Option.some.injEq] at ho'
        exact hq ⟨htgid, ho' ▸ hwithin⟩
      rw [hsilent.1, stayOf, hout, Option.filter_some_neg (by simpa using hq)]
      rfl

/-- What an exact trace reports are its stays, in order. -/
theorem stays_of_exact {config : Config} {trace : List Switch}
    (h : ∀ newer e older, trace = newer ++ e :: older → Exact config older e) :
    (trace.reverse.flatMap (·.output)).map BlockEvent.stay = staysOf config trace := by
  induction trace with
  | nil => rfl
  | cons e older ih =>
    have holder := ih fun newer e' older' heq => h (e :: newer) e' older' (by rw [heq]; rfl)
    rw [List.reverse_cons, List.flatMap_append, List.map_append, holder, List.flatMap_singleton,
      (h [] e older rfl).stay]
    rfl

/-! ## From the trace to the reports -/

namespace System

variable {M : StackMap} {cap : Nat}

/-- The step gives no id away twice; a switch finds its helpers working, the two lookups in the
stack map among them, and room for the stamp. The stack ids of `h` are read where there is no
lookup. -/
def Smooth (config : Config) (s : System M cap) : SystemOp → Prop
  | .fork t => s.kernel.Smooth config (.fork t)
  | .switch cpu next exits h walks _ _ =>
    ∀ prev ∈ s.kernel.running[cpu]?, s.kernel.Smooth config (.switch cpu next exits
      (stackIds config prev next h walks s.kernel.startTimes s.stackTraces).1)
  | _ => True

instance (config : Config) (s : System M cap) (op : SystemOp) : Decidable (s.Smooth config op) :=
  match op with
  | .fork t => inferInstanceAs (Decidable (s.kernel.Smooth config (.fork t)))
  | .switch cpu _ _ _ _ _ _ => inferInstanceAs (Decidable (∀ prev ∈ s.kernel.running[cpu]?, _))
  | .read _ | .join | .add _ | .fill _ _ | .sweep _ _ => .isTrue trivial

/-- Along a smooth run the map of the stamps is a picture of the trace. -/
theorem tracks_of_run {config : Config} {b : Boot config} {o : Overflow}
    {decode : List Char → Option JvmEvent} {ops : List SystemOp} {s : System M config.stackCap}
    (h : System.run M b o decode ops = some s)
    (hok : Meets (System.step config o decode) (Smooth config) (.boot M b) ops) :
    s.kernel.Tracks config := by
  have keep : ∀ (s : System M config.stackCap) (op : SystemOp) (s' : System M config.stackCap),
      s.kernel.Tracks config → s.Smooth config op → s.step config o decode op = some s' →
      s'.kernel.Tracks config := by
    intro s op s' hs hop hstep
    cases steps_of_step hstep with
    | @fork t _ hk =>
      have hfork : s.kernel.Smooth config (.fork t) := hop
      exact hs.step hfork (Kernel.steps_of_step hk)
    | switch hprev _ hans _ hk =>
      subst hans
      exact hs.step (hop _ hprev) (Kernel.steps_of_step hk)
    | read _ _ _ _ => exact hs
    | @add _ m _ _ =>
      show (s.afterAdd m).kernel.Tracks config
      rwa [afterAdd_kernel]
    | join _ => exact hs
    | fill _ => exact hs
    | sweep _ => exact hs
  exact exec_invariant keep (Kernel.tracks_boot b) hok h

end System

/-- A duration of whole microseconds. -/
theorem Duration.asMicros_fromMicros (us : UInt64) : (Duration.fromMicros us).asMicros = us.toNat :=
  Nat.mul_div_cancel _ (by decide)

/-- The event made of a block says the same stay. -/
theorem Made.stay {o : Overflow} {w : Wake} {e : BpfEvent} (h : Made o w e) :
    e.stay = w.event.stay := by
  rw [BpfEvent.stay, BlockEvent.stay, h.tid, h.pid, h.duration, Duration.asMicros_fromMicros]

/-- What was added has been returned or is queued. -/
theorem History.Accounted.perm {o : Overflow} {s : History} (h : s.Accounted o)
    {order : List UInt32} (hv : s.stream.bpfEvents.Visits order) :
    (s.added.map Prod.snd).Perm
      (s.returned.map Prod.fst ++ order.flatMap s.stream.bpfEvents.queue) := by
  have hparts : ∀ tid, (s.added.map Prod.snd).filter (·.tid = tid) =
      (s.returned.map Prod.fst ++ order.flatMap s.stream.bpfEvents.queue).filter
        (·.tid = tid) := by
    intro tid
    rw [List.filter_append, hv.filter_flatMap]
    exact (h.reported tid).symm
  exact perm_of_filter_eq hparts

/-- **What is reported is what blocked.** In every smooth run of the system the times the target's
threads spent off the CPU, of a length within the bounds, are at every moment, each exactly once:
reported by the sweeps, queued, or still on the way (in a perf buffer or in the hands of `process`),
unless a perf buffer had no room for one or a call of `process` failed with it. Nothing else is
reported or on its way. -/
theorem stays_accounted {M : StackMap} {config : Config} {b : Boot config} {o : Overflow}
    {decode : List Char → Option JvmEvent} {ops : List SystemOp} {s : System M config.stackCap}
    (h : System.run M b o decode ops = some s)
    (hok : Meets (System.step config o decode) (System.Smooth config) (.boot M b) ops)
    {order : List UInt32} (hv : s.history.stream.bpfEvents.Visits order) :
    (staysOf config s.kernel.trace).Perm
      ((s.history.returned.map Prod.fst ++
          order.flatMap s.history.stream.bpfEvents.queue).map BpfEvent.stay ++
        (s.lost ++ s.buffered ++ s.stage.inHand ++ s.dropped).map BlockEvent.stay) := by
  have htraced := System.traced_of_run h
  obtain ⟨streamOps, hstream⟩ := System.refines_history.run trivial h
  have hadded : s.added.map BlockEvent.stay =
      (s.history.added.map Prod.snd).map BpfEvent.stay := by
    rw [System.added, List.map_map, List.map_map]
    refine List.map_congr_left fun p hp => ?_
    obtain ⟨w, _, hw, hmade⟩ := htraced.made p hp
    show p.1.stay = p.2.stay
    rw [hmade.stay, hw]
  have hstays : s.kernel.outputs.map BlockEvent.stay = staysOf config s.kernel.trace :=
    stays_of_exact (System.tracks_of_run h hok).exact
  have haccount := htraced.accounted.account.map BlockEvent.stay
  have hreported := ((History.accounted_of_run hstream).perm hv).map BpfEvent.stay
  rw [hstays, List.map_append, hadded] at haccount
  exact (haccount.trans List.perm_append_comm).trans (hreported.append_right _)

/-- The one stay of the sample run, which has been reported. -/
theorem stays_accounted_sampleSystem :
    let s := sampleSystemEnd
    staysOf sampleConfig s.kernel.trace = [⟨7, 100, 4000⟩] ∧
      (staysOf sampleConfig s.kernel.trace).Perm
        ((s.history.returned.map Prod.fst ++
            List.flatMap s.history.stream.bpfEvents.queue []).map BpfEvent.stay ++
          (s.lost ++ s.buffered ++ s.stage.inHand ++ s.dropped).map BlockEvent.stay) :=
  ⟨by decide,
    stays_accounted (Option.some_get sampleSystem_runs).symm (by decide) (by decide)⟩

end Jbm
