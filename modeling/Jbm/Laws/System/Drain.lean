import Jbm.Laws.Stream.Rest
import Jbm.Laws.System.Custody

/-!
# How fast the buffers empty

A call of `process` takes five samples out of each perf buffer at most. So when `try_jbm` outputs
nothing in the meantime, no read of a buffer with samples times out and no event fails, a buffer of
`n` samples is empty after `n / 5` calls, rounded up, and not before (`Draining`). What was output
is then lost, dropped earlier, or added; and when the last sweep comes 30 s behind the last event,
everything added has been returned (`everything_returned`).
-/

set_option autoImplicit false

namespace Jbm

open Base

/-- The operation is a join of the reads of a call. -/
def SystemOp.isJoin : SystemOp → Bool
  | .join => true
  | _ => false

/-- An event that can be added is added. -/
theorem Monitor.stage_of_added {o : Overflow} {decode : List Char → Option JvmEvent}
    {m m' : Monitor} {host : Host} {event : BlockEvent} {batch : List BlockEvent} {e : BpfEvent}
    (hstage : m.stage = .adding (event :: batch)) (he : toBpfEvent o host event = some (.ok e))
    (h : m.step o decode (.add host) = some m') : m'.stage = .adding batch := by
  simp only [Monitor.step, hstage] at h
  split at h
  · cases h
  · next hfailed =>
    -- an event that can be made is added, or the count overflows
    simp [EventStream.addBpfEvent, he] at hfailed
  · obtain ⟨history, _, rfl⟩ := Option.map_eq_some_iff.mp h
    rfl

namespace System

variable {M : StackMap} {cap : Nat}

/-- Whether the next event in hand can be added. -/
def addsNext (o : Overflow) (s : System M cap) (host : Host) : Bool :=
  match s.stage with
  | .adding (event :: _) =>
    match toBpfEvent o (s.hostOf host) event with
    | some (.ok _) => true
    | _ => false
  | _ => true

/-- What a switch on `cpu` to `next` would output. -/
def outputOf (config : Config) (s : System M cap) (cpu : Nat) (next : TaskStruct) (h : Helpers)
    (walks : Walks) : List BlockEvent :=
  match s.kernel.running[cpu]? with
  | none => []
  | some prev =>
    let answered := stackIds config prev next h walks s.kernel.startTimes s.stackTraces
    (tryJbm config prev next answered.1 s.kernel.startTimes).output

/-- The step is one of a call that reads every buffer with samples in it and fails on no event, or
one of the kernel that reports nothing. -/
def Quiet (config : Config) (o : Overflow) (s : System M cap) : SystemOp → Prop
  | .switch cpu next _ h walks _ _ => s.outputOf config cpu next h walks = []
  | .join => ∀ results ∈ s.stage.results?, ∀ p ∈ results.zip s.rings, p.1 = none → p.2 = []
  | .add host => s.addsNext o host = true
  | .fork _ | .read _ | .fill _ _ | .sweep _ _ => True

instance (config : Config) (o : Overflow) (s : System M cap) (op : SystemOp) :
    Decidable (s.Quiet config o op) :=
  match op with
  | .switch cpu next _ h walks _ _ =>
    inferInstanceAs (Decidable (s.outputOf config cpu next h walks = []))
  | .join =>
    inferInstanceAs (Decidable
      (∀ results ∈ s.stage.results?, ∀ p ∈ results.zip s.rings, p.1 = none → p.2 = []))
  | .add host => inferInstanceAs (Decidable (s.addsNext o host = true))
  | .fork _ | .read _ | .fill _ _ | .sweep _ _ => .isTrue trivial

/-- A switch that outputs nothing leaves nothing behind. -/
theorem emit_nil (s : System M cap) (cpu : Nat) (walks : Walks) (padding : List UInt8)
    (lost : Bool) : s.emit cpu [] walks padding lost = s := by
  have hrings : s.rings.modify cpu (fun ring => ring) = s.rings := List.modify_id cpu s.rings
  simp only [emit, List.map_nil, List.append_nil, hrings, ite_self]

/-- Whether the current call has read a CPU's buffer. -/
def hasRead (s : System M cap) (cpu : Nat) : Bool :=
  match s.stage with
  | .reading results => (results[cpu]?.bind id).isSome
  | _ => false

/-- How many calls have read a CPU's buffer, after `n` joins. -/
def reads (s : System M cap) (n cpu : Nat) : Nat := n + (s.hasRead cpu).toNat

/-- Where `n` joins of quiet calls have taken a system that started at `s`. -/
structure Draining (s : System M cap) (n : Nat) (s' : System M cap) : Prop where
  wakes : s'.wakes = s.wakes
  dropped : s'.dropped = s.dropped
  rings : ∀ cpu, s'.rings[cpu]? = s.rings[cpu]?.map (List.drop (readBatch * s'.reads n cpu))
  results : ∀ results, s'.stage = .reading results → results.length = s'.rings.length

theorem hasRead_begin {s : System M cap} {cpus : Nat} (h : s.stage = Monitor.begin cpus)
    (cpu : Nat) : s.hasRead cpu = false := by
  simp only [hasRead, h, Monitor.begin, List.getElem?_replicate]
  split <;> rfl

/-- A system between two calls has drained nothing. -/
theorem Draining.start {s : System M cap} (h : s.stage = Monitor.begin s.rings.length) :
    Draining s 0 s where
  wakes := rfl
  dropped := rfl
  rings cpu := by
    rw [reads, hasRead_begin h]
    cases s.rings[cpu]? <;> rfl
  results results hres := by
    rw [h] at hres
    cases hres
    exact List.length_replicate

/-- A step that touches neither the buffers nor the reads. -/
theorem Draining.frame {s m s' : System M cap} {n : Nat} (h : Draining s n m)
    (hwakes : s'.wakes = m.wakes) (hdropped : s'.dropped = m.dropped) (hrings : s'.rings = m.rings)
    (hread : ∀ cpu, s'.hasRead cpu = m.hasRead cpu)
    (hres : ∀ results, s'.stage = .reading results → results.length = s'.rings.length) :
    Draining s n s' where
  wakes := hwakes.trans h.wakes
  dropped := hdropped.trans h.dropped
  rings cpu := by
    rw [hrings, h.rings, reads, reads, hread]
  results := hres

/-- A read takes the next five samples. -/
theorem Draining.read {s m : System M cap} {n cpu : Nat} {results : List (Option (List BlockEvent))}
    {ring : List (List UInt8)} {events : List BlockEvent} (h : Draining s n m)
    (hstage : m.stage = .reading results) (hring : m.rings[cpu]? = some ring)
    (hres : results[cpu]? = some none) : Draining s n
      { m with
        rings := m.rings.set cpu (ring.drop readBatch)
        stage := .reading (results.set cpu (some events)) } where
  wakes := h.wakes
  dropped := h.dropped
  rings cpu' := by
    have hold := h.rings cpu'
    by_cases hcpu : cpu = cpu'
    · subst hcpu
      have hbefore : m.reads n cpu = n := by simp [reads, hasRead, hstage, hres]
      have hlt : cpu < results.length := (List.getElem?_eq_some_iff.mp hres).1
      rw [hbefore, hring] at hold
      obtain ⟨ring₀, hring₀, hdrop⟩ := Option.map_eq_some_iff.mp hold.symm
      have hlt' : cpu < m.rings.length := (List.getElem?_eq_some_iff.mp hring).1
      simp only [reads, hasRead, List.getElem?_set_self hlt', List.getElem?_set_self hlt, hring₀,
        ← hdrop, List.drop_drop, Option.map_some, Option.bind_some, id_eq, Option.isSome_some,
        Bool.toNat_true, Nat.mul_add, Nat.mul_one]
    · have hsame : System.hasRead
          { m with
            rings := m.rings.set cpu (ring.drop readBatch)
            stage := .reading (results.set cpu (some events)) } cpu' = m.hasRead cpu' := by
        simp [hasRead, hstage, List.getElem?_set_ne hcpu]
      rw [reads, hsame, ← reads, ← hold]
      exact List.getElem?_set_ne hcpu
  results results' hres' := by
    cases hres'
    simpa using h.results results hstage

/-- A join counts for all buffers: one that was not read had nothing to read. -/
theorem Draining.join {s m : System M cap} {n : Nat} {results : List (Option (List BlockEvent))}
    {batch : List BlockEvent} (h : Draining s n m) (hstage : m.stage = .reading results)
    (hall : ∀ p ∈ results.zip m.rings, p.1 = none → p.2 = []) :
    Draining s (n + 1) { m with stage := .adding batch } where
  wakes := h.wakes
  dropped := h.dropped
  rings cpu := by
    show m.rings[cpu]? = s.rings[cpu]?.map (List.drop (readBatch * (n + 1)))
    have hold := h.rings cpu
    have hlen := h.results results hstage
    by_cases hcpu : cpu < m.rings.length
    · have hlt : cpu < results.length := hlen ▸ hcpu
      cases hres : results[cpu] with
      | some events =>
        have hread : m.reads n cpu = n + 1 := by
          simp [reads, hasRead, hstage, List.getElem?_eq_getElem hlt, hres]
        rw [hold, hread]
      | none =>
        -- the buffer is empty, so it stays empty whatever more is dropped
        have hmem : (results[cpu], m.rings[cpu]) ∈ results.zip m.rings := by
          have hzip : cpu < (results.zip m.rings).length := by
            rw [List.length_zip]
            exact Nat.lt_min.mpr ⟨hlt, hcpu⟩
          rw [← @List.getElem_zip _ _ _ _ _ hzip]
          exact List.getElem_mem hzip
        have hempty : m.rings[cpu] = [] := hall _ hmem hres
        rw [List.getElem?_eq_getElem hcpu, hempty] at hold ⊢
        obtain ⟨ring, hring, hdrop⟩ := Option.map_eq_some_iff.mp hold.symm
        have hread : m.reads n cpu = n := by
          simp [reads, hasRead, hstage, List.getElem?_eq_getElem hlt, hres]
        rw [hread, List.drop_eq_nil_iff] at hdrop
        have hmore : ring.length ≤ readBatch * (n + 1) :=
          Nat.le_trans hdrop (Nat.mul_le_mul_left _ n.le_succ)
        rw [hring, Option.map_some, List.drop_eq_nil_iff.mpr hmore]
    · have hnone : m.rings[cpu]? = none := List.getElem?_eq_none (Nat.le_of_not_lt hcpu)
      rw [hnone] at hold ⊢
      rw [Option.map_eq_none_iff.mp hold.symm]
      rfl
  results results' hres' := by cases hres'

/-- The stage a step of `process` goes on to reads nothing. -/
theorem hasRead_of_not_reading {s : System M cap} (h : s.stage.results? = none) (cpu : Nat) :
    s.hasRead cpu = false := by
  unfold hasRead
  cases hstage : s.stage with
  | reading results => simp [hstage, Stage.results?] at h
  | adding batch => rfl
  | sweeping => rfl

/-- A step from a stage that reads nothing to one that has read nothing. -/
theorem Draining.pass {s m s' : System M cap} {n : Nat} (h : Draining s n m)
    (hwakes : s'.wakes = m.wakes) (hdropped : s'.dropped = m.dropped) (hrings : s'.rings = m.rings)
    (hstage : m.stage.results? = none)
    (hnext : s'.stage.results? = none ∨ s'.stage = Monitor.begin m.rings.length) :
    Draining s n s' := by
  refine h.frame hwakes hdropped hrings (fun cpu => ?_) fun results hres => ?_
  · rw [hasRead_of_not_reading hstage]
    rcases hnext with hnext | hnext
    · exact hasRead_of_not_reading hnext cpu
    · exact hasRead_begin hnext cpu
  · rcases hnext with hnext | hnext
    · simp [hres, Stage.results?] at hnext
    · rw [hnext] at hres
      cases hres
      rw [List.length_replicate, hrings]

theorem Draining.step {config : Config} {o : Overflow} {decode : List Char → Option JvmEvent}
    {s m s' : System M cap} {n : Nat} {op : SystemOp} (h : Draining s n m)
    (hq : m.Quiet config o op) (hstep : Steps config o decode m op s') :
    Draining s (n + op.isJoin.toNat) s' := by
  cases hstep with
  | fork _ => exact h.frame rfl rfl rfl (fun _ => rfl) h.results
  | switch hprev _ hans hout _ =>
    -- a quiet switch outputs nothing
    simp only [Quiet, outputOf, hprev, ← hans, ← hout] at hq
    rw [hq, emit_nil]
    exact h.frame rfl rfl rfl (fun _ => rfl) h.results
  | read hstage hring hres _ => exact h.read hstage hring hres
  | @add host m' _ hm =>
    obtain ⟨event, batch, hstage, _⟩ := Monitor.stage_of_add hm
    change m.stage = _ at hstage
    -- a quiet step fails on no event
    obtain ⟨e, he⟩ : ∃ e, toBpfEvent o (m.hostOf host) event = some (.ok e) := by
      simp only [Quiet, addsNext, hstage] at hq
      split at hq
      · next e he => exact ⟨e, he⟩
      · cases hq
    have hadded := Monitor.stage_of_added hstage he hm
    rw [afterAdd_added hadded]
    exact h.pass rfl rfl rfl (by rw [hstage]; rfl) (.inl (by rw [adopt, hadded]; rfl))
  | @join m' hm =>
    simp only [Monitor.step] at hm
    split at hm
    · next results hstage =>
      cases hm
      change m.stage = _ at hstage
      exact h.join hstage (hq results (by rw [hstage]; rfl))
    · cases hm
  | fill hm =>
    obtain ⟨hstage, _, hnext⟩ := Monitor.stage_of_fill hm
    change m.stage = _ at hstage
    refine h.pass rfl rfl rfl (by rw [hstage]; rfl) ?_
    rcases hnext with hnext | hnext
    · exact .inl (by rw [adopt, hnext]; rfl)
    · exact .inr (by rw [adopt, hnext, monitor, List.length_map])
  | sweep hm =>
    obtain ⟨hstage, _, hnext⟩ := Monitor.stage_of_sweep hm
    change m.stage = _ at hstage
    exact h.pass rfl rfl rfl (by rw [hstage]; rfl)
      (.inr (by rw [adopt, hnext, monitor, List.length_map]))

/-- A run of quiet steps drains as many times five samples as it has joins. -/
theorem draining_of_exec {config : Config} {o : Overflow} {decode : List Char → Option JvmEvent}
    {s s' : System M cap} {ops : List SystemOp} (hs : s.stage = Monitor.begin s.rings.length)
    (h : exec (System.step config o decode) s ops = some s')
    (hq : Meets (System.step config o decode) (Quiet config o) s ops) :
    Draining s (ops.countP SystemOp.isJoin) s' := by
  have go : ∀ {ops : List SystemOp} {n : Nat} {m : System M cap}, Draining s n m →
      exec (System.step config o decode) m ops = some s' →
      Meets (System.step config o decode) (Quiet config o) m ops →
      Draining s (n + ops.countP SystemOp.isJoin) s' := by
    intro ops
    induction ops with
    | nil =>
      intro n m hm h _
      obtain rfl : m = s' := by simpa using h
      exact hm
    | cons op ops ih =>
      intro n m hm h hq
      obtain ⟨m', hm', hrest⟩ := exec_cons.mp h
      have hnext := ih (hm.step hq.1 (steps_of_step hm')) hrest (hq.tail hm')
      have hcount : n + (op :: ops).countP SystemOp.isJoin =
          n + op.isJoin.toNat + ops.countP SystemOp.isJoin := by
        rw [List.countP_cons]
        cases op.isJoin <;> simp
        omega
      exact hcount ▸ hnext
  simpa using go (Draining.start hs) h hq

/-- A sweep of the system is one of its stream, and the last step of its call. -/
theorem sweep_of_steps {config : Config} {o : Overflow} {decode : List Char → Option JvmEvent}
    {s s' : System M cap} {now : UInt64} {order : List UInt32}
    (h : Steps config o decode s (.sweep now order) s') :
    s'.stage = Monitor.begin s'.rings.length ∧ s.history.stream.bpfEvents.Visits order ∧
      ∃ out, s.history.stream.sweep o now order = some out ∧ s'.history.stream = out.stream := by
  cases h with
  | sweep hm =>
    simp only [Monitor.step] at hm
    split at hm
    · obtain ⟨history, hsweep, rfl⟩ := Option.map_eq_some_iff.mp hm
      cases History.steps_of_step hsweep with
      | sweep hv hout => exact ⟨by simp [adopt, monitor], hv, _, hout, rfl⟩
    · cases hm

/-- Between two calls, the buffers have been drained by the joins alone. -/
theorem Draining.rings_eq {s s' : System M cap} {n : Nat} (h : Draining s n s')
    (hstage : s'.stage = Monitor.begin s'.rings.length) :
    s'.rings = s.rings.map (List.drop (readBatch * n)) := by
  refine List.ext_getElem? fun cpu => ?_
  rw [h.rings, reads, hasRead_begin hstage, List.getElem?_map]
  rfl

/-- Between two calls, with no more in the buffers than was drained, nothing is on its way. -/
theorem Draining.account {config : Config} {s s' : System M cap} {n : Nat} (h : Draining s n s')
    (hstage : s'.stage = Monitor.begin s'.rings.length) (hs' : s'.Accounted config)
    (hfew : ∀ ring ∈ s.rings, ring.length ≤ readBatch * n) :
    s'.kernel.outputs.Perm (s.lost ++ s.dropped ++ s'.added) := by
  have hempty : s'.buffered = [] := by
    refine List.flatMap_eq_nil_iff.mpr fun ring hring => ?_
    rw [h.rings_eq hstage] at hring
    obtain ⟨ring₀, hring₀, rfl⟩ := List.mem_map.mp hring
    rw [List.drop_eq_nil_iff.mpr (hfew ring₀ hring₀)]
    rfl
  have haccount := hs'.account
  have hlost : s'.lost = s.lost := by rw [lost, h.wakes, lost]
  rw [hempty, hstage, inHand_begin, hlost, h.dropped, List.append_nil, List.append_nil] at haccount
  exact haccount

end System

/-- A sweep 30 s behind every event of a thread leaves none of them. -/
theorem sweep_empties {o : Overflow} {now : UInt64} {order : List UInt32} {s : EventStream}
    {out : Swept} (hv : s.bpfEvents.Visits order) (h : s.sweep o now order = some out) {t : UInt32}
    (hlate : ∀ b ∈ s.bpfEvents.queue t, b.timestamp.toNat + 30000 ≤ now.toNat) :
    out.stream.bpfEvents.queue t = [] := by
  have hwaits := sweep_waits hv h t
  cases hq : out.stream.bpfEvents.queue t with
  | nil => rfl
  | cons e rest =>
    have hyoung := (hwaits e (by rw [hq]; rfl)).2
    have hmem : e ∈ s.bpfEvents.queue t := by
      rw [← (sweep_account h).reported t, hq]
      exact List.mem_append_right _ List.mem_cons_self
    have hage := hlate e hmem
    have hle : e.timestamp ≤ now := UInt64.le_iff_toNat_le.mpr (by omega)
    rw [givesUp_eq o hle] at hyoung
    simp [hage] at hyoung

/-- **How fast the system comes to rest**: take quiet steps from a system between two calls, with
`k` joins among them, up to the last sweep. The buffers have lost their first `5 * k` samples and
nothing else happened to them; so when no buffer had more, everything that was ever output is lost,
dropped before, or added. And when that sweep comes 30 s behind every event still queued, everything
added has been returned, thread by thread in order. -/
theorem everything_returned {M : StackMap} {config : Config} {b : Boot config} {o : Overflow}
    {decode : List Char → Option JvmEvent} {ops more : List SystemOp} {now : UInt64}
    {order : List UInt32} {s m s' : System M config.stackCap}
    (h : System.run M b o decode ops = some s) (hbegin : s.stage = Monitor.begin s.rings.length)
    (hmore : exec (System.step config o decode) s more = some m)
    (hquiet : Meets (System.step config o decode) (System.Quiet config o) s more)
    (hsweep : m.step config o decode (.sweep now order) = some s') :
    s'.rings = s.rings.map (List.drop (readBatch * more.countP SystemOp.isJoin)) ∧
      ((∀ ring ∈ s.rings, ring.length ≤ readBatch * more.countP SystemOp.isJoin) →
        s'.kernel.outputs.Perm (s.lost ++ s.dropped ++ s'.added)) ∧
      ((∀ tid, ∀ e ∈ m.history.stream.bpfEvents.queue tid,
          e.timestamp.toNat + 30000 ≤ now.toNat) →
        ∀ tid, (s'.history.returned.map Prod.fst).filter (·.tid = tid) =
          (s'.history.added.map Prod.snd).filter (·.tid = tid)) := by
  have hrun : System.run M b o decode (ops ++ (more ++ [.sweep now order])) = some s' := by
    rw [System.run, exec_append]
    exact Option.bind_eq_some_iff.mpr ⟨s, h, exec_concat.mpr ⟨m, hmore, hsweep⟩⟩
  have hsteps := System.steps_of_step hsweep
  have hlast : m.Quiet config o (.sweep now order) := trivial
  have hdrain := (System.draining_of_exec hbegin hmore hquiet).step hlast hsteps
  obtain ⟨hstage, hv, out, hout, hstream⟩ := System.sweep_of_steps hsteps
  refine ⟨hdrain.rings_eq hstage, hdrain.account hstage (System.accounted_of_run hrun),
    fun hlate tid => ?_⟩
  obtain ⟨streamOps, hhistory⟩ := System.refines_history.run trivial hrun
  have hreported := (History.accounted_of_run hhistory).reported tid
  rw [hstream, sweep_empties hv hout (hlate tid), List.append_nil] at hreported
  exact hreported

/-- The sample run before the last sweep, one call on the one event in the buffers, during which
thread 7 leaves the CPU again. -/
def sampleCall : List SystemOp :=
  .switch 0 sampleIdle false (sampleHelpers 5500000) sampleWalks [] false ::
    (sampleSystem.drop 2).take 4

theorem sampleReported_runs : (System.run sampleStackMap sampleBoot .abort sampleDecode
    (sampleSystem.take 2)).isSome := by decide

theorem sampleCall_runs : (exec (System.step sampleConfig .abort sampleDecode)
    (Option.get _ sampleReported_runs) sampleCall).isSome := by decide

theorem sampleLast_runs : (System.step sampleConfig .abort sampleDecode
    (Option.get _ sampleCall_runs) (.sweep 40000 [7])).isSome := by decide

theorem everything_returned_sampleSystem :
    let s := Option.get _ sampleReported_runs
    let m := Option.get _ sampleCall_runs
    let s' := Option.get _ sampleLast_runs
    s'.rings = s.rings.map (List.drop (readBatch * sampleCall.countP SystemOp.isJoin)) ∧
      ((∀ ring ∈ s.rings, ring.length ≤ readBatch * sampleCall.countP SystemOp.isJoin) →
        s'.kernel.outputs.Perm (s.lost ++ s.dropped ++ s'.added)) ∧
      ((∀ tid, ∀ e ∈ m.history.stream.bpfEvents.queue tid, e.timestamp.toNat + 30000 ≤ 40000) →
        ∀ tid, (s'.history.returned.map Prod.fst).filter (·.tid = tid) =
          (s'.history.added.map Prod.snd).filter (·.tid = tid)) :=
  everything_returned (Option.some_get sampleReported_runs).symm rfl
    (Option.some_get sampleCall_runs).symm (by decide) (Option.some_get sampleLast_runs).symm

end Jbm
