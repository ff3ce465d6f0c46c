import Jbm.Laws.Stream.Schedule
import Jbm.Laws.Stream.Solo

/-!
# Exact pairing of many threads

`exact_pairing` is about a stream that one thread feeds. Here any number of threads block again and
again, their blocks and samples are delivered and swept in any interleaving, and each thread keeps
the rules it would have to keep alone. One rule connects them: no block ends strictly between a
block of another thread and that block's sample. Then no sweep finds the stream contended, and each
thread sees the run it would have had alone (`History.Steps.solo`): its reports are exact.
-/

set_option autoImplicit false

namespace Jbm

open Base

/-- The blocks of every thread, each with its JVM sample. -/
structure BlockHistories (threads : List UInt32)
    (blocks : UInt32 → List (BpfEvent × JvmEvent)) : Prop where
  thread : ∀ t ∈ threads, BlockHistory t (blocks t)
  apart : ∀ t ∈ threads, ∀ u ∈ threads, t ≠ u → ∀ p ∈ blocks u, ∀ q ∈ blocks t,
    q.1.timestamp ≤ p.1.timestamp ∨ p.2.timestamp ≤ q.1.timestamp

/-- Blocks are added of the threads only. -/
def Op.AddsOf (threads : List UInt32) : Op → Prop
  | .add _ event => event.pid ∈ threads
  | _ => True

/-- A schedule for the blocks of every thread: what each of them sees of an operation is one for its
own blocks. -/
def Schedules (o : Overflow) (decode : List Char → Option JvmEvent) (threads : List UInt32)
    (blocks : UInt32 → List (BpfEvent × JvmEvent)) (s : History) (op : Op) : Prop :=
  op.AddsOf threads ∧
    ∀ t ∈ threads, ∀ op' ∈ op.solo t, Schedule o (decodeOf t decode) (blocks t) (s.solo t) op'

/-- Every thread has its blocks reported up to some point, and no other thread has any. -/
structure AllPaired (threads : List UInt32) (blocks : UInt32 → List (BpfEvent × JvmEvent))
    (s : History) : Prop where
  paired : ∀ t ∈ threads, ∃ k, Paired t (blocks t) k (s.solo t)
  idle : ∀ t, t ∉ threads →
    s.stream.bpfEvents.queue t = [] ∧ partOf t s.returned = [] ∧ trashOf t s.trashed = []

/-! ## A sweep -/

/-- No thread's next event takes over what another thread's own queues yield last. -/
def EventStream.Separate (o : Overflow) (now : UInt64) (s : EventStream) : Prop :=
  ∀ u ∈ s.bpfEvents.keys, ∀ t ∈ s.bpfEvents.keys, u ≠ t → ∀ e ∈ (s.bpfEvents.queue t).head?,
    takeOver? o (s.ownPairs o now u).reverse e.timestamp = some false

theorem EventStream.Separate.uncontended {o : Overflow} {now : UInt64} {s : EventStream}
    (h : s.Separate o now) : ¬ s.Contended o now := by
  rintro ⟨u, hu, t, ht, hne, e, he, htake⟩
  rw [h u hu t ht hne e he] at htake
  cases htake

/-- The outer loop of a sweep before the visits of `rest`. -/
def SweepLoop.Before (o : Overflow) (now : UInt64) (s : EventStream) (l : SweepLoop)
    (rest : List UInt32) : Prop :=
  ∃ done, QuietLoop o now s done l ∧ (done ++ rest).Nodup ∧ ∀ t ∈ rest, t ∈ s.bpfEvents.keys

/-- The visit of a separate thread returns when its own matcher does. -/
theorem SweepLoop.Before.step {o : Overflow} {now : UInt64} {s : EventStream} {l : SweepLoop}
    {t : UInt32} {rest : List UInt32} (h : l.Before o now s (t :: rest)) (hs : s.Separate o now)
    (hown : ∃ r, s.own o now t = some r) :
    ∃ l', sweepTid o now l t = some l' ∧ l'.Before o now s rest := by
  obtain ⟨done, hl, hnodup, hkeys⟩ := h
  have ht : t ∉ done := fun hmem =>
    (List.nodup_append.mp hnodup).2.2 t hmem t List.mem_cons_self rfl
  have hkey := hkeys t List.mem_cons_self
  obtain ⟨hbpf, hjvm⟩ := hl.untouched t ht
  have hno : ∀ e ∈ (s.bpfEvents.queue t).head?, takeOver? o l.ret e.timestamp = some false := by
    intro e he
    cases hret : l.ret with
    | nil => rfl
    | cons p older =>
      obtain ⟨u, hu, hukey, hlast⟩ := hl.newest p older hret
      have hsep := hs u hukey t hkey (fun heq => ht (heq ▸ hu)) e he
      rwa [reverse_of_getLast? hlast, takeOver?_congr o p _ older] at hsep
  obtain ⟨r, hr⟩ := hown
  have hvisit := @sweepThread_eq_lookAhead o now _ (s.jvmEvents.queue t) l.ret hno
  rw [show lookAhead o now (s.bpfEvents.queue t) (s.jvmEvents.queue t) = some r from hr,
    Option.map_some, Option.map_eq_some_iff] at hvisit
  obtain ⟨v, hv, _⟩ := hvisit
  have hne : l.bpfEvents.queue t ≠ [] := by
    rw [hbpf]
    exact Filing.mem_keys.mp hkey
  obtain ⟨l', hl'⟩ := sweepTid_isSome hne (by rwa [hbpf, hjvm])
  refine ⟨l', hl', done ++ [t], hl.step hs.uncontended ht hkey hl', ?_, fun u hu => ?_⟩
  · simpa using hnodup
  · exact hkeys u (List.mem_cons_of_mem _ hu)

/-- The sweep of a stream whose threads are separate returns when each thread's own matcher does. -/
theorem sweep_of_separate {o : Overflow} {now : UInt64} {order : List UInt32} {s : EventStream}
    (hs : s.Separate o now) (hown : ∀ t ∈ s.bpfEvents.keys, ∃ r, s.own o now t = some r)
    (hv : s.bpfEvents.Visits order) : ∃ out, s.sweep o now order = some out := by
  have keep : ∀ (l : SweepLoop) (t : UInt32) (rest : List UInt32), l.Before o now s (t :: rest) →
      True → ∃ l', sweepTid o now l t = some l' ∧ l'.Before o now s rest := by
    intro l t rest h _
    obtain ⟨_, _, _, hkeys⟩ := id h
    exact h.step hs (hown t (hkeys t List.mem_cons_self))
  have hkeys : ∀ t ∈ order, t ∈ s.bpfEvents.keys := fun t ht =>
    Filing.mem_keys.mpr ((hv.mem_iff t).mp ht)
  obtain ⟨l, hl, _⟩ := exec_answers (I := SweepLoop.Before o now s) keep
    ⟨[], QuietLoop.start o now s, by simpa using hv.1, hkeys⟩ (meets_true _ order)
  exact ⟨_, sweep_eq_some.mpr ⟨l, hl, rfl⟩⟩

/-- The sweep of a stream that has BPF events of one thread only returns what that thread's queues
yield. -/
theorem own_of_sweep {o : Overflow} {now : UInt64} {order : List UInt32} {s : EventStream}
    {t : UInt32} {out : Swept} (only : ∀ u, u ≠ t → s.bpfEvents.queue u = [])
    (hv : s.bpfEvents.Visits order) (h : s.sweep o now order = some out) :
    ∃ r, s.own o now t = some r ∧ r.pairs = out.returned := by
  have hquiet : ¬ s.Contended o now := by
    rintro ⟨u, hu, t', ht', hne, _⟩
    have heq : ∀ v ∈ s.bpfEvents.keys, v = t := fun v hv => by
      by_contra hvt
      exact Filing.mem_keys.mp hv (only v hvt)
    exact hne ((heq u hu).trans (heq t' ht').symm)
  obtain ⟨hret, hown⟩ := sweep_quiet hquiet hv h
  obtain ⟨r, hr, _⟩ := hown t
  refine ⟨r, hr, ?_⟩
  rw [← EventStream.ownPairs_eq hr, ← partOf_flatMap hv t, ← hret, partOf, List.filter_eq_self]
  intro p hp
  rw [hret] at hp
  obtain ⟨u, hu, hp⟩ := List.mem_flatMap.mp hp
  have hut : u = t := by
    by_contra hut
    exact (hv.mem_iff u).mp hu (only u hut)
  exact decide_eq_true ((EventStream.mem_ownPairs hp).1.trans hut)

section Sweeps

variable {o : Overflow} {decode : List Char → Option JvmEvent} {threads : List UInt32}
  {blocks : UInt32 → List (BpfEvent × JvmEvent)} {s : History} {now : UInt64}

/-- The clock rule of every thread. -/
def ClockRules (threads : List UInt32) (blocks : UInt32 → List (BpfEvent × JvmEvent))
    (s : History) (now : UInt64) : Prop :=
  ∀ t ∈ threads, ClockRule now ((blocks t).take (s.solo t).addedEvents.length)
    ((blocks t).drop (s.solo t).filed.length)

/-- A thread's own matcher answers, and reports blocks of the thread with their samples. -/
theorem AllPaired.own (hb : BlockHistories threads blocks) (hs : AllPaired threads blocks s)
    (hclock : ClockRules threads blocks s now) {t : UInt32} (ht : t ∈ threads) :
    ∃ r, s.stream.own o now t = some r ∧ ∀ p ∈ r.pairs, ∃ q ∈ blocks t, p = reportOf q := by
  obtain ⟨k, hk⟩ := hs.paired t ht
  obtain ⟨order, hv⟩ := (s.solo t).stream.bpfEvents.exists_visits
  obtain ⟨s₁, hstep, _, _, hpaired⟩ :=
    @Paired.sweep o (fun _ => none) t _ k _ (hb.thread t ht) hk now order hv (hclock t ht)
  cases History.steps_of_step hstep with
  | @sweep _ _ out _ hout =>
    have only : ∀ u, u ≠ t → (s.solo t).stream.bpfEvents.queue u = [] := fun u hu => by
      rw [hk.bpf u, if_neg hu]
    obtain ⟨r, hr, hpairs⟩ := own_of_sweep only hv hout
    refine ⟨r, ?_, fun p hp => ?_⟩
    · rw [← hr]
      simp [EventStream.own, History.solo, EventStream.solo]
    · have hmem : p ∈ (s.solo t).returned ++ out.returned :=
        List.mem_append_right _ (hpairs ▸ hp)
      have hreturned : (s.solo t).returned ++ out.returned = _ := hpaired.returned
      rw [hreturned] at hmem
      obtain ⟨q, hq, rfl⟩ := List.mem_map.mp hmem
      exact ⟨q, List.mem_of_mem_take hq, rfl⟩

/-- The threads that have BPF events queued are those that block, and what is queued are blocks. -/
theorem AllPaired.queued (hs : AllPaired threads blocks s) {t : UInt32}
    (ht : t ∈ s.stream.bpfEvents.keys) :
    t ∈ threads ∧ ∀ e ∈ s.stream.bpfEvents.queue t, ∃ q ∈ blocks t, e = q.1 := by
  have hmem : t ∈ threads := by
    by_contra hout
    exact Filing.mem_keys.mp ht (hs.idle t hout).1
  refine ⟨hmem, fun e he => ?_⟩
  obtain ⟨k, hk⟩ := hs.paired t hmem
  have hqueue : (s.solo t).stream.bpfEvents.queue t = s.stream.bpfEvents.queue t := by
    simp [History.solo, EventStream.solo]
  rw [← hqueue, hk.bpf t, if_pos rfl] at he
  obtain ⟨q, hq, rfl⟩ := List.mem_map.mp (hk.added.subset (List.mem_of_mem_drop he))
  exact ⟨q, hq, rfl⟩

/-- Under the clock rules the threads are separate. -/
theorem AllPaired.separate (hb : BlockHistories threads blocks) (hs : AllPaired threads blocks s)
    (hclock : ClockRules threads blocks s now) : s.stream.Separate o now := by
  intro u hu t ht hne e he
  obtain ⟨huthr, _⟩ := hs.queued hu
  obtain ⟨htthr, hqueued⟩ := hs.queued ht
  obtain ⟨q, hq, rfl⟩ := hqueued e (List.mem_of_mem_head? he)
  obtain ⟨r, hr, hpairs⟩ := @AllPaired.own o _ _ _ _ hb hs hclock u huthr
  rw [EventStream.ownPairs_eq hr]
  cases hlast : r.pairs.getLast? with
  | none =>
    rw [List.getLast?_eq_none_iff.mp hlast]
    rfl
  | some p =>
    obtain ⟨p, hp, rfl⟩ := hpairs p (List.mem_of_getLast? hlast)
    rw [reverse_of_getLast? hlast]
    show takesOver o p.1 p.2 q.1.timestamp = some false
    have hhist := hb.thread u huthr
    rw [takesOver_eq o (hhist.small p hp) ((hb.thread t htthr).bpf_small hq) (hhist.window p hp).1,
      Option.some.injEq, decide_eq_false_iff_not]
    have hapart := hb.apart t htthr u huthr (Ne.symm hne) p hp q hq
    simp only [UInt64.le_iff_toNat_le] at hapart
    rw [UInt64.lt_iff_toNat_lt, UInt64.lt_iff_toNat_lt]
    omega

/-! ## A schedule -/

/-- A scheduled sweep finds the clock rules kept. -/
theorem Schedules.clock {order : List UInt32}
    (h : Schedules o decode threads blocks s (.sweep now order)) :
    ClockRules threads blocks s now := fun t ht => h.2 t ht _ rfl

/-- A sweep that keeps the clock rules is scheduled. -/
theorem ClockRules.schedules (h : ClockRules threads blocks s now) (order : List UInt32) :
    Schedules o decode threads blocks s (.sweep now order) :=
  ⟨trivial, fun t ht _ hop => Option.mem_some_iff.mp hop ▸ h t ht⟩

/-- A scheduled operation finds the stream without contention. -/
theorem AllPaired.uncontended (hb : BlockHistories threads blocks)
    (hs : AllPaired threads blocks s) {op : Op} (hop : Schedules o decode threads blocks s op) :
    s.Uncontended o op := by
  cases op with
  | add _ _ => trivial
  | fill _ => trivial
  | sweep now order => exact (hs.separate hb hop.clock).uncontended

/-- A scheduled sweep returns. -/
theorem AllPaired.sweep (hb : BlockHistories threads blocks) (hs : AllPaired threads blocks s)
    {order : List UInt32} (hv : s.stream.bpfEvents.Visits order)
    (hclock : ClockRules threads blocks s now) :
    ∃ s', History.step o decode s (.sweep now order) = some s' := by
  have hown : ∀ t ∈ s.stream.bpfEvents.keys, ∃ r, s.stream.own o now t = some r := fun t ht =>
    (hs.own hb hclock (hs.queued ht).1).imp fun _ h => h.1
  obtain ⟨out, hout⟩ := sweep_of_separate (hs.separate hb hclock) hown hv
  exact ⟨_, History.step_of_steps (.sweep hv hout)⟩

theorem AllPaired.step (hb : BlockHistories threads blocks) (hs : AllPaired threads blocks s)
    {op : Op} {s' : History} (hcount : s.Counted o)
    (hop : Schedules o decode threads blocks s op)
    (h : History.step o decode s op = some s') : AllPaired threads blocks s' := by
  have hsteps := History.steps_of_step h
  have hquiet := hs.uncontended hb hop
  refine ⟨fun t ht => ?_, fun t ht => ?_⟩
  · obtain ⟨k, hk⟩ := hs.paired t ht
    have hsolo := hsteps.solo hcount hquiet t
    cases hpart : op.solo t with
    | none =>
      rw [hpart] at hsolo
      exact ⟨k, Option.some.inj hsolo ▸ hk⟩
    | some op' =>
      rw [hpart] at hsolo
      obtain ⟨m, hm, hend⟩ := exec_cons.mp hsolo
      obtain rfl := Option.some.inj hend
      exact hk.step (hb.thread t ht) (hop.2 t ht op' hpart) hm
  · obtain ⟨hqueue, hret, htrash⟩ := hs.idle t ht
    cases hsteps with
    | @add host event e he =>
      have htid : e.tid ≠ t := by
        rw [toBpfEvent_tid he]
        exact fun heq => ht (heq ▸ hop.1)
      exact ⟨(Filing.queue_push_of_ne _ htid).trans hqueue, hret, htrash⟩
    | fill => exact ⟨hqueue, hret, htrash⟩
    | @sweep now order out hv hout =>
      -- the thread is not visited, so it sees an empty sweep
      have hsolo := sweep_solo hquiet hv hout t 0
      have horder : order.filter (· = t) = [] := by
        rw [List.filter_eq_nil_iff]
        intro u hu
        simpa using fun heq : u = t => (hv.mem_iff u).mp hu (heq ▸ hqueue)
      rw [horder] at hsolo
      simp only [EventStream.sweep, exec_nil, Option.map_some, List.reverse_nil, Option.some.injEq,
        Swept.mk.injEq] at hsolo
      obtain ⟨hreturned, htrashed, hstream⟩ := hsolo
      have hleft : out.stream.bpfEvents.queue t = s.stream.bpfEvents.queue t := by
        have hqueues := congrArg (fun s => s.bpfEvents.queue t) hstream
        simpa [EventStream.solo] using hqueues.symm
      refine ⟨hleft.trans hqueue, ?_, ?_⟩
      · rw [partOf_append, hret, ← hreturned, List.nil_append]
      · rw [trashOf_append, htrash, ← htrashed, List.nil_append]

/-- After a scheduled sweep every thread has those of its blocks reported of which both events were
there. -/
theorem AllPaired.swept (hb : BlockHistories threads blocks) (hs : AllPaired threads blocks s)
    {order : List UInt32} {s' : History} (hcount : s.Counted o)
    (hv : s.stream.bpfEvents.Visits order) (hclock : ClockRules threads blocks s now)
    (h : History.step o decode s (.sweep now order) = some s') {t : UInt32} (ht : t ∈ threads) :
    Paired t (blocks t) (min (s.solo t).addedEvents.length (s.solo t).filed.length)
      (s'.solo t) := by
  obtain ⟨k, hk⟩ := hs.paired t ht
  obtain ⟨m, hm, _, _, hpaired⟩ := @Paired.sweep o (decodeOf t decode) t _ k _ (hb.thread t ht) hk
    now _ (hv.only t) (hclock t ht)
  have hsolo := (History.steps_of_step h).solo hcount (hs.separate hb hclock).uncontended t
  obtain ⟨m', hm', hend⟩ := exec_cons.mp hsolo
  obtain rfl := Option.some.inj hend
  rw [hm, Option.some.injEq] at hm'
  rwa [← hm']

/-- Nothing is reported of the rest of the world. -/
theorem AllPaired.mem_threads (hs : AllPaired threads blocks s) {p : Pair}
    (hp : p ∈ s.returned) : p.1.tid ∈ threads := by
  by_contra hout
  have hmem : p ∈ partOf p.1.tid s.returned := List.mem_filter.mpr ⟨hp, by simp⟩
  rw [(hs.idle _ hout).2.1] at hmem
  cases hmem

/-- Nothing is trashed. -/
theorem AllPaired.trashed (hs : AllPaired threads blocks s) : s.trashed = [] := by
  rw [List.eq_nil_iff_forall_not_mem]
  intro tr htr
  have hmem : tr ∈ trashOf tr.jvm.tid s.trashed := List.mem_filter.mpr ⟨htr, by simp⟩
  have hnone : trashOf tr.jvm.tid s.trashed = [] := by
    by_cases ht : tr.jvm.tid ∈ threads
    · obtain ⟨k, hk⟩ := hs.paired _ ht
      exact hk.trashed
    · exact (hs.idle _ ht).2.2
  rw [hnone] at hmem
  cases hmem

end Sweeps

theorem allPaired_new (threads : List UInt32) (blocks : UInt32 → List (BpfEvent × JvmEvent)) :
    AllPaired threads blocks .new where
  paired t _ := ⟨0, (History.solo_new t).symm ▸ paired_new t (blocks t)⟩
  idle t _ := ⟨by simp [History.new, EventStream.new], rfl, rfl⟩

/-- **Exact pairing of many threads, under any delivery interleaving.** Along every schedule of the
threads' blocks no sweep stops the program, and once everything is delivered, one more sweep in any
order completes the reports of each thread to exactly its blocks, in order, each with its own
sample; nothing else is reported and nothing is trashed. -/
theorem exact_pairing_threads {o : Overflow} {decode : List Char → Option JvmEvent}
    {threads : List UInt32} {blocks : UInt32 → List (BpfEvent × JvmEvent)}
    (hb : BlockHistories threads blocks) {ops : List Op} {s : History}
    (h : History.run o decode ops = some s)
    (hops : Meets (History.step o decode) (Schedules o decode threads blocks) .new ops) :
    (∀ now order, Schedules o decode threads blocks s (.sweep now order) →
      s.stream.bpfEvents.Visits order →
      (History.step o decode s (.sweep now order)).isSome) ∧
    ((∀ t ∈ threads, (s.solo t).addedEvents = (blocks t).map Prod.fst ∧
        (s.solo t).filed = (blocks t).map Prod.snd) →
      ∀ now order, (∀ t ∈ threads, ∀ p ∈ blocks t, p.1.timestamp ≤ now) →
      s.stream.bpfEvents.Visits order →
      ∃ s', History.step o decode s (.sweep now order) = some s' ∧
        (∀ t ∈ threads, partOf t s'.returned = (blocks t).map fun p => (p.1, some p.2)) ∧
        (∀ p ∈ s'.returned, p.1.tid ∈ threads) ∧ s'.trashed = []) := by
  have keep : ∀ s op s', s.Counted o ∧ AllPaired threads blocks s →
      Schedules o decode threads blocks s op → History.step o decode s op = some s' →
      s'.Counted o ∧ AllPaired threads blocks s' := fun s op s' hI hop hstep =>
    ⟨hI.1.step (History.steps_of_step hstep), hI.2.step hb hI.1 hop hstep⟩
  obtain ⟨hcount, hs⟩ :=
    exec_invariant keep ⟨History.counted_new o, allPaired_new threads blocks⟩ hops h
  refine ⟨fun now order hop hv => ?_, fun hall now order hnow hv => ?_⟩
  · exact Option.isSome_iff_exists.mpr (hs.sweep hb hv hop.clock)
  · have hclock : ClockRules threads blocks s now := by
      intro t ht
      obtain ⟨hadd, hfil⟩ := hall t ht
      rw [hadd, hfil, List.length_map, List.length_map, List.take_length, List.drop_length]
      exact ⟨hnow t ht, by simp⟩
    obtain ⟨s', hstep⟩ : ∃ s', History.step o decode s (.sweep now order) = some s' :=
      hs.sweep hb hv hclock
    have hafter := hs.step hb hcount (hclock.schedules order) hstep
    refine ⟨s', hstep, fun t ht => ?_, fun p hp => hafter.mem_threads hp, hafter.trashed⟩
    obtain ⟨hadd, hfil⟩ := hall t ht
    have hend := (hs.swept hb hcount hv hclock hstep ht).returned
    rw [hadd, hfil, List.length_map, List.length_map, Nat.min_self, List.take_length] at hend
    exact hend

instance (threads : List UInt32) : ∀ op : Op, Decidable (op.AddsOf threads)
  | .add _ event => inferInstanceAs (Decidable (event.pid ∈ threads))
  | .fill _ | .sweep _ _ => .isTrue trivial

instance (o : Overflow) (decode : List Char → Option JvmEvent) (threads : List UInt32)
    (blocks : UInt32 → List (BpfEvent × JvmEvent)) (s : History) (op : Op) :
    Decidable (Schedules o decode threads blocks s op) :=
  -- over the list, not over every thread id there is
  have : Decidable (∀ t ∈ threads, ∀ op' ∈ op.solo t,
      Schedule o (decodeOf t decode) (blocks t) (s.solo t) op') := List.decidableBAll _ threads
  inferInstanceAs (Decidable (_ ∧ _))

/-- A block of thread 7, and one of thread 8 that ends behind its sample. -/
def sampleEach (t : UInt32) : List (BpfEvent × JvmEvent) :=
  if t = 7 then [(sampleBpf 7 3, sampleJvm 7 5)]
  else if t = 8 then [(sampleBpf 8 6, sampleJvm 8 9)]
  else []

/-- A line about thread 8, `\x7b"timestamp":9,"tid":8,"frames":[]\x7d`. -/
def sampleLine8 : List Char := "\x7b\"timestamp\":9,\"tid\":8,\"frames\":[]\x7d".toList

/-- The decoder on the two lines. -/
def sampleDecodeEach (line : List Char) : Option JvmEvent :=
  if line = sampleLine8 then some (sampleJvm 8 9) else sampleDecode line

/-- Both blocks are there before the samples, which one read delivers after a sweep. -/
def sampleInterleaved : List Op :=
  [sampleAdd 8 6, sampleAdd 7 3, .sweep 7 [8, 7],
    .fill (sampleLine ++ '\n' :: sampleLine8 ++ ['\n'])]

theorem sampleInterleaved_runs :
    (History.run .abort sampleDecodeEach sampleInterleaved).isSome := by decide

theorem sampleEach_histories : BlockHistories [7, 8] sampleEach where
  thread := by
    intro t ht
    rcases List.mem_pair.mp ht with rfl | rfl
    · exact ⟨by decide, by decide, List.isChain_singleton _, by decide⟩
    · exact ⟨by decide, by decide, List.isChain_singleton _, by decide⟩
  apart := by
    intro t ht u hu hne
    rcases List.mem_pair.mp ht with rfl | rfl
    · rcases List.mem_pair.mp hu with rfl | rfl
      · exact absurd rfl hne
      · decide
    · rcases List.mem_pair.mp hu with rfl | rfl
      · decide
      · exact absurd rfl hne

theorem exact_pairing_threads_sampleInterleaved :
    let s := (History.run .abort sampleDecodeEach sampleInterleaved).get sampleInterleaved_runs
    ∃ s', History.step .abort sampleDecodeEach s (.sweep 10 [7, 8]) = some s' ∧
      partOf 7 s'.returned = [(sampleBpf 7 3, some (sampleJvm 7 5))] ∧
      partOf 8 s'.returned = [(sampleBpf 8 6, some (sampleJvm 8 9))] := by
  obtain ⟨s', hs', hreturned, _⟩ :=
    (exact_pairing_threads sampleEach_histories (Option.some_get sampleInterleaved_runs).symm
      (by decide)).2
      (List.forall_mem_cons.mpr ⟨by decide, List.forall_mem_singleton.mpr (by decide)⟩) 10 [7, 8]
      (List.forall_mem_cons.mpr ⟨by decide, List.forall_mem_singleton.mpr (by decide)⟩) (by decide)
  exact ⟨s', hs', hreturned 7 (by decide), hreturned 8 (by decide)⟩

end Jbm
