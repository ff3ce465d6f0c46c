import Jbm.Base.Simulation
import Jbm.Laws.Stream.Threads

/-!
# A thread by itself

The purge of a run to one thread: only the thread's own blocks are added, of the lines read only
those about it are decoded, and a sweep visits it alone. `solo_run` says that a run whose sweeps are
not contended, seen by one thread, is its own purge. The other threads may do what they like, and
the orders of the sweeps do not matter.

It is the same argument twice (`exec_part`): the outer loop of a sweep, seen by one thread, makes
that thread's visit and nothing else, and a run makes the thread's operations and nothing else. What
the first rests on is that a visit reads only the newest pair of the result vector it finds
(`sweepThread_frame`).
-/

set_option autoImplicit false

namespace Jbm

open Base

/-! ## A visit leaves the older pairs alone -/

/-- The outcome of an iteration, said behind the pairs `older`. -/
def Iteration.behind (older : List Pair) : Iteration → Iteration
  | .report ret jvmQueue trash => .report (ret ++ older) jvmQueue trash
  | .wait jvmQueue trash => .wait jvmQueue trash

/-- The outcome of a visit, said behind the pairs `older`. -/
def Visit.behind (older : List Pair) (v : Visit) : Visit := { v with ret := v.ret ++ older }

/-- An iteration behind pairs from which nothing is taken over does what it does without them. -/
theorem sweepEvent_frame {o : Overflow} {now : UInt64} {e : BpfEvent} {q : List JvmEvent}
    {ret older : List Pair} (h : ret = [] → takeOver? o older e.timestamp = some false) :
    sweepEvent o now e q (ret ++ older) = (sweepEvent o now e q ret).map (.behind older) := by
  have htake : takeOver? o (ret ++ older) e.timestamp = takeOver? o ret e.timestamp := by
    cases ret with
    | nil => exact h rfl
    | cons p ret => exact takeOver?_congr o p _ _ _
  unfold sweepEvent
  rw [htake]
  cases ht : takeOver? o ret e.timestamp with
  | none => rfl
  | some takes =>
    cases takes with
    | true =>
      obtain ⟨b, j, rest, rfl, _⟩ := takeOver?_eq_true ht
      rfl
    | false =>
      cases findMatchingJvmEvent o e.timestamp q with
      | none => rfl
      | some m =>
        obtain ⟨found, left, trash⟩ := m
        cases found with
        | some j => rfl
        | none =>
          cases left with
          | cons j left => rfl
          | nil =>
            cases givesUp o now e.timestamp with
            | none => rfl
            | some old => cases old <;> rfl

/-- A visit behind pairs from which its first event takes nothing over does what it does without
them. -/
theorem sweepThread_frame {o : Overflow} {now : UInt64} {bpf : List BpfEvent} {q : List JvmEvent}
    {ret older : List Pair}
    (h : ret = [] → ∀ e ∈ bpf.head?, takeOver? o older e.timestamp = some false) :
    sweepThread o now bpf q (ret ++ older) =
      (sweepThread o now bpf q ret).map (.behind older) := by
  induction bpf generalizing q ret with
  | nil => rfl
  | cons e bpf ih =>
    simp only [sweepThread, sweepEvent_frame fun hret => h hret e rfl]
    cases hev : sweepEvent o now e q ret with
    | none => rfl
    | some r =>
      cases r with
      | wait q' trash => rfl
      | report ret' q' trash =>
        -- the iteration has left a pair on top, which alone the rest of the visit reads
        have hne : ret' ≠ [] := by
          rintro rfl
          exact absurd (iterates_of_sweepEvent hev).reported_eq (by simp [reported])
        simp only [Option.map_some, Option.bind_eq_bind, Option.bind_some, Iteration.behind]
        rw [ih fun hnil => absurd hnil hne]
        cases sweepThread o now bpf q' ret' <;> rfl

/-! ## What one thread sees -/

/-- The part of the trash that is about one thread. -/
def trashOf (t : UInt32) (trash : List Trashed) : List Trashed := trash.filter (·.jvm.tid = t)

theorem partOf_append (t : UInt32) (ret ret' : List Pair) :
    partOf t (ret ++ ret') = partOf t ret ++ partOf t ret' := List.filter_append ..

theorem trashOf_append (t : UInt32) (trash trash' : List Trashed) :
    trashOf t (trash ++ trash') = trashOf t trash ++ trashOf t trash' := List.filter_append ..

/-- The outer loop of a sweep as a thread sees it. -/
def SweepLoop.solo (t : UInt32) (l : SweepLoop) : SweepLoop :=
  ⟨l.bpfEvents.only t, l.jvmEvents.only t, partOf t l.ret, trashOf t l.trash⟩

/-- A stream as a thread sees it, `eventCount` of its events having been added. -/
def EventStream.solo (t : UInt32) (eventCount : UInt64) (s : EventStream) : EventStream :=
  ⟨s.bpfEvents.only t, eventCount, s.jvmEvents.only t⟩

/-- A stream and its past as a thread sees them. -/
def History.solo (t : UInt32) (s : History) : History where
  stream := s.stream.solo t (UInt64.ofNat (s.added.filter (·.2.tid = t)).length)
  added := s.added.filter (·.2.tid = t)
  filed := s.filed.filter (·.tid = t)
  returned := partOf t s.returned
  trashed := trashOf t s.trashed

/-- The decoder that accepts what is about one thread. -/
def decodeOf (t : UInt32) (decode : List Char → Option JvmEvent) (line : List Char) :
    Option JvmEvent := (decode line).filter (·.tid = t)

/-- What a thread sees of an operation, if anything: its own blocks, every read, and of a sweep its
own visit. -/
def Op.solo (t : UInt32) : Op → Option Op
  | .add host event => if event.pid = t then some (.add host event) else none
  | .fill text => some (.fill text)
  | .sweep now order => some (.sweep now (order.filter (· = t)))

theorem eventsOf_decodeOf (t : UInt32) (decode : List Char → Option JvmEvent) (text : List Char) :
    eventsOf (decodeOf t decode) text = (eventsOf decode text).filter (·.tid = t) := by
  unfold eventsOf
  rw [List.filter_filterMap]
  rfl

theorem History.solo_new (t : UInt32) : History.new.solo t = .new := by
  unfold History.solo EventStream.solo
  simp [History.new, EventStream.new, partOf, trashOf, Filing.only, Filing.pushAll]

/-! ## The outer loop -/

/-- The visit of `t` is the first, and takes nothing over from the visits before. -/
def SweepLoop.Fresh (o : Overflow) (l : SweepLoop) (t : UInt32) : Prop :=
  partOf t l.ret = [] ∧
    ∀ e ∈ (l.bpfEvents.queue t).head?, takeOver? o l.ret e.timestamp = some false

theorem SweepLoop.ext_queue {l l' : SweepLoop}
    (hbpf : ∀ t, l.bpfEvents.queue t = l'.bpfEvents.queue t)
    (hjvm : ∀ t, l.jvmEvents.queue t = l'.jvmEvents.queue t) (hret : l.ret = l'.ret)
    (htrash : l.trash = l'.trash) : l = l' := by
  cases l
  cases l'
  cases Filing.ext_queue hbpf
  cases Filing.ext_queue hjvm
  cases hret
  cases htrash
  rfl

/-- The visit of a fresh thread: what the thread's own queues yield, put on top of the pairs it
finds. -/
structure OwnVisit (o : Overflow) (now : UInt64) (l : SweepLoop) (t : UInt32) (own : Visit)
    (l' : SweepLoop) : Prop where
  visit : sweepThread o now (l.bpfEvents.queue t) (l.jvmEvents.queue t) [] = some own
  bpf : l'.bpfEvents.queue t = own.bpf
  jvm : l'.jvmEvents.queue t = own.jvm
  ret : l'.ret = own.ret ++ l.ret
  trash : l'.trash = l.trash ++ own.trash
  pairs_tid : ∀ p ∈ own.ret, p.1.tid = t
  trash_tid : ∀ tr ∈ own.trash, tr.jvm.tid = t

theorem SweptTid.own {o : Overflow} {now : UInt64} {l l' : SweepLoop} {t : UInt32}
    (h : SweptTid o now l t l') (hl : l.Fresh o t) : ∃ own, OwnVisit o now l t own l' := by
  obtain ⟨v, hv, hbpf, hjvm, hret, htrash⟩ := h.visit
  rw [← List.nil_append l.ret, sweepThread_frame fun _ => hl.2, Option.map_eq_some_iff] at hv
  obtain ⟨own, hown, rfl⟩ := hv
  have hvisited := visited_of_sweepThread hown
  refine ⟨own, hown, hbpf, hjvm, hret, htrash, fun p hp => ?_, fun tr htr => ?_⟩
  · obtain ⟨popped, hq, hrep⟩ := hvisited.reported_eq
    have hmem : p.1 ∈ (reported own.ret).reverse := by
      simpa [reported] using ⟨p.2, hp⟩
    rw [hrep] at hmem
    exact l.bpfEvents.key_of_mem (hq ▸ List.mem_append_left _ hmem)
  · exact l.jvmEvents.key_of_mem (hvisited.trash_stale tr htr).2.2

/-- A thread that is not visited sees nothing of a visit. -/
theorem SweptTid.solo_of_ne {o : Overflow} {now : UInt64} {l l' : SweepLoop} {u t : UInt32}
    (h : SweptTid o now l u l') (hl : l.Fresh o u) (hne : u ≠ t) : l'.solo t = l.solo t := by
  obtain ⟨own, hown⟩ := h.own hl
  have hret : partOf t own.ret = [] :=
    List.filter_eq_nil_iff.mpr fun p hp => by simpa [hown.pairs_tid p hp] using hne
  have htrash : trashOf t own.trash = [] :=
    List.filter_eq_nil_iff.mpr fun tr htr => by simpa [hown.trash_tid tr htr] using hne
  refine SweepLoop.ext_queue (fun t' => ?_) (fun t' => ?_) ?_ ?_
  · simp only [SweepLoop.solo, Filing.queue_only, h.bpf_other t (Ne.symm hne)]
  · simp only [SweepLoop.solo, Filing.queue_only, h.jvm_other t (Ne.symm hne)]
  · show partOf t l'.ret = partOf t l.ret
    rw [hown.ret, partOf_append, hret, List.nil_append]
  · show trashOf t l'.trash = trashOf t l.trash
    rw [hown.trash, trashOf_append, htrash, List.append_nil]

/-- A thread that is visited sees its visit. -/
theorem SweptTid.solo_self {o : Overflow} {now : UInt64} {l l' : SweepLoop} {t : UInt32}
    (h : SweptTid o now l t l') (hl : l.Fresh o t) (hq : l.bpfEvents.queue t ≠ []) :
    sweepTid o now (l.solo t) t = some (l'.solo t) := by
  obtain ⟨own, hown⟩ := h.own hl
  have hbpfs : (l.solo t).bpfEvents.queue t = l.bpfEvents.queue t := by simp [SweepLoop.solo]
  have hjvms : (l.solo t).jvmEvents.queue t = l.jvmEvents.queue t := by simp [SweepLoop.solo]
  have hvisit : sweepThread o now ((l.solo t).bpfEvents.queue t) ((l.solo t).jvmEvents.queue t)
      (l.solo t).ret = some own := by
    rw [hbpfs, hjvms, show (l.solo t).ret = [] from hl.1]
    exact hown.visit
  obtain ⟨m, hm⟩ := sweepTid_isSome (by rwa [hbpfs]) hvisit
  obtain ⟨⟨v, hv, hbpf, hjvm, hret, htrash⟩, hbpf_other, hjvm_other⟩ := sweptTid_of_sweepTid hm
  rw [hvisit, Option.some.injEq] at hv
  subst hv
  rw [hm, Option.some.injEq]
  refine SweepLoop.ext_queue (fun t' => ?_) (fun t' => ?_) ?_ ?_
  · by_cases ht : t' = t
    · subst ht
      rw [hbpf, ← hown.bpf]
      simp [SweepLoop.solo]
    · rw [hbpf_other t' ht]
      simp [SweepLoop.solo, ht]
  · by_cases ht : t' = t
    · subst ht
      rw [hjvm, ← hown.jvm]
      simp [SweepLoop.solo]
    · rw [hjvm_other t' ht]
      simp [SweepLoop.solo, ht]
  · rw [hret]
    show own.ret = partOf t l'.ret
    rw [hown.ret, partOf_append, hl.1, List.append_nil, eq_comm, partOf, List.filter_eq_self]
    exact fun p hp => decide_eq_true (hown.pairs_tid p hp)
  · rw [htrash]
    show trashOf t l.trash ++ own.trash = trashOf t l'.trash
    rw [hown.trash, trashOf_append]
    congr 1
    rw [eq_comm, trashOf, List.filter_eq_self]
    exact fun tr htr => decide_eq_true (hown.trash_tid tr htr)

/-- Along the outer loop of a sweep of a stream without contention every thread is fresh when it is
visited. -/
theorem QuietLoop.fresh {o : Overflow} {now : UInt64} {s : EventStream} (hs : ¬ s.Contended o now)
    {order done : List UInt32} {l l' : SweepLoop} (hl : QuietLoop o now s done l)
    (hnodup : (done ++ order).Nodup) (hkeys : ∀ t ∈ order, t ∈ s.bpfEvents.keys)
    (h : Base.exec (sweepTid o now) l order = some l') :
    Meets (sweepTid o now) (fun l t => l.Fresh o t ∧ l.bpfEvents.queue t ≠ []) l order := by
  induction order generalizing done l with
  | nil => trivial
  | cons t order ih =>
    obtain ⟨m, hm, hrest⟩ := exec_cons.mp h
    have ht : t ∉ done := fun hmem =>
      (List.nodup_append.mp hnodup).2.2 t hmem t List.mem_cons_self rfl
    have hkey := hkeys t List.mem_cons_self
    have hnext := hl.step hs ht hkey hm
    obtain ⟨hbpf, _⟩ := hl.untouched t ht
    refine .cons ⟨⟨?_, ?_⟩, ?_⟩ hm ?_
    · -- what is reported so far is of the threads visited before
      rw [partOf, List.filter_eq_nil_iff]
      intro p hp
      rw [← List.mem_reverse, hl.ret] at hp
      obtain ⟨u, hu, hp⟩ := List.mem_flatMap.mp hp
      simpa [(EventStream.mem_ownPairs hp).1] using fun heq : u = t => ht (heq ▸ hu)
    · intro e he
      obtain ⟨v, hv, _⟩ := (sweptTid_of_sweepTid hm).visit
      rw [hbpf] at he
      exact (takeOver?_eq hv (hbpf ▸ he)).resolve_left (hl.takeOver?_ne hs ht e he)
    · rw [hbpf]
      exact Filing.mem_keys.mp hkey
    · rw [← List.singleton_append, ← List.append_assoc] at hnodup
      exact ih hnext hnodup (fun t' ht' => hkeys t' (List.mem_cons_of_mem _ ht')) hrest

/-- **A sweep of a stream without contention, seen by one thread**, is the sweep of what that thread
sees of the stream. -/
theorem sweep_solo {o : Overflow} {now : UInt64} {order : List UInt32} {s : EventStream}
    {out : Swept} (hs : ¬ s.Contended o now) (hv : s.bpfEvents.Visits order)
    (h : s.sweep o now order = some out) (t : UInt32) (eventCount : UInt64) :
    (s.solo t eventCount).sweep o now (order.filter (· = t)) =
      some ⟨partOf t out.returned, trashOf t out.trash, out.stream.solo t eventCount⟩ := by
  obtain ⟨l, hl, rfl⟩ := sweep_eq_some.mp h
  have hfresh := (QuietLoop.start o now s).fresh hs (by simpa using hv.1)
    (fun u hu => Filing.mem_keys.mpr ((hv.mem_iff u).mp hu)) hl
  have sim : ∀ (l : SweepLoop) (u : UInt32) (l' : SweepLoop),
      l.Fresh o u ∧ l.bpfEvents.queue u ≠ [] → sweepTid o now l u = some l' →
      exec (sweepTid o now) (l.solo t) (Option.guard (· = t) u).toList = some (l'.solo t) := by
    rintro l u l' ⟨hfresh, hq⟩ hstep
    have hswept := sweptTid_of_sweepTid hstep
    by_cases hu : u = t
    · subst hu
      simpa [Option.guard, exec] using hswept.solo_self hfresh hq
    · simpa [Option.guard, hu] using (hswept.solo_of_ne hfresh hu).symm
  have hloop := exec_part sim hfresh hl
  rw [List.filterMap_eq_filter] at hloop
  refine sweep_eq_some.mpr ⟨_, hloop, ?_⟩
  simp [SweepLoop.solo, EventStream.solo, partOf]

/-! ## The run -/

/-- What a thread sees of its own event being added. -/
theorem EventStream.solo_file {t : UInt32} {e : BpfEvent} (n : UInt64) (s : EventStream)
    (he : e.tid = t) : (s.file e).solo t (n + 1) = (s.solo t n).file e := by
  have hpush := s.bpfEvents.only_pushAll [e] t
  rw [List.filter_cons_of_pos (by simpa using he), List.filter_nil] at hpush
  unfold EventStream.solo EventStream.file
  rw [show s.bpfEvents.push e = s.bpfEvents.pushAll [e] from rfl, hpush]
  rfl

/-- A thread sees nothing of another one's event being added. -/
theorem EventStream.solo_file_of_ne {t : UInt32} {e : BpfEvent} (n : UInt64) (s : EventStream)
    (he : e.tid ≠ t) : (s.file e).solo t n = s.solo t n := by
  have hpush := s.bpfEvents.only_pushAll [e] t
  rw [List.filter_cons_of_neg (by simpa using he), List.filter_nil] at hpush
  unfold EventStream.solo EventStream.file
  rw [show s.bpfEvents.push e = s.bpfEvents.pushAll [e] from rfl, hpush]
  rfl

/-- A thread sees a count that has room whenever the stream's has. -/
theorem History.Counted.solo_countUp {o : Overflow} {s : History} (hs : s.Counted o)
    (h : (s.stream.countUp o).isSome) (t : UInt32) : ((s.solo t).stream.countUp o).isSome := by
  cases o with
  | wrap => exact EventStream.countUp_wrap _
  | abort =>
    obtain ⟨n, hn⟩ := Option.isSome_iff_exists.mp h
    have hlt := lt_of_addU64_abort hn
    rw [hs.toNat] at hlt
    have hle := List.length_filter_le (fun p : BlockEvent × BpfEvent => decide (p.2.tid = t)) s.added
    have hone : (1 : UInt64).toNat = 1 := rfl
    refine EventStream.countUp_of_lt _ ?_
    show (UInt64.ofNat (s.added.filter (·.2.tid = t)).length).toNat + 1 < 2 ^ 64
    rw [UInt64.toNat_ofNat_of_lt' (Nat.lt_of_le_of_lt hle (hs.room rfl))]
    omega

/-- Seen by a thread, an operation is what the thread sees of it. -/
theorem History.Steps.solo {o : Overflow} {decode : List Char → Option JvmEvent} {s s' : History}
    {op : Op} (h : History.Steps o decode s op s') (hs : s.Counted o) (hok : s.Uncontended o op)
    (t : UInt32) :
    exec (History.step o (decodeOf t decode)) (s.solo t) (op.solo t).toList =
      some (s'.solo t) := by
  cases h with
  | @add host event e he hcount =>
    have htid := toBpfEvent_tid he
    by_cases ht : event.pid = t
    · have hstep : History.step o (decodeOf t decode) (s.solo t) (.add host event) = _ :=
        History.step_of_steps (.add he (hs.solo_countUp hcount t))
      have hadded : (s.added ++ [(event, e)]).filter (·.2.tid = t) =
          s.added.filter (·.2.tid = t) ++ [(event, e)] := by simp [htid, ht]
      simp only [Op.solo, if_pos ht, Option.toList_some, exec, hstep, Option.bind_some]
      simp only [History.solo, hadded, List.length_append, List.length_singleton, UInt64.ofNat_add,
        UInt64.reduceOfNat, EventStream.solo_file _ _ (htid.trans ht)]
    · have hadded : (s.added ++ [(event, e)]).filter (·.2.tid = t) =
          s.added.filter (·.2.tid = t) := by simp [htid, ht]
      simp only [Op.solo, if_neg ht, Option.toList_none, exec_nil, History.solo, hadded,
        EventStream.solo_file_of_ne _ _ (htid.trans_ne ht)]
  | @fill text =>
    have hstep : History.step o (decodeOf t decode) (s.solo t) (.fill text) = _ :=
      History.step_of_steps .fill
    simp only [Op.solo, Option.toList_some, exec, hstep, Option.bind_some, eventsOf_decodeOf]
    simp only [History.solo, EventStream.solo, Filing.only_pushAll, List.filter_append]
  | @sweep now order out hv hout =>
    have hsolo := sweep_solo hok hv hout t (UInt64.ofNat (s.added.filter (·.2.tid = t)).length)
    have hstep : History.step o (decodeOf t decode) (s.solo t) (.sweep now _) = _ :=
      History.step_of_steps (.sweep (hv.only t) hsolo)
    simp only [Op.solo, Option.toList_some, exec, hstep, Option.bind_some]
    simp [History.solo, partOf_append, trashOf_append]

/-- **Threads do not interfere over whole runs**: a run whose sweeps are not contended, seen by one
thread, is the run of what that thread sees of the operations, whatever the other threads do and in
whatever order the sweeps visit them. -/
theorem solo_run {o : Overflow} {decode : List Char → Option JvmEvent} {ops : List Op}
    {s : History} (h : History.run o decode ops = some s)
    (hok : Meets (History.step o decode) (History.Uncontended o) .new ops) (t : UInt32) :
    History.run o (decodeOf t decode) (ops.filterMap (Op.solo t)) = some (s.solo t) := by
  have sim : ∀ (s : History) (op : Op) (s' : History), s.Counted o ∧ s.Uncontended o op →
      History.step o decode s op = some s' →
      exec (History.step o (decodeOf t decode)) (s.solo t) (op.solo t).toList =
        some (s'.solo t) :=
    fun s op s' hop hstep => (History.steps_of_step hstep).solo hop.1 hop.2 t
  have hcounted : Meets (History.step o decode) (fun s _ => s.Counted o) .new ops :=
    exec_meets (fun _ _ _ hI hstep => hI.step (History.steps_of_step hstep)) (fun _ _ _ hI _ => hI)
      (History.counted_new o) h
  have hrun := exec_part sim (hcounted.and hok) h
  rwa [History.solo_new] at hrun

/-- Thread 7 of two, whose sweep comes last. -/
theorem solo_run_sampleApart :
    History.run .abort (decodeOf 7 sampleDecode)
        [sampleAdd 7 3, .fill (sampleLine ++ ['\n']), .sweep 10 [7]] =
      some (((History.run .abort sampleDecode (sampleThreads 6 ++ [.sweep 10 [8, 7]])).get
        sampleApart_runs).solo 7) :=
  solo_run (Option.some_get sampleApart_runs).symm (by decide) 7

end Jbm
