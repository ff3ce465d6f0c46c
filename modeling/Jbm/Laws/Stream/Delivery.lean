import Jbm.Stream.History

/-!
# Nothing is lost and nothing is doubled

The two conservation laws of an event stream. BPF events: what the sweeps reported of a thread,
followed by what is still queued, is what was added, in order (`bpf_reported_once`). JVM events:
what left a thread's queue is a prefix of its arrivals, and is, event by event, attached to a
reported BPF event or trashed (`jvm_used_at_most_once`).

Both go the same way. One iteration of the inner loop moves the front BPF event to the result
vector and some JVM events to the result vector or to the trash; a visit is iterations, a sweep
is visits, and the two invariants are read at the queues of one thread at a time. A take-over
moves a JVM event between two pairs of the result vector and so changes neither account.
-/

set_option autoImplicit false

namespace Jbm

open Base

/-- The BPF events of a list of pairs. -/
def reported (ret : List Pair) : List BpfEvent := ret.map Prod.fst

/-- The JVM events attached in a list of pairs. -/
def attached (ret : List Pair) : List JvmEvent := ret.filterMap Prod.snd

/-! ## The account of one iteration -/

/-- An iteration that reports adds the front event to the newest end of the result vector. -/
theorem Iterates.reported_eq {o : Overflow} {now : UInt64} {e : BpfEvent}
    {q q' trash : List JvmEvent} {ret ret' : List Pair}
    (h : Iterates o now e q ret (.report ret' q' trash)) :
    reported ret' = e :: reported ret := by
  cases h with
  | takeOver _ => rfl
  | matched _ _ _ => rfl
  | unmatched _ _ _ _ => rfl

/-- What an iteration removes from the JVM queue it attaches or trashes. -/
theorem Iterates.jvm_account {o : Overflow} {now : UInt64} {e : BpfEvent}
    {q q' trash : List JvmEvent} {ret ret' : List Pair}
    (h : Iterates o now e q ret (.report ret' q' trash)) :
    ∃ gone, q = gone ++ q' ∧ (attached ret ++ gone).Perm (attached ret' ++ trash) := by
  cases h with
  | takeOver _ => exact ⟨[], rfl, by simp [attached]⟩
  | matched _ hm hf =>
    have hs := (find_spec hm).split
    rw [hf] at hs
    refine ⟨_, hs, ?_⟩
    simp only [attached, List.filterMap_cons, Option.toList_some, List.cons_append]
    rw [← List.append_assoc]
    exact List.perm_append_singleton _ _
  | unmatched _ hm hf _ =>
    have hs := (find_spec hm).split
    rw [hf, Option.toList_none, List.append_nil] at hs
    exact ⟨_, hs, by simp [attached]⟩

/-- What an iteration that waits removes from the JVM queue it trashes. -/
theorem Iterates.wait_account {o : Overflow} {now : UInt64} {e : BpfEvent}
    {q q' trash : List JvmEvent} {ret : List Pair}
    (h : Iterates o now e q ret (.wait q' trash)) : q = trash ++ q' := by
  cases h with
  | wait _ hm hf hl _ =>
    have hs := (find_spec hm).split
    rw [hf, Option.toList_none, List.append_nil, hl] at hs
    exact hs

/-- An iteration trashes only events of the JVM queue that lie before the front event. -/
theorem Iterates.trash_before {o : Overflow} {now : UInt64} {e : BpfEvent} {q : List JvmEvent}
    {ret : List Pair} {r : Iteration} (h : Iterates o now e q ret r) :
    ∀ j ∈ (match r with | .report _ _ trash => trash | .wait _ trash => trash),
      j ∈ q ∧ ∃ d, tsDiff o j.timestamp e.timestamp = some d ∧ d < 0 := by
  have key : ∀ {m : Matching}, findMatchingJvmEvent o e.timestamp q = some m →
      ∀ j ∈ m.trash, j ∈ q ∧ ∃ d, tsDiff o j.timestamp e.timestamp = some d ∧ d < 0 := by
    intro m hm j hj
    refine ⟨?_, (find_spec hm).trashed j hj⟩
    rw [(find_spec hm).split]
    exact List.mem_append_left _ (List.mem_append_left _ hj)
  cases h with
  | takeOver _ => simp
  | matched _ hm _ => exact key hm
  | unmatched _ hm _ _ => exact key hm
  | wait _ hm _ _ _ => exact key hm

/-! ## The account of a visit -/

/-- A visit reports a prefix of the BPF queue, in order. -/
theorem Visited.reported_eq {o : Overflow} {now : UInt64} {bpf : List BpfEvent}
    {q : List JvmEvent} {ret : List Pair} {v : Visit} (h : Visited o now bpf q ret v) :
    ∃ popped, bpf = popped ++ v.bpf ∧
      (reported v.ret).reverse = (reported ret).reverse ++ popped := by
  induction h with
  | done _ _ => exact ⟨[], rfl, by simp⟩
  | @report e bpf _ _ _ ret ret' v hit _ ih =>
    obtain ⟨popped, hpop, hrep⟩ := ih
    refine ⟨e :: popped, congrArg _ hpop, ?_⟩
    show (reported v.ret).reverse = _
    rw [hrep, hit.reported_eq, List.reverse_cons, List.append_assoc, List.singleton_append]
  | wait _ => exact ⟨[], rfl, by simp⟩

/-- What a visit removes from the JVM queue it attaches or trashes. -/
theorem Visited.jvm_account {o : Overflow} {now : UInt64} {bpf : List BpfEvent}
    {q : List JvmEvent} {ret : List Pair} {v : Visit} (h : Visited o now bpf q ret v) :
    ∃ gone, q = gone ++ v.jvm ∧
      (attached ret ++ gone).Perm (attached v.ret ++ v.trash.map Trashed.jvm) := by
  have jvms : ∀ (bpf : List BpfEvent) (js : List JvmEvent),
      (js.map (fun j => (⟨bpf, j⟩ : Trashed))).map Trashed.jvm = js := by
    intro bpf js
    rw [List.map_map]
    exact List.map_id js
  induction h with
  | done _ _ => exact ⟨[], rfl, by simp⟩
  | @report e bpf q q' trash ret ret' v hit _ ih =>
    obtain ⟨gone₁, hq, hperm₁⟩ := hit.jvm_account
    obtain ⟨gone₂, hq', hperm₂⟩ := ih
    refine ⟨gone₁ ++ gone₂, by rw [List.append_assoc, ← hq']; exact hq, ?_⟩
    show (attached ret ++ (gone₁ ++ gone₂)).Perm
      (attached v.ret ++ (trash.map (fun j => (⟨e :: bpf, j⟩ : Trashed)) ++ v.trash).map Trashed.jvm)
    rw [List.map_append, jvms, ← List.append_assoc]
    have first : (attached ret ++ gone₁ ++ gone₂).Perm (trash ++ (attached ret' ++ gone₂)) := by
      rw [← List.append_assoc]
      exact (hperm₁.trans List.perm_append_comm).append_right _
    have second : (trash ++ (attached v.ret ++ v.trash.map Trashed.jvm)).Perm
        (attached v.ret ++ (trash ++ v.trash.map Trashed.jvm)) := by
      rw [← List.append_assoc, ← List.append_assoc]
      exact List.perm_append_comm.append_right _
    exact first.trans ((hperm₂.append_left _).trans second)
  | @wait e bpf q q' trash ret hit =>
    exact ⟨trash, hit.wait_account, by rw [jvms]⟩

/-- What makes a trashed event too old: the BPF queue it was trashed against has a front, and the
event lies before that front. -/
def Trashed.Stale (o : Overflow) (tr : Trashed) : Prop :=
  ∃ front behind d, tr.queue = front :: behind ∧
    tsDiff o tr.jvm.timestamp front.timestamp = some d ∧ d < 0

/-- Every event a visit trashes was in the JVM queue, against what was left of the BPF queue, and
is stale. -/
theorem Visited.trash_stale {o : Overflow} {now : UInt64} {bpf : List BpfEvent}
    {q : List JvmEvent} {ret : List Pair} {v : Visit} (h : Visited o now bpf q ret v) :
    ∀ tr ∈ v.trash, tr.Stale o ∧ tr.queue <:+ bpf ∧ tr.jvm ∈ q := by
  induction h with
  | done _ _ => simp
  | @report e bpf q q' trash ret ret' v hit _ ih =>
    intro tr htr
    rcases List.mem_append.mp htr with htr | htr
    · obtain ⟨j, hj, rfl⟩ := List.mem_map.mp htr
      obtain ⟨hmem, d, hd, hneg⟩ := hit.trash_before j hj
      exact ⟨⟨e, bpf, d, rfl, hd, hneg⟩, List.suffix_refl _, hmem⟩
    · obtain ⟨hstale, hsuf, hmem⟩ := ih tr htr
      exact ⟨hstale, hsuf.trans (List.suffix_cons _ _), hit.jvm_suffix.subset hmem⟩
  | @wait e bpf q q' trash ret hit =>
    intro tr htr
    obtain ⟨j, hj, rfl⟩ := List.mem_map.mp htr
    obtain ⟨hmem, d, hd, hneg⟩ := hit.trash_before j hj
    exact ⟨⟨e, bpf, d, rfl, hd, hneg⟩, List.suffix_refl _, hmem⟩

/-! ## The account of a sweep, thread by thread -/

/-- The events of a queue all carry its thread's id, so filtering by an id keeps all or none. -/
theorem filter_queue_part {α : Type} {key : α → UInt32} (m : Filing key) {tid t : UInt32}
    {part : List α} (h : part ⊆ m.queue tid) :
    part.filter (key · = t) = if t = tid then part else [] := by
  by_cases ht : t = tid
  · subst ht
    rw [if_pos rfl, List.filter_eq_self]
    exact fun a ha => decide_eq_true (m.key_of_mem (h ha))
  · rw [if_neg ht, List.filter_eq_nil_iff]
    intro a ha
    rw [m.key_of_mem (h ha)]
    simpa using Ne.symm ht

/-- A visit keeps, for every thread, what was reported of it followed by what is queued. -/
theorem SweptTid.reported_eq {o : Overflow} {now : UInt64} {s s' : SweepLoop} {tid : UInt32}
    (h : SweptTid o now s tid s') (t : UInt32) :
    (reported s'.ret).reverse.filter (·.tid = t) ++ s'.bpfEvents.queue t =
      (reported s.ret).reverse.filter (·.tid = t) ++ s.bpfEvents.queue t := by
  obtain ⟨v, hv, hbpf, _, hret, _⟩ := h.visit
  obtain ⟨popped, hpop, hrep⟩ := (visited_of_sweepThread hv).reported_eq
  have hpart : popped ⊆ s.bpfEvents.queue tid := by
    rw [hpop]
    exact List.subset_append_left _ _
  rw [hret, hrep, List.filter_append, filter_queue_part s.bpfEvents hpart, List.append_assoc]
  by_cases ht : t = tid
  · subst ht
    rw [if_pos rfl, hbpf, ← hpop]
  · rw [if_neg ht, h.bpf_other t ht, List.nil_append]

/-- The JVM events of a thread that a loop state has attached or trashed. -/
def SweepLoop.usedOf (s : SweepLoop) (t : UInt32) : List JvmEvent :=
  (attached s.ret ++ s.trash.map Trashed.jvm).filter (·.tid = t)

/-- What a visit removes from a thread's JVM queue, a prefix, it attaches or trashes. -/
theorem SweptTid.jvm_account {o : Overflow} {now : UInt64} {s s' : SweepLoop} {tid : UInt32}
    (h : SweptTid o now s tid s') (t : UInt32) :
    ∃ gone, s.jvmEvents.queue t = gone ++ s'.jvmEvents.queue t ∧
      (s.usedOf t ++ gone).Perm (s'.usedOf t) := by
  obtain ⟨v, hv, _, hjvm, hret, htrash⟩ := h.visit
  obtain ⟨gone, hq, hperm⟩ := (visited_of_sweepThread hv).jvm_account
  have hpart : gone ⊆ s.jvmEvents.queue tid := by
    rw [hq]
    exact List.subset_append_left _ _
  have hused : (s.usedOf t ++ gone.filter (·.tid = t)).Perm (s'.usedOf t) := by
    unfold SweepLoop.usedOf
    rw [hret, htrash, ← List.filter_append, List.map_append]
    refine List.Perm.filter _ ?_
    have first : (attached s.ret ++ s.trash.map Trashed.jvm ++ gone).Perm
        (attached s.ret ++ gone ++ s.trash.map Trashed.jvm) := by
      rw [List.append_assoc, List.append_assoc]
      exact List.perm_append_comm.append_left _
    have second : (attached v.ret ++ v.trash.map Trashed.jvm ++ s.trash.map Trashed.jvm).Perm
        (attached v.ret ++ (s.trash.map Trashed.jvm ++ v.trash.map Trashed.jvm)) := by
      rw [List.append_assoc]
      exact List.perm_append_comm.append_left _
    exact first.trans ((hperm.append_right _).trans second)
  rw [filter_queue_part s.jvmEvents hpart] at hused
  by_cases ht : t = tid
  · subst ht
    rw [if_pos rfl] at hused
    exact ⟨gone, by rw [hjvm]; exact hq, hused⟩
  · rw [if_neg ht] at hused
    exact ⟨[], by rw [h.jvm_other t ht, List.nil_append], hused⟩

/-- A visit leaves a suffix of every queue. -/
theorem SweptTid.suffixes {o : Overflow} {now : UInt64} {s s' : SweepLoop} {tid : UInt32}
    (h : SweptTid o now s tid s') (t : UInt32) :
    s'.bpfEvents.queue t <:+ s.bpfEvents.queue t ∧
      s'.jvmEvents.queue t <:+ s.jvmEvents.queue t := by
  obtain ⟨v, hv, hbpf, hjvm, _, _⟩ := h.visit
  by_cases ht : t = tid
  · subst ht
    rw [hbpf, hjvm]
    exact ⟨(visited_of_sweepThread hv).bpf_suffix, (visited_of_sweepThread hv).jvm_suffix⟩
  · rw [h.bpf_other t ht, h.jvm_other t ht]
    exact ⟨List.suffix_refl _, List.suffix_refl _⟩

/-- The account the outer loop keeps against the stream the sweep started from. -/
structure LoopAccount (o : Overflow) (s : EventStream) (l : SweepLoop) : Prop where
  reported : ∀ t, (reported l.ret).reverse.filter (·.tid = t) ++ l.bpfEvents.queue t =
    s.bpfEvents.queue t
  used : ∀ t, ∃ gone, s.jvmEvents.queue t = gone ++ l.jvmEvents.queue t ∧ gone.Perm (l.usedOf t)
  suffixes : ∀ t, l.bpfEvents.queue t <:+ s.bpfEvents.queue t ∧
    l.jvmEvents.queue t <:+ s.jvmEvents.queue t
  trashed : ∀ tr ∈ l.trash, tr.Stale o ∧
    ∃ t, tr.queue <:+ s.bpfEvents.queue t ∧ tr.jvm ∈ s.jvmEvents.queue t

theorem LoopAccount.start (o : Overflow) (s : EventStream) :
    LoopAccount o s ⟨s.bpfEvents, s.jvmEvents, [], []⟩ where
  reported _ := rfl
  used t := ⟨[], rfl, by simp [SweepLoop.usedOf, attached]⟩
  suffixes _ := ⟨List.suffix_refl _, List.suffix_refl _⟩
  trashed := by simp

theorem LoopAccount.step {o : Overflow} {now : UInt64} {s : EventStream} {l l' : SweepLoop}
    {tid : UInt32} (hl : LoopAccount o s l) (h : sweepTid o now l tid = some l') :
    LoopAccount o s l' := by
  have hswept := sweptTid_of_sweepTid h
  refine ⟨fun t => (hswept.reported_eq t).trans (hl.reported t), fun t => ?_, fun t => ?_, ?_⟩
  · obtain ⟨gone₁, hq₁, hperm₁⟩ := hl.used t
    obtain ⟨gone₂, hq₂, hperm₂⟩ := hswept.jvm_account t
    refine ⟨gone₁ ++ gone₂, by rw [List.append_assoc, ← hq₂]; exact hq₁, ?_⟩
    exact (hperm₁.append_right _).trans hperm₂
  · obtain ⟨hbpf, hjvm⟩ := hswept.suffixes t
    exact ⟨hbpf.trans (hl.suffixes t).1, hjvm.trans (hl.suffixes t).2⟩
  · obtain ⟨v, hv, _, _, _, htr⟩ := hswept.visit
    intro tr hmem
    rw [htr] at hmem
    rcases List.mem_append.mp hmem with hmem | hmem
    · exact hl.trashed tr hmem
    · obtain ⟨hstale, hbpf, hjvm⟩ := (visited_of_sweepThread hv).trash_stale tr hmem
      exact ⟨hstale, tid, hbpf.trans (hl.suffixes tid).1, (hl.suffixes tid).2.subset hjvm⟩

/-- The account of a whole sweep. -/
structure SweepAccount (o : Overflow) (s : EventStream) (out : Swept) : Prop where
  /-- what it reports of a thread is what it removed from the front of its BPF queue -/
  reported : ∀ t, (reported out.returned).filter (·.tid = t) ++ out.stream.bpfEvents.queue t =
    s.bpfEvents.queue t
  /-- what it removed from the front of a thread's JVM queue it attached or trashed -/
  used : ∀ t, ∃ gone, s.jvmEvents.queue t = gone ++ out.stream.jvmEvents.queue t ∧
    gone.Perm ((attached out.returned ++ out.trash.map Trashed.jvm).filter (·.tid = t))
  /-- what it trashed was stale, and was queued for the thread it was trashed against -/
  trashed : ∀ tr ∈ out.trash, tr.Stale o ∧
    ∃ t, tr.queue <:+ s.bpfEvents.queue t ∧ tr.jvm ∈ s.jvmEvents.queue t

theorem sweep_account {o : Overflow} {now : UInt64} {order : List UInt32} {s : EventStream}
    {out : Swept} (h : s.sweep o now order = some out) : SweepAccount o s out := by
  obtain ⟨l, hl, rfl⟩ := sweep_eq_some.mp h
  have hacc : LoopAccount o s l :=
    exec_keeps (fun _ _ _ hI hstep => hI.step hstep) (.start o s) hl
  refine ⟨fun t => ?_, fun t => ?_, hacc.trashed⟩
  · rw [← hacc.reported t]
    simp only [Jbm.reported, List.map_reverse]
  · obtain ⟨gone, hq, hperm⟩ := hacc.used t
    refine ⟨gone, hq, hperm.trans (List.Perm.filter _ ?_)⟩
    refine List.Perm.append_right _ ?_
    exact ((List.reverse_perm l.ret).filterMap Prod.snd).symm

/-! ## The account of a run -/

/-- The BPF events added in a run. -/
def History.addedEvents (s : History) : List BpfEvent := s.added.map Prod.snd

/-- The JVM events a run has attached to a reported BPF event or trashed. -/
def History.used (s : History) : List JvmEvent :=
  attached s.returned ++ s.trashed.map Trashed.jvm

/-- The account of everything that ever went into a stream. -/
structure History.Accounted (o : Overflow) (s : History) : Prop where
  reported : ∀ t, (reported s.returned).filter (·.tid = t) ++ s.stream.bpfEvents.queue t =
    s.addedEvents.filter (·.tid = t)
  used : ∀ t, ∃ gone, s.filed.filter (·.tid = t) = gone ++ s.stream.jvmEvents.queue t ∧
    gone.Perm (s.used.filter (·.tid = t))
  trashed : ∀ tr ∈ s.trashed, tr.Stale o ∧ tr.jvm ∈ s.filed ∧
    ∀ b ∈ tr.queue, b ∈ s.addedEvents ∧ b.tid = tr.jvm.tid

theorem History.accounted_new (o : Overflow) : History.new.Accounted o where
  reported t := by simp [History.new, EventStream.new, History.addedEvents, Jbm.reported]
  used t := ⟨[], by simp [History.new, EventStream.new],
    by simp [History.new, History.used, attached]⟩
  trashed := by simp [History.new]

/-- Everything queued was added or filed. -/
theorem History.Accounted.queued {o : Overflow} {s : History} (h : s.Accounted o) (t : UInt32) :
    s.stream.bpfEvents.queue t ⊆ s.addedEvents ∧ s.stream.jvmEvents.queue t ⊆ s.filed := by
  constructor
  · intro b hb
    have : b ∈ s.addedEvents.filter (·.tid = t) := by
      rw [← h.reported t]
      exact List.mem_append_right _ hb
    exact List.mem_of_mem_filter this
  · intro j hj
    obtain ⟨gone, hq, _⟩ := h.used t
    have : j ∈ s.filed.filter (·.tid = t) := by
      rw [hq]
      exact List.mem_append_right _ hj
    exact List.mem_of_mem_filter this

theorem History.Accounted.steps {o : Overflow} {decode : List Char → Option JvmEvent}
    {s s' : History} {op : Op} (hs : s.Accounted o) (h : History.Steps o decode s op s') :
    s'.Accounted o := by
  cases h with
  | @add host event e he =>
    refine ⟨fun t => ?_, hs.used, fun tr htr => ?_⟩
    · show (Jbm.reported s.returned).filter (·.tid = t) ++ (s.stream.bpfEvents.push e).queue t =
        ((s.added ++ [(event, e)]).map Prod.snd).filter (·.tid = t)
      rw [Filing.queue_push, ← List.append_assoc, hs.reported t, List.map_append,
        List.filter_append]
      rfl
    · obtain ⟨hstale, hjvm, hq⟩ := hs.trashed tr htr
      refine ⟨hstale, hjvm, fun b hb => ⟨?_, (hq b hb).2⟩⟩
      show b ∈ (s.added ++ [(event, e)]).map Prod.snd
      rw [List.map_append]
      exact List.mem_append_left _ (hq b hb).1
  | @fill text =>
    refine ⟨hs.reported, fun t => ?_, fun tr htr => ?_⟩
    · obtain ⟨gone, hq, hperm⟩ := hs.used t
      refine ⟨gone, ?_, hperm⟩
      show (s.filed ++ eventsOf decode text).filter (·.tid = t) =
        gone ++ (s.stream.jvmEvents.pushAll (eventsOf decode text)).queue t
      rw [Filing.queue_pushAll, List.filter_append, hq, List.append_assoc]
    · obtain ⟨hstale, hjvm, hq⟩ := hs.trashed tr htr
      exact ⟨hstale, List.mem_append_left _ hjvm, hq⟩
  | @sweep now order out _ hout =>
    have hacc := sweep_account hout
    refine ⟨fun t => ?_, fun t => ?_, fun tr htr => ?_⟩
    · show (Jbm.reported (s.returned ++ out.returned)).filter (·.tid = t) ++
        out.stream.bpfEvents.queue t = s.addedEvents.filter (·.tid = t)
      rw [Jbm.reported, List.map_append, List.filter_append, List.append_assoc]
      exact (congrArg _ (hacc.reported t)).trans (hs.reported t)
    · obtain ⟨gone₁, hq₁, hperm₁⟩ := hs.used t
      obtain ⟨gone₂, hq₂, hperm₂⟩ := hacc.used t
      refine ⟨gone₁ ++ gone₂, ?_, ?_⟩
      · show s.filed.filter (·.tid = t) = gone₁ ++ gone₂ ++ out.stream.jvmEvents.queue t
        rw [List.append_assoc, ← hq₂]
        exact hq₁
      · refine (hperm₁.append hperm₂).trans ?_
        rw [← List.filter_append]
        refine List.Perm.filter _ ?_
        show (attached s.returned ++ s.trashed.map Trashed.jvm ++
            (attached out.returned ++ out.trash.map Trashed.jvm)).Perm
          (attached (s.returned ++ out.returned) ++ (s.trashed ++ out.trash).map Trashed.jvm)
        rw [attached, attached, attached, List.filterMap_append, List.map_append,
          List.append_assoc, List.append_assoc]
        refine List.Perm.append_left _ ?_
        rw [← List.append_assoc, ← List.append_assoc]
        exact List.perm_append_comm.append_right _
    · rcases List.mem_append.mp htr with htr | htr
      · exact hs.trashed tr htr
      · obtain ⟨hstale, t, hbpf, hjvm⟩ := hacc.trashed tr htr
        have htid := s.stream.jvmEvents.key_of_mem hjvm
        refine ⟨hstale, (hs.queued t).2 hjvm, fun b hb => ⟨(hs.queued t).1 (hbpf.subset hb), ?_⟩⟩
        rw [s.stream.bpfEvents.key_of_mem (hbpf.subset hb), htid]

/-- Every reachable stream is accounted for. -/
theorem History.accounted_of_run {o : Overflow} {decode : List Char → Option JvmEvent}
    {ops : List Op} {s : History} (h : History.run o decode ops = some s) : s.Accounted o :=
  exec_keeps (fun _ _ _ hI hstep => hI.steps (History.steps_of_step hstep))
    (History.accounted_new o) h

/-! ## The two laws -/

/-- **BPF events are reported exactly once and in order**: in every run, what the sweeps have
reported of a thread, followed by what the stream still holds of it, is what was added of it. -/
theorem bpf_reported_once {o : Overflow} {decode : List Char → Option JvmEvent} {ops : List Op}
    {s : History} (h : History.run o decode ops = some s) (tid : UInt32) :
    (s.returned.map Prod.fst).filter (·.tid = tid) ++ s.stream.bpfEvents.queue tid =
      (s.added.map Prod.snd).filter (·.tid = tid) :=
  (History.accounted_of_run h).reported tid

/-- A block of thread 7, its JVM sample, a sweep, and another block. -/
def sampleRun : List Op :=
  [sampleAdd 7 3, .fill (sampleLine ++ ['\n']), .sweep 10 [7], sampleAdd 7 20]

theorem sampleRun_runs : (History.run .abort sampleDecode sampleRun).isSome := by decide

theorem bpf_reported_once_sampleRun :
    let s := (History.run .abort sampleDecode sampleRun).get sampleRun_runs
    (s.returned.map Prod.fst).filter (·.tid = 7) ++ s.stream.bpfEvents.queue 7 =
      (s.added.map Prod.snd).filter (·.tid = 7) :=
  bpf_reported_once (Option.some_get sampleRun_runs).symm 7

/-- Whether `find_matching_jvm_event` can match `j` to `b`. -/
def CanMatch (o : Overflow) (b : BpfEvent) (j : JvmEvent) : Prop :=
  ∃ d, tsDiff o j.timestamp b.timestamp = some d ∧ 0 ≤ d ∧ d < 1000

/-- A stale event lies strictly before the front, and no event behind the front of an ordered
queue can match it either. -/
theorem Trashed.Stale.before {o : Overflow} {tr : Trashed} (h : tr.Stale o)
    (hjvm : tr.jvm.timestamp.toNat < 2 ^ 63)
    (hbpf : ∀ b ∈ tr.queue, b.timestamp.toNat < 2 ^ 63) :
    ∃ front behind, tr.queue = front :: behind ∧ tr.jvm.timestamp < front.timestamp ∧
      (tr.queue.Pairwise (fun a b => a.timestamp ≤ b.timestamp) →
        ∀ b ∈ tr.queue, ¬ CanMatch o b tr.jvm) := by
  obtain ⟨front, behind, d, hq, hd, hneg⟩ := h
  have hfront : front ∈ tr.queue := by
    rw [hq]
    exact List.mem_cons_self
  have hlt : tr.jvm.timestamp.toNat < front.timestamp.toNat := by
    rw [tsDiff, subI64_signed o hjvm (hbpf front hfront), Option.some.injEq] at hd
    omega
  refine ⟨front, behind, hq, UInt64.lt_iff_toNat_lt.mpr hlt, fun hsorted b hb => ?_⟩
  have hle : front.timestamp.toNat ≤ b.timestamp.toNat := by
    rw [hq] at hsorted hb
    rcases List.mem_cons.mp hb with rfl | hb
    · exact Nat.le_refl _
    · exact UInt64.le_iff_toNat_le.mp (List.rel_of_pairwise_cons hsorted hb)
  rintro ⟨d', hd', hpos, _⟩
  rw [tsDiff, subI64_signed o hjvm (hbpf b hb), Option.some.injEq] at hd'
  omega

/-- **Every JVM event is used at most once and disappears only when it is too old.** In every run
with timestamps below 2^63, thread by thread: what has left the JVM queue is a prefix of what was
filed, and is, as a multiset, what is attached to reported BPF events together with what was
trashed. An event was trashed against a BPF queue of its own thread whose front has a strictly
larger timestamp; if that queue was in order, none of its events could have matched it. -/
theorem jvm_used_at_most_once {o : Overflow} {decode : List Char → Option JvmEvent}
    {ops : List Op} {s : History} (h : History.run o decode ops = some s)
    (hbpf : ∀ b ∈ s.added, b.2.timestamp.toNat < 2 ^ 63)
    (hjvm : ∀ j ∈ s.filed, j.timestamp.toNat < 2 ^ 63) :
    (∀ tid, ∃ gone,
      s.filed.filter (·.tid = tid) = gone ++ s.stream.jvmEvents.queue tid ∧
      gone.Perm ((s.returned.filterMap Prod.snd ++ s.trashed.map Trashed.jvm).filter
        (·.tid = tid))) ∧
    ∀ tr ∈ s.trashed, ∃ front behind, tr.queue = front :: behind ∧
      front.tid = tr.jvm.tid ∧ tr.jvm.timestamp < front.timestamp ∧
      (tr.queue.Pairwise (fun a b => a.timestamp ≤ b.timestamp) →
        ∀ b ∈ tr.queue, ¬ CanMatch o b tr.jvm) := by
  have hacc := History.accounted_of_run h
  refine ⟨hacc.used, fun tr htr => ?_⟩
  obtain ⟨hstale, hmem, hqueue⟩ := hacc.trashed tr htr
  have hbound : ∀ b ∈ tr.queue, b.timestamp.toNat < 2 ^ 63 := by
    intro b hb
    obtain ⟨p, hp, rfl⟩ := List.mem_map.mp (hqueue b hb).1
    exact hbpf p hp
  obtain ⟨front, behind, hq, hlt, hrest⟩ := hstale.before (hjvm _ hmem) hbound
  have hfront : front ∈ tr.queue := by
    rw [hq]
    exact List.mem_cons_self
  exact ⟨front, behind, hq, (hqueue front hfront).2, hlt, hrest⟩

/-- A JVM sample of thread 7 that a block of thread 7, stamped later, trashes. -/
def sampleTrash : List Op :=
  [.fill (sampleLine ++ ['\n']), sampleAdd 7 9, .sweep 10 [7]]

theorem sampleTrash_runs : (History.run .abort sampleDecode sampleTrash).isSome := by decide

theorem jvm_used_at_most_once_sampleTrash :
    let s := (History.run .abort sampleDecode sampleTrash).get sampleTrash_runs
    (∀ tid, ∃ gone,
      s.filed.filter (·.tid = tid) = gone ++ s.stream.jvmEvents.queue tid ∧
      gone.Perm ((s.returned.filterMap Prod.snd ++ s.trashed.map Trashed.jvm).filter
        (·.tid = tid))) ∧
    ∀ tr ∈ s.trashed, ∃ front behind, tr.queue = front :: behind ∧
      front.tid = tr.jvm.tid ∧ tr.jvm.timestamp < front.timestamp ∧
      (tr.queue.Pairwise (fun a b => a.timestamp ≤ b.timestamp) →
        ∀ b ∈ tr.queue, ¬ CanMatch .abort b tr.jvm) :=
  jvm_used_at_most_once (Option.some_get sampleTrash_runs).symm (by decide) (by decide)

end Jbm
