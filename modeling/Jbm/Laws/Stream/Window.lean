import Jbm.Base.Trail
import Jbm.Laws.Stream.Delivery
import Jbm.Laws.Stream.Exact

/-!
# The matching window

A JVM event gets attached to a BPF event in two ways: `find_matching_jvm_event` finds it, or a
take-over moves it on from the event it was attached to before. Only the first way looks at the
one second a match may be late. The take-over test compares distances, and so keeps the JVM event
inside the window of every BPF event it passes through.

`History.attachments` is what a run attaches, in order, and `Reached` is the way a JVM event took
through it.
-/

set_option autoImplicit false

namespace Jbm

open Base

/-- How far, in ms, the JVM event lies behind the BPF event. -/
def lag (b : BpfEvent) (j : JvmEvent) : Int := (j.timestamp.toNat : Int) - b.timestamp.toNat

/-- The JVM event lies in the matching window of the BPF event. -/
def InWindow (b : BpfEvent) (j : JvmEvent) : Prop := 0 ≤ lag b j ∧ lag b j < 1000

/-! ## What a run attaches -/

/-- A JVM event is attached to a BPF event. -/
inductive Attachment
  /-- `find_matching_jvm_event` finds it -/
  | found (b : BpfEvent) (j : JvmEvent)
  /-- it is taken over, and leaves the event it was attached to -/
  | moved (source target : BpfEvent) (j : JvmEvent)

/-- What an iteration of the inner loop attaches to the front event. -/
def eventAttachments (o : Overflow) (e : BpfEvent) (q : List JvmEvent) (ret : List Pair) :
    List Attachment :=
  match ret, takeOver? o ret e.timestamp with
  | (b, some j) :: _, some true => [.moved b e j]
  | _, some false => ((findMatchingJvmEvent o e.timestamp q).bind Matching.found).toList.map (.found e)
  | _, _ => []

/-- What the visit of a thread attaches. -/
def visitAttachments (o : Overflow) (now : UInt64) :
    List BpfEvent → List JvmEvent → List Pair → List Attachment
  | [], _, _ => []
  | e :: bpf, q, ret => eventAttachments o e q ret ++
    match sweepEvent o now e q ret with
    | some (.report ret' q' _) => visitAttachments o now bpf q' ret'
    | _ => []

/-- What a sweep attaches. -/
def EventStream.attachments (o : Overflow) (now : UInt64) (order : List UInt32)
    (s : EventStream) : List Attachment :=
  trail (sweepTid o now)
    (fun l tid => visitAttachments o now (l.bpfEvents.queue tid) (l.jvmEvents.queue tid) l.ret)
    ⟨s.bpfEvents, s.jvmEvents, [], []⟩ order

/-- What one operation on a stream attaches. -/
def History.opAttachments (o : Overflow) (s : History) : Op → List Attachment
  | .sweep now order => s.stream.attachments o now order
  | _ => []

/-- What a run attaches. -/
def History.attachments (o : Overflow) (decode : List Char → Option JvmEvent) (ops : List Op) :
    List Attachment :=
  trail (History.step o decode) (History.opAttachments o) .new ops

/-- The way of a JVM event through the attachments on record: the BPF events it was attached to,
the latest first. -/
inductive Reached (record : List Attachment) (j : JvmEvent) : List BpfEvent → Prop
  | found {b : BpfEvent} : .found b j ∈ record → Reached record j [b]
  | moved {b e : BpfEvent} {before : List BpfEvent} :
      Reached record j (b :: before) → .moved b e j ∈ record → Reached record j (e :: b :: before)

/-- The JVM event of a pair has come to its BPF event through the attachments on record. -/
def Traced (record : List Attachment) (p : Pair) : Prop :=
  ∀ j, p.2 = some j → ∃ before, Reached record j (p.1 :: before)

/-! ## One attachment -/

/-- The attachment is inside the window, and closer than what it was moved from. -/
def Attachment.Near : Attachment → Prop
  | .found b j => InWindow b j
  | .moved b e j => InWindow e j ∧ lag e j < lag b j

/-- The pair's JVM event lies inside the window, and both timestamps are below 2^63. -/
def WindowPair (p : Pair) : Prop :=
  ∀ j, p.2 = some j → InWindow p.1 j ∧ Small p.1.timestamp ∧ Small j.timestamp

/-- A found event lies inside the window. -/
theorem window_of_found {o : Overflow} {e : BpfEvent} {q : List JvmEvent} {m : Matching}
    {j : JvmEvent} (he : Small e.timestamp) (hj : Small j.timestamp)
    (hm : findMatchingJvmEvent o e.timestamp q = some m) (hf : m.found = some j) :
    InWindow e j := by
  obtain ⟨d, hd, hlow, hhigh⟩ := (find_spec hm).found j hf
  rw [tsDiff, subI64_signed o hj he, Option.some.injEq] at hd
  subst hd
  exact ⟨hlow, hhigh⟩

/-- A take-over brings the JVM event closer, and leaves it inside the window. -/
theorem near_of_takesOver {o : Overflow} {b e : BpfEvent} {j : JvmEvent}
    (hwin : InWindow b j) (hj : Small j.timestamp) (he : Small e.timestamp)
    (h : takesOver o b j e.timestamp = some true) : InWindow e j ∧ lag e j < lag b j := by
  unfold InWindow lag at *
  have hle : b.timestamp ≤ j.timestamp := UInt64.le_iff_toNat_le.mpr (by omega)
  rw [takesOver_eq o hj he hle, Option.some.injEq, decide_eq_true_eq, UInt64.lt_iff_toNat_lt,
    UInt64.lt_iff_toNat_lt] at h
  omega

/-- The result vector after an iteration that found it as `ret`. -/
def Iteration.retFrom (ret : List Pair) : Iteration → List Pair
  | .report ret' _ _ => ret'
  | .wait _ _ => ret

/-- What an iteration attaches is near, and it keeps the result vector inside the window. -/
theorem Iterates.window {o : Overflow} {now : UInt64} {e : BpfEvent} {q : List JvmEvent}
    {ret : List Pair} {r : Iteration} (h : Iterates o now e q ret r) (he : Small e.timestamp)
    (hfound : takeOver? o ret e.timestamp = some false → ∀ m j,
      findMatchingJvmEvent o e.timestamp q = some m → m.found = some j → Small j.timestamp)
    (hret : ∀ p ∈ ret, WindowPair p) :
    (∀ a ∈ eventAttachments o e q ret, a.Near) ∧ ∀ p ∈ r.retFrom ret, WindowPair p := by
  have unmatched : ∀ {m : Matching}, takeOver? o ret e.timestamp = some false →
      findMatchingJvmEvent o e.timestamp q = some m → m.found = none →
      eventAttachments o e q ret = [] := by
    intro m hno hm hf
    simp [eventAttachments, hno, hm, hf]
  cases h with
  | @takeOver b j older ht =>
    obtain ⟨hwin, _, hj⟩ := hret _ List.mem_cons_self j rfl
    obtain ⟨hwin', hless⟩ := near_of_takesOver hwin hj he ht
    refine ⟨?_, fun p hp => ?_⟩
    · simp [eventAttachments, takeOver?, ht, Attachment.Near, hwin', hless]
    · rcases List.mem_cons.mp hp with rfl | hp
      · rintro j' ⟨⟩
        exact ⟨hwin', he, hj⟩
      · rcases List.mem_cons.mp hp with rfl | hp
        · rintro j' ⟨⟩
        · exact hret p (List.mem_cons_of_mem _ hp)
  | @matched _ m j hno hm hf =>
    have hj := hfound hno m j hm hf
    have hwin := window_of_found he hj hm hf
    refine ⟨?_, fun p hp => ?_⟩
    · simp [eventAttachments, hno, hm, hf, Attachment.Near, hwin]
    · rcases List.mem_cons.mp hp with rfl | hp
      · rintro j' ⟨⟩
        exact ⟨hwin, he, hj⟩
      · exact hret p hp
  | unmatched hno hm hf _ =>
    refine ⟨?_, fun p hp => ?_⟩
    · rw [unmatched hno hm hf]
      simp
    · rcases List.mem_cons.mp hp with rfl | hp
      · rintro j' ⟨⟩
      · exact hret p hp
  | wait hno hm hf _ _ =>
    refine ⟨?_, hret⟩
    rw [unmatched hno hm hf]
    simp

/-- An iteration keeps every pair traced, when its attachments are on record. -/
theorem Iterates.traced {o : Overflow} {now : UInt64} {e : BpfEvent} {q q' trash : List JvmEvent}
    {ret ret' : List Pair} {record : List Attachment}
    (h : Iterates o now e q ret (.report ret' q' trash))
    (hrecord : eventAttachments o e q ret ⊆ record) (hret : ∀ p ∈ ret, Traced record p) :
    ∀ p ∈ ret', Traced record p := by
  intro p hp
  cases h with
  | @takeOver b j older ht =>
    rcases List.mem_cons.mp hp with rfl | hp
    · rintro j' ⟨⟩
      obtain ⟨before, hreached⟩ := hret _ List.mem_cons_self j rfl
      refine ⟨b :: before, .moved hreached (hrecord ?_)⟩
      simp [eventAttachments, takeOver?, ht]
    · rcases List.mem_cons.mp hp with rfl | hp
      · rintro j' ⟨⟩
      · exact hret p (List.mem_cons_of_mem _ hp)
  | @matched _ m j hno hm hf =>
    rcases List.mem_cons.mp hp with rfl | hp
    · rintro j' ⟨⟩
      refine ⟨[], .found (hrecord ?_)⟩
      simp [eventAttachments, hno, hm, hf]
    · exact hret p hp
  | unmatched _ _ _ _ =>
    rcases List.mem_cons.mp hp with rfl | hp
    · rintro j' ⟨⟩
    · exact hret p hp

/-! ## A visit, a sweep, a run -/

/-- The first iteration of a visit, and what follows it. -/
theorem sweepThread_cons {o : Overflow} {now : UInt64} {e : BpfEvent} {bpf : List BpfEvent}
    {q : List JvmEvent} {ret : List Pair} {v : Visit}
    (h : sweepThread o now (e :: bpf) q ret = some v) :
    (∃ ret' q' trash v', sweepEvent o now e q ret = some (.report ret' q' trash) ∧
      sweepThread o now bpf q' ret' = some v' ∧
      v = { v' with trash := trash.map (⟨e :: bpf, ·⟩) ++ v'.trash }) ∨
    ∃ q' trash, sweepEvent o now e q ret = some (.wait q' trash) ∧
      v = ⟨e :: bpf, q', ret, trash.map (⟨e :: bpf, ·⟩)⟩ := by
  simp only [sweepThread, Option.bind_eq_bind, Option.bind_eq_some_iff] at h
  obtain ⟨r, hr, h⟩ := h
  cases r with
  | report ret' q' trash =>
    obtain ⟨v', hv', h⟩ := Option.bind_eq_some_iff.mp h
    cases h
    exact .inl ⟨ret', q', trash, v', hr, hv', rfl⟩
  | wait q' trash =>
    cases h
    exact .inr ⟨q', trash, hr, rfl⟩

/-- What the matching finds in a queue lies in the queue. -/
theorem found_mem {o : Overflow} {timestamp : UInt64} {q : List JvmEvent} {m : Matching}
    {j : JvmEvent} (hm : findMatchingJvmEvent o timestamp q = some m) (hf : m.found = some j) :
    j ∈ q := by
  rw [(find_spec hm).split, hf]
  simp

theorem visit_window {o : Overflow} {now : UInt64} {bpf : List BpfEvent} {q : List JvmEvent}
    {ret : List Pair} {v : Visit} (h : sweepThread o now bpf q ret = some v)
    (hbpf : ∀ b ∈ bpf, Small b.timestamp) (hq : ∀ j ∈ q, Small j.timestamp)
    (hret : ∀ p ∈ ret, WindowPair p) :
    (∀ a ∈ visitAttachments o now bpf q ret, a.Near) ∧ ∀ p ∈ v.ret, WindowPair p := by
  induction bpf generalizing q ret v with
  | nil =>
    cases h
    exact ⟨by simp [visitAttachments], hret⟩
  | cons e bpf ih =>
    have hfound : takeOver? o ret e.timestamp = some false → ∀ m j,
        findMatchingJvmEvent o e.timestamp q = some m → m.found = some j → Small j.timestamp :=
      fun _ m j hm hf => hq j (found_mem hm hf)
    rcases sweepThread_cons h with ⟨ret', q', trash, v', hev, hv', rfl⟩ | ⟨q', trash, hev, rfl⟩
    · have hit := iterates_of_sweepEvent hev
      obtain ⟨hnear, hret'⟩ := hit.window (hbpf e List.mem_cons_self) hfound hret
      obtain ⟨hnears, hrets⟩ := ih hv' (fun b hb => hbpf b (List.mem_cons_of_mem _ hb))
        (fun j hj => hq j (hit.jvm_suffix.subset hj)) hret'
      rw [visitAttachments, hev]
      refine ⟨fun a ha => ?_, hrets⟩
      rcases List.mem_append.mp ha with ha | ha
      · exact hnear a ha
      · exact hnears a ha
    · have hit := iterates_of_sweepEvent hev
      obtain ⟨hnear, _⟩ := hit.window (hbpf e List.mem_cons_self) hfound hret
      rw [visitAttachments, hev, List.append_nil]
      exact ⟨hnear, hret⟩

theorem visit_traced {o : Overflow} {now : UInt64} {bpf : List BpfEvent} {q : List JvmEvent}
    {ret : List Pair} {v : Visit} {record : List Attachment}
    (h : sweepThread o now bpf q ret = some v)
    (hrecord : visitAttachments o now bpf q ret ⊆ record) (hret : ∀ p ∈ ret, Traced record p) :
    ∀ p ∈ v.ret, Traced record p := by
  induction bpf generalizing q ret v with
  | nil =>
    cases h
    exact hret
  | cons e bpf ih =>
    rcases sweepThread_cons h with ⟨ret', q', trash, v', hev, hv', rfl⟩ | ⟨q', trash, hev, rfl⟩
    · rw [visitAttachments, hev, List.append_subset] at hrecord
      have hrets := ih hv' hrecord.2 ((iterates_of_sweepEvent hev).traced hrecord.1 hret)
      exact hrets
    · exact hret

/-- A sweep of a stream with timestamps below 2^63 attaches and returns nothing outside the
window. -/
theorem sweep_window {o : Overflow} {now : UInt64} {order : List UInt32} {s : EventStream}
    {out : Swept} (hbpf : ∀ t, ∀ b ∈ s.bpfEvents.queue t, Small b.timestamp)
    (hjvm : ∀ t, ∀ j ∈ s.jvmEvents.queue t, Small j.timestamp)
    (h : s.sweep o now order = some out) :
    ∀ a ∈ s.attachments o now order, a.Near := by
  obtain ⟨l, hl, rfl⟩ := sweep_eq_some.mp h
  let I : SweepLoop → Prop := fun l =>
    (∀ t, l.bpfEvents.queue t <:+ s.bpfEvents.queue t ∧
      l.jvmEvents.queue t <:+ s.jvmEvents.queue t) ∧ ∀ p ∈ l.ret, WindowPair p
  have visit : ∀ l t l', I l → sweepTid o now l t = some l' →
      (∀ a ∈ visitAttachments o now (l.bpfEvents.queue t) (l.jvmEvents.queue t) l.ret, a.Near) ∧
        I l' := by
    intro l t l' hI hstep
    have hswept := sweptTid_of_sweepTid hstep
    obtain ⟨v, hv, _, _, hret, _⟩ := hswept.visit
    obtain ⟨hnear, hwin⟩ := visit_window hv (fun b hb => hbpf t b ((hI.1 t).1.subset hb))
      (fun j hj => hjvm t j ((hI.1 t).2.subset hj)) hI.2
    refine ⟨hnear, fun t' => ?_, by rw [hret]; exact hwin⟩
    obtain ⟨hb, hj⟩ := hswept.suffixes t'
    exact ⟨hb.trans (hI.1 t').1, hj.trans (hI.1 t').2⟩
  have start : I ⟨s.bpfEvents, s.jvmEvents, [], []⟩ :=
    ⟨fun t => ⟨List.suffix_refl _, List.suffix_refl _⟩, by simp⟩
  exact forall_trail (fun l t l' hI _ hstep => (visit l t l' hI hstep).2)
    (fun l t l' hI _ hstep => (visit l t l' hI hstep).1) start (meets_true _ _) hl

/-- Every pair a sweep returns is traced through its attachments. -/
theorem sweep_traced {o : Overflow} {now : UInt64} {order : List UInt32} {s : EventStream}
    {out : Swept} (h : s.sweep o now order = some out) {record : List Attachment}
    (hrecord : s.attachments o now order ⊆ record) : ∀ p ∈ out.returned, Traced record p := by
  obtain ⟨l, hl, rfl⟩ := sweep_eq_some.mp h
  have keep : ∀ (l : SweepLoop) (t : UInt32) (l' : SweepLoop), (∀ p ∈ l.ret, Traced record p) →
      visitAttachments o now (l.bpfEvents.queue t) (l.jvmEvents.queue t) l.ret ⊆ record →
      sweepTid o now l t = some l' → ∀ p ∈ l'.ret, Traced record p := by
    intro l t l' hret hsub hstep
    obtain ⟨v, hv, _, _, hvret, _⟩ := (sweptTid_of_sweepTid hstep).visit
    rw [hvret]
    exact visit_traced hv hsub hret
  intro p hp
  exact exec_with_trail keep (by simp) hrecord hl p (List.mem_reverse.mp hp)

/-- Along its way a JVM event comes strictly closer, and stays inside the window. -/
theorem Reached.closer {record : List Attachment} (hnear : ∀ a ∈ record, a.Near) {j : JvmEvent}
    {way : List BpfEvent} (h : Reached record j way) :
    (∀ b ∈ way, InWindow b j) ∧
      way.Pairwise (fun later earlier => lag later j < lag earlier j) := by
  induction h with
  | @found b ha =>
    have hwin : InWindow b j := hnear _ ha
    refine ⟨fun b' hb' => ?_, List.pairwise_singleton _ _⟩
    rw [List.mem_singleton.mp hb']
    exact hwin
  | @moved b e before _ ha ih =>
    obtain ⟨hwin, hless⟩ := hnear _ ha
    obtain ⟨hwindow, hcloser⟩ := ih
    refine ⟨fun b' hb' => ?_, List.pairwise_cons.mpr ⟨fun b' hb' => ?_, hcloser⟩⟩
    · rcases List.mem_cons.mp hb' with rfl | hb'
      · exact hwin
      · exact hwindow b' hb'
    · rcases List.mem_cons.mp hb' with rfl | hb'
      · exact hless
      · exact hless.trans (List.rel_of_pairwise_cons hcloser hb')

/-- The timestamps of everything that went into the stream are below 2^63. -/
def History.SmallTimes (s : History) : Prop :=
  (∀ b ∈ s.added, Small b.2.timestamp) ∧ ∀ j ∈ s.filed, Small j.timestamp

/-- A step takes nothing back that went in before. -/
theorem History.SmallTimes.back {o : Overflow} {decode : List Char → Option JvmEvent}
    {s s' : History} {op : Op} (h : History.step o decode s op = some s')
    (hs : s'.SmallTimes) : s.SmallTimes := by
  cases History.steps_of_step h with
  | add _ => exact ⟨fun b hb => hs.1 b (List.mem_append_left _ hb), hs.2⟩
  | fill => exact ⟨hs.1, fun j hj => hs.2 j (List.mem_append_left _ hj)⟩
  | sweep _ _ => exact hs

/-- What is queued went in. -/
theorem History.Accounted.small {o : Overflow} {s : History} (hs : s.Accounted o)
    (hsmall : s.SmallTimes) (t : UInt32) :
    (∀ b ∈ s.stream.bpfEvents.queue t, Small b.timestamp) ∧
      ∀ j ∈ s.stream.jvmEvents.queue t, Small j.timestamp := by
  refine ⟨fun b hb => ?_, fun j hj => hsmall.2 j ((hs.queued t).2 hj)⟩
  obtain ⟨p, hp, rfl⟩ := List.mem_map.mp ((hs.queued t).1 hb)
  exact hsmall.1 p hp

/-- What a run with timestamps below 2^63 attaches is near. -/
theorem attachments_near {o : Overflow} {decode : List Char → Option JvmEvent} {ops : List Op}
    {s : History} (h : History.run o decode ops = some s) (hsmall : s.SmallTimes) :
    ∀ a ∈ History.attachments o decode ops, a.Near := by
  refine forall_trail (I := fun s => s.Accounted o)
    (fun s op s' hs _ hstep => hs.steps (History.steps_of_step hstep))
    (fun s op s' hs hok hstep => ?_) (History.accounted_new o)
    (meets_of_back (fun _ _ _ hstep => History.SmallTimes.back hstep) h hsmall) h
  have hqueues := hs.small (History.SmallTimes.back hstep (hok s' hstep))
  cases History.steps_of_step hstep with
  | add _ => simp [History.opAttachments]
  | fill => simp [History.opAttachments]
  | sweep _ hout => exact sweep_window (fun t => (hqueues t).1) (fun t => (hqueues t).2) hout

/-- Every pair a run returns is traced through the run's attachments. -/
theorem returned_traced {o : Overflow} {decode : List Char → Option JvmEvent} {ops : List Op}
    {s : History} (h : History.run o decode ops = some s) :
    ∀ p ∈ s.returned, Traced (History.attachments o decode ops) p := by
  have keep : ∀ (s : History) (op : Op) (s' : History),
      (∀ p ∈ s.returned, Traced (History.attachments o decode ops) p) →
      s.opAttachments o op ⊆ History.attachments o decode ops →
      History.step o decode s op = some s' →
      ∀ p ∈ s'.returned, Traced (History.attachments o decode ops) p := by
    intro s op s' hs hsub hstep
    cases History.steps_of_step hstep with
    | add _ => exact hs
    | fill => exact hs
    | sweep _ hout =>
      intro p hp
      rcases List.mem_append.mp hp with hp | hp
      · exact hs p hp
      · exact sweep_traced hout hsub p hp
  exact exec_with_trail keep (by simp [History.new]) (List.Subset.refl _) h

/-- **The matching window**: in every run with timestamps below 2^63, the JVM event of every pair
returned is less than a second behind its BPF event and not before it, however many take-overs
brought it there; and every take-over on the way brought it strictly closer. -/
theorem matching_window {o : Overflow} {decode : List Char → Option JvmEvent} {ops : List Op}
    {s : History} (h : History.run o decode ops = some s)
    (hbpf : ∀ b ∈ s.added, b.2.timestamp.toNat < 2 ^ 63)
    (hjvm : ∀ j ∈ s.filed, j.timestamp.toNat < 2 ^ 63) :
    (∀ p ∈ s.returned, ∀ j, p.2 = some j → InWindow p.1 j ∧
      ∃ before, Reached (History.attachments o decode ops) j (p.1 :: before)) ∧
    ∀ j way, Reached (History.attachments o decode ops) j way →
      (∀ b ∈ way, InWindow b j) ∧
        way.Pairwise (fun later earlier => lag later j < lag earlier j) := by
  have hnear := attachments_near h ⟨hbpf, hjvm⟩
  refine ⟨fun p hp j hj => ?_, fun j way hway => hway.closer hnear⟩
  obtain ⟨before, hway⟩ := returned_traced h p hp j hj
  exact ⟨(hway.closer hnear).1 p.1 List.mem_cons_self, before, hway⟩

/-- Two blocks of thread 7 before its sample: the second takes the sample over. -/
def sampleChain : List Op :=
  [sampleAdd 7 3, sampleAdd 7 4, .fill (sampleLine ++ ['\n']), .sweep 6 [7]]

theorem sampleChain_runs : (History.run .abort sampleDecode sampleChain).isSome := by decide

theorem matching_window_sampleChain :
    let s := (History.run .abort sampleDecode sampleChain).get sampleChain_runs
    (∀ p ∈ s.returned, ∀ j, p.2 = some j → InWindow p.1 j ∧
      ∃ before, Reached (History.attachments .abort sampleDecode sampleChain) j
        (p.1 :: before)) ∧
    ∀ j way, Reached (History.attachments .abort sampleDecode sampleChain) j way →
      (∀ b ∈ way, InWindow b j) ∧
        way.Pairwise (fun later earlier => lag later j < lag earlier j) :=
  matching_window (Option.some_get sampleChain_runs).symm (by decide) (by decide)

end Jbm
