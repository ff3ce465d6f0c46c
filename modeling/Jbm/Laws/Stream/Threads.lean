import Jbm.Laws.Stream.Isolation

/-!
# What the threads of one stream see of each other

Two laws that the take-over test breaks across threads, each with the exact condition under which
it holds: no sweep finds the stream contended. The first is about the events of one pair, over
runs; the second compares sweeps of any two states, in any two orders, on the queues of a thread
on which the states agree.
-/

set_option autoImplicit false

namespace Jbm

open Base

/-! ## Pairs -/

/-- The step is no sweep of a contended stream. -/
def History.Uncontended (o : Overflow) (s : History) : Op → Prop
  | .sweep now _ => ¬ s.stream.Contended o now
  | _ => True

instance (o : Overflow) (s : History) (op : Op) : Decidable (s.Uncontended o op) :=
  match op with
  | .sweep now _ => inferInstanceAs (Decidable (¬ s.stream.Contended o now))
  | .add _ _ | .fill _ => .isTrue trivial

/-- The events of a sweep's pairs belong together, when the stream is not contended. -/
theorem sweep_same_thread {o : Overflow} {now : UInt64} {order : List UInt32} {s : EventStream}
    {out : Swept} (hs : ¬ s.Contended o now) (hv : s.bpfEvents.Visits order)
    (h : s.sweep o now order = some out) : ∀ p ∈ out.returned, SameThread p := by
  intro p hp
  rw [(sweep_quiet hs hv h).1] at hp
  obtain ⟨t, _, hp⟩ := List.mem_flatMap.mp hp
  obtain ⟨htid, hjvm⟩ := EventStream.mem_ownPairs hp
  exact fun j hj => (hjvm j hj).trans htid.symm

/-- Whether every order of the threads keeps the events of a pair together depends on contention
alone. -/
theorem sweep_same_thread_iff {o : Overflow} {now : UInt64} {s : EventStream}
    (hret : ∀ order, s.bpfEvents.Visits order → (s.sweep o now order).isSome) :
    (∀ order out, s.bpfEvents.Visits order → s.sweep o now order = some out →
      ∀ p ∈ out.returned, SameThread p) ↔ ¬ s.Contended o now := by
  constructor
  · intro hsame hcont
    obtain ⟨u, rest, hv, hcross⟩ := sweep_contended hcont
    obtain ⟨out, hout⟩ := Option.isSome_iff_exists.mp (hret _ hv)
    obtain ⟨⟨p, hp, hne⟩, _⟩ := hcross out hout
    exact hne (hsame _ out hv hout p hp)
  · exact fun hs _ _ hv h => sweep_same_thread hs hv h

/-- **Same-thread pairing**: in every run that sweeps no contended stream, the JVM event of every
pair returned belongs to the thread of its BPF event. -/
theorem pairs_same_thread {o : Overflow} {decode : List Char → Option JvmEvent} {ops : List Op}
    {s : History} (h : History.run o decode ops = some s)
    (hok : Meets (History.step o decode) (History.Uncontended o) .new ops) :
    ∀ p ∈ s.returned, ∀ j, p.2 = some j → j.tid = p.1.tid := by
  have keep : ∀ (s : History) (op : Op) (s' : History), (∀ p ∈ s.returned, SameThread p) →
      s.Uncontended o op → History.step o decode s op = some s' →
      ∀ p ∈ s'.returned, SameThread p := by
    intro s op s' hs hop hstep
    cases History.steps_of_step hstep with
    | add _ => exact hs
    | fill => exact hs
    | sweep hv hout =>
      intro p hp
      rcases List.mem_append.mp hp with hp | hp
      · exact hs p hp
      · exact sweep_same_thread hop hv hout p hp
  exact exec_invariant keep (by simp [History.new]) hok h

/-- A block of thread 7 with its JVM sample, and a block of thread 8 stamped at `now`. -/
def sampleThreads (now : UInt64) : List Op :=
  [sampleAdd 7 3, .fill (sampleLine ++ ['\n']), sampleAdd 8 now]

/-- Thread 8's block is stamped after the sample. -/
theorem sampleApart_runs :
    (History.run .abort sampleDecode (sampleThreads 6 ++ [.sweep 10 [8, 7]])).isSome := by decide

theorem pairs_same_thread_sampleApart :
    (sampleBpf 7 3, some (sampleJvm 7 5)) ∈ ((History.run .abort sampleDecode
      (sampleThreads 6 ++ [.sweep 10 [8, 7]])).get sampleApart_runs).returned ∧
    (sampleJvm 7 5).tid = (sampleBpf 7 3).tid :=
  ⟨by decide,
    pairs_same_thread (Option.some_get sampleApart_runs).symm (by decide)
      (sampleBpf 7 3, some (sampleJvm 7 5)) (by decide) _ rfl⟩

/-- Thread 8's block is stamped between the two events of thread 7. -/
theorem sampleStraddle_runs :
    (History.run .abort sampleDecode (sampleThreads 4 ++ [.sweep 6 [7, 8]])).isSome := by decide

/-- A sweep that visits thread 7 first hands its sample to thread 8. -/
theorem pairs_cross_threads :
    ¬ ∀ s, History.run .abort sampleDecode (sampleThreads 4 ++ [.sweep 6 [7, 8]]) = some s →
      ∀ p ∈ s.returned, ∀ j, p.2 = some j → j.tid = p.1.tid := by
  intro hall
  have hpair : (sampleBpf 8 4, some (sampleJvm 7 5)) ∈ ((History.run .abort sampleDecode
      (sampleThreads 4 ++ [.sweep 6 [7, 8]])).get sampleStraddle_runs).returned := by decide
  have htid := hall _ (Option.some_get sampleStraddle_runs).symm _ hpair _ rfl
  exact absurd htid (by decide)

/-! ## Two sweeps -/

/-- Two sweeps treat thread `t` alike: they report the same pairs for its BPF events, in the same
order, and leave it the same queues. -/
structure SameFor (t : UInt32) (out out' : Swept) : Prop where
  returned : partOf t out.returned = partOf t out'.returned
  bpf : out.stream.bpfEvents.queue t = out'.stream.bpfEvents.queue t
  jvm : out.stream.jvmEvents.queue t = out'.stream.jvmEvents.queue t

/-- Sweeps of any two of the states, in any two orders, treat alike every thread on whose queues
the states agree; and two sweeps of one state return the same pairs up to their order. -/
def Isolated (o : Overflow) (now : UInt64) (states : Set EventStream) : Prop :=
  ∀ s ∈ states, ∀ s' ∈ states, ∀ order order', ∀ out out',
    s.bpfEvents.Visits order → s'.bpfEvents.Visits order' →
    s.sweep o now order = some out → s'.sweep o now order' = some out' →
    (∀ t, s.bpfEvents.queue t = s'.bpfEvents.queue t →
      s.jvmEvents.queue t = s'.jvmEvents.queue t → SameFor t out out') ∧
    (s = s' → out.returned.Perm out'.returned)

/-- Streams without contention give every thread what its own queues yield. -/
theorem isolated_of_quiet {o : Overflow} {now : UInt64} {states : Set EventStream}
    (hquiet : ∀ s ∈ states, ¬ s.Contended o now) : Isolated o now states := by
  intro s hs s' hs' order order' out out' hv hv' h h'
  obtain ⟨hret, hleft⟩ := sweep_quiet (hquiet s hs) hv h
  obtain ⟨hret', hleft'⟩ := sweep_quiet (hquiet s' hs') hv' h'
  refine ⟨fun t hbpf hjvm => ?_, fun heq => ?_⟩
  · have hown : s.own o now t = s'.own o now t := by
      rw [EventStream.own, hbpf, hjvm, EventStream.own]
    obtain ⟨r, hr, hb, hj⟩ := hleft t
    obtain ⟨r', hr', hb', hj'⟩ := hleft' t
    rw [hown, hr', Option.some.injEq] at hr
    subst hr
    refine ⟨?_, hb.trans hb'.symm, hj.trans hj'.symm⟩
    rw [hret, hret', partOf_flatMap hv t, partOf_flatMap hv' t, EventStream.ownPairs, hown,
      EventStream.ownPairs]
  · subst heq
    rw [hret, hret']
    exact (hv.perm_iff.mp hv').flatMap_right _

/-- Two orders of a contended stream treat some thread differently: the one that visits it first
and robs it, and one that visits it last. -/
theorem not_isolated_of_contended {o : Overflow} {now : UInt64} {s : EventStream}
    (hret : ∀ order, s.bpfEvents.Visits order → ∃ out, s.sweep o now order = some out)
    (hs : s.Contended o now) :
    ∃ u order order' out out', s.bpfEvents.Visits order ∧ s.bpfEvents.Visits order' ∧
      s.sweep o now order = some out ∧ s.sweep o now order' = some out' ∧ ¬ SameFor u out out' := by
  obtain ⟨u, rest, hv, hcross⟩ := sweep_contended hs
  have hv' : s.bpfEvents.Visits (rest ++ [u]) :=
    hv.perm_iff.mpr (List.perm_append_singleton u rest).symm
  obtain ⟨out, hout⟩ := hret _ hv
  obtain ⟨out', hout'⟩ := hret _ hv'
  refine ⟨u, _, _, out, out', hv, hv', hout, hout', fun hsame => ?_⟩
  obtain ⟨_, hne, hown⟩ := hcross out hout
  rcases sweep_last (List.nodup_cons.mp hv.1).1 hout' with hlast | ⟨p, hp, hforeign⟩
  · exact hne (hsame.returned.trans hlast)
  · rw [← hsame.returned] at hp
    exact hforeign (hown p hp)

/-- **Threads do not interfere in a sweep**, for any set of states whose sweeps return, exactly
when none of the states is contended. -/
theorem isolated_iff {o : Overflow} {now : UInt64} {states : Set EventStream}
    (hret : ∀ s ∈ states, ∀ order, s.bpfEvents.Visits order →
      ∃ out, s.sweep o now order = some out) :
    Isolated o now states ↔ ∀ s ∈ states, ¬ s.Contended o now := by
  constructor
  · intro hiso s hs hcont
    obtain ⟨u, order, order', out, out', hv, hv', h, h', hne⟩ :=
      not_isolated_of_contended (hret s hs) hcont
    exact hne ((hiso s hs s hs order order' out out' hv hv' h h').1 u rfl rfl)
  · exact isolated_of_quiet

/-- The stream that `sampleThreads now` leaves, for the stamps the samples use. -/
def sampleStream (now : UInt64)
    (h : (History.run .wrap sampleDecode (sampleThreads now)).isSome := by decide) : EventStream :=
  ((History.run .wrap sampleDecode (sampleThreads now)).get h).stream

/-- Two streams that agree on thread 7. -/
theorem isolated_iff_sampleStream :
    Isolated .wrap 10 {sampleStream 6, sampleStream 8} ↔
      ∀ s ∈ ({sampleStream 6, sampleStream 8} : Set EventStream), ¬ s.Contended .wrap 10 :=
  isolated_iff fun _ _ _ hv => sweep_wrap hv

theorem sampleStream_sweeps : ((sampleStream 4).sweep .abort 6 [7, 8]).isSome ∧
    ((sampleStream 4).sweep .abort 6 [8, 7]).isSome := by decide

/-- Whether thread 7 keeps its sample depends on which thread is visited first. -/
theorem not_isolated_sampleStream : ¬ Isolated .abort 6 {sampleStream 4} := by
  intro hiso
  have hsame := (hiso _ rfl _ rfl [7, 8] [8, 7] _ _ (by decide) (by decide)
    (Option.some_get sampleStream_sweeps.1).symm (Option.some_get sampleStream_sweeps.2).symm).1
  exact absurd (hsame 7 rfl rfl).returned (by decide)

end Jbm
