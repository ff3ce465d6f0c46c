import Jbm.Laws.Stream.Reference
import Jbm.Laws.Stream.Window

/-!
# The sweep of any number of threads, in plain arithmetic

`reference` is the sweep of one thread. With several, the first BPF event of a thread is compared
with the newest pair of the thread visited before: where it lies strictly between the two events of
that pair, the JVM event is handed over. `referenceBehind` says what that amounts to: the thread is
matched as if the JVM event handed over stood at the head of its own queue, and the pair is left
without one. Nothing else passes between threads.

`sweep_eq_references` is the connection: a sweep folds `referenceBehind` over the threads in the
order of the visits.
-/

set_option autoImplicit false

namespace Jbm

open Base

/-- The matcher of one thread's queues behind the pairs `ret` reported before, newest first; so are
the pairs of its outcome. -/
def referenceBehind (now : UInt64) (ret : List Pair) (bpf : List BpfEvent) (jvm : List JvmEvent) :
    Outcome :=
  match ret with
  | (b, some j) :: older =>
    if nextBetween b j bpf then (reference now bpf (j :: jvm)).onto ((b, none) :: older)
    else (reference now bpf jvm).onto ((b, some j) :: older)
  | ret => (reference now bpf jvm).onto ret

/-- The visit of a thread behind the pairs `ret`. -/
def EventStream.visitBehind (now : UInt64) (s : EventStream) (ret : List Pair) (t : UInt32) :
    Outcome := referenceBehind now ret (s.bpfEvents.queue t) (s.jvmEvents.queue t)

/-- The pairs of the threads visited, newest first. -/
def EventStream.pairsBehind (now : UInt64) (s : EventStream) (visited : List UInt32) : List Pair :=
  visited.foldl (fun ret t => (s.visitBehind now ret t).pairs) []

theorem EventStream.pairsBehind_concat (now : UInt64) (s : EventStream) (visited : List UInt32)
    (t : UInt32) : s.pairsBehind now (visited ++ [t]) =
      (s.visitBehind now (s.pairsBehind now visited) t).pairs := by
  simp [EventStream.pairsBehind, List.foldl_append]

/-! ## One visit -/

/-- A pair inside the window is near by the code's own subtraction. -/
theorem WindowPair.near (o : Overflow) {b : BpfEvent} {j : JvmEvent} (h : WindowPair (b, some j)) :
    Near o b j := by
  obtain ⟨⟨hpos, hlt⟩, hb, hj⟩ := h j rfl
  exact ⟨_, subI64_signed o hj hb, hpos, hlt⟩

/-- A visit behind pairs inside the window is the reference behind them. -/
theorem sweepThread_eq_referenceBehind (o : Overflow) {now : UInt64} {bpf : List BpfEvent}
    {jvm : List JvmEvent} {ret : List Pair} (hbpf : ∀ e ∈ bpf, Small e.timestamp)
    (hjvm : ∀ j ∈ jvm, Small j.timestamp) (hclock : ∀ e ∈ bpf, e.timestamp ≤ now)
    (hret : ∀ p ∈ ret, WindowPair p) :
    ∃ v, sweepThread o now bpf jvm ret = some v ∧
      v.toOutcome = referenceBehind now ret bpf jvm := by
  have hplain := lookAhead_eq_reference o hbpf hjvm hclock
  have closed : (∀ e ∈ bpf.head?, takeOver? o ret e.timestamp = some false) →
      ∃ v, sweepThread o now bpf jvm ret = some v ∧
        v.toOutcome = (reference now bpf jvm).onto ret := by
    intro hno
    have hvisit := @sweepThread_eq_lookAhead o now bpf jvm ret hno
    rw [hplain, Option.map_some] at hvisit
    exact Option.map_eq_some_iff.mp hvisit
  match ret with
  | [] => exact closed fun _ _ => rfl
  | (b, none) :: older => exact closed fun _ _ => rfl
  | (b, some j) :: older =>
    have hwindow := hret _ List.mem_cons_self
    obtain ⟨⟨hpos, _⟩, _, hj⟩ := hwindow j rfl
    have hle : b.timestamp ≤ j.timestamp := by
      change 0 ≤ (j.timestamp.toNat : Int) - b.timestamp.toNat at hpos
      exact UInt64.le_iff_toNat_le.mpr (by omega)
    have hvisit := @sweepThread_behind o now bpf jvm b j older (hwindow.near o)
    rw [nextTakes_eq_nextBetween o hbpf hj hle, Option.bind_some, hplain,
      lookAhead_eq_reference o hbpf (List.forall_mem_cons.mpr ⟨hj, hjvm⟩) hclock] at hvisit
    refine Option.map_eq_some_iff.mp (hvisit.trans ?_)
    cases hbetween : nextBetween b j bpf <;> simp [referenceBehind, hbetween]

/-! ## The outer loop -/

/-- The outer loop after the threads `visited`: each of them got what the reference behind those
before it yields, and the others are untouched. -/
structure Handed (now : UInt64) (s : EventStream) (visited : List UInt32) (l : SweepLoop) :
    Prop where
  ret : l.ret = s.pairsBehind now visited
  window : ∀ p ∈ l.ret, WindowPair p
  left : ∀ before t after, visited = before ++ t :: after →
    l.bpfEvents.queue t = (s.visitBehind now (s.pairsBehind now before) t).bpf ∧
      l.jvmEvents.queue t = (s.visitBehind now (s.pairsBehind now before) t).jvm
  untouched : ∀ t, t ∉ visited →
    l.bpfEvents.queue t = s.bpfEvents.queue t ∧ l.jvmEvents.queue t = s.jvmEvents.queue t

theorem Handed.start (now : UInt64) (s : EventStream) :
    Handed now s [] ⟨s.bpfEvents, s.jvmEvents, [], []⟩ where
  ret := rfl
  window := by simp
  left before t after h := by simp at h
  untouched t _ := ⟨rfl, rfl⟩

/-- A thread of a list and what comes before it, when one more thread is visited. -/
theorem split_concat {visited before after : List UInt32} {t u : UInt32}
    (h : visited ++ [t] = before ++ u :: after) :
    (u = t ∧ before = visited) ∨ ∃ after', visited = before ++ u :: after' := by
  rcases List.eq_nil_or_concat after with rfl | ⟨after', v, rfl⟩
  · obtain ⟨hbefore, hlast⟩ := List.append_inj' h rfl
    exact .inl ⟨(List.cons_eq_cons.mp hlast).1.symm, hbefore.symm⟩
  · have hcut : visited ++ [t] = (before ++ u :: after') ++ [v] := by simpa using h
    exact .inr ⟨after', (List.append_inj' hcut rfl).1⟩

theorem Handed.step {o : Overflow} {now : UInt64} {s : EventStream} {visited : List UInt32}
    {l : SweepLoop} {t : UInt32} (h : Handed now s visited l) (ht : t ∉ visited)
    (hq : s.bpfEvents.queue t ≠ []) (hbpf : ∀ b ∈ s.bpfEvents.queue t, Small b.timestamp)
    (hjvm : ∀ j ∈ s.jvmEvents.queue t, Small j.timestamp)
    (hclock : ∀ b ∈ s.bpfEvents.queue t, b.timestamp ≤ now) :
    ∃ l', sweepTid o now l t = some l' ∧ Handed now s (visited ++ [t]) l' := by
  obtain ⟨hbpfs, hjvms⟩ := h.untouched t ht
  obtain ⟨v, hv, hout⟩ := sweepThread_eq_referenceBehind o hbpf hjvm hclock h.window
  obtain ⟨l', hl'⟩ := @sweepTid_isSome o now l t v (by rwa [hbpfs]) (by rwa [hbpfs, hjvms])
  have hswept := sweptTid_of_sweepTid hl'
  obtain ⟨v', hv', hvbpf, hvjvm, hvret, _⟩ := hswept.visit
  rw [hbpfs, hjvms, hv, Option.some.injEq] at hv'
  subst hv'
  rw [h.ret] at hout
  change v.toOutcome = s.visitBehind now (s.pairsBehind now visited) t at hout
  refine ⟨l', hl', ?_, ?_, fun before u after hsplit => ?_, fun u hu => ?_⟩
  · rw [hvret, s.pairsBehind_concat, ← hout]
    rfl
  · rw [hvret]
    exact (visit_window hv hbpf hjvm h.window).2
  · rcases split_concat hsplit with ⟨rfl, rfl⟩ | ⟨after', hbefore⟩
    · rw [hvbpf, hvjvm, ← hout]
      exact ⟨rfl, rfl⟩
    · have hne : u ≠ t := fun heq => ht (by rw [← heq, hbefore]; simp)
      rw [hswept.bpf_other u hne, hswept.jvm_other u hne]
      exact h.left before u after' hbefore
  · rw [List.mem_append, List.mem_singleton, not_or] at hu
    rw [hswept.bpf_other u hu.2, hswept.jvm_other u hu.2]
    exact h.untouched u hu.1

/-- **The sweep of any number of threads**: on timestamps below 2^63 and a clock that is not behind,
a sweep in any order returns what the references of the threads yield, each behind those visited
before it, and leaves each thread what its reference leaves. -/
theorem sweep_eq_references (o : Overflow) {now : UInt64} {order : List UInt32} {s : EventStream}
    (hbpf : ∀ t, ∀ b ∈ s.bpfEvents.queue t, b.timestamp.toNat < 2 ^ 63)
    (hjvm : ∀ t, ∀ j ∈ s.jvmEvents.queue t, j.timestamp.toNat < 2 ^ 63)
    (hclock : ∀ t, ∀ b ∈ s.bpfEvents.queue t, b.timestamp ≤ now)
    (hv : s.bpfEvents.Visits order) :
    ∃ out, s.sweep o now order = some out ∧
      out.returned = (s.pairsBehind now order).reverse ∧
      (∀ before t after, order = before ++ t :: after →
        out.stream.bpfEvents.queue t = (s.visitBehind now (s.pairsBehind now before) t).bpf ∧
          out.stream.jvmEvents.queue t = (s.visitBehind now (s.pairsBehind now before) t).jvm) ∧
      ∀ t, t ∉ order → out.stream.bpfEvents.queue t = [] ∧
        out.stream.jvmEvents.queue t = s.jvmEvents.queue t := by
  have loop : ∀ (order visited : List UInt32) (l : SweepLoop), Handed now s visited l →
      (visited ++ order).Nodup → (∀ t ∈ order, s.bpfEvents.queue t ≠ []) →
      ∃ l', exec (sweepTid o now) l order = some l' ∧ Handed now s (visited ++ order) l' := by
    intro order
    induction order with
    | nil => exact fun visited l h _ _ => ⟨l, rfl, by rwa [List.append_nil]⟩
    | cons t order ih =>
      intro visited l h hnodup hq
      have ht : t ∉ visited := fun hmem =>
        (List.nodup_append.mp hnodup).2.2 t hmem t List.mem_cons_self rfl
      obtain ⟨m, hm, hnext⟩ := @Handed.step o _ _ _ _ _ h ht (hq t List.mem_cons_self) (hbpf t)
        (hjvm t) (hclock t)
      rw [← List.singleton_append, ← List.append_assoc] at hnodup ⊢
      obtain ⟨l', hl', hend⟩ := ih _ m hnext hnodup fun u hu => hq u (List.mem_cons_of_mem _ hu)
      exact ⟨l', exec_cons.mpr ⟨m, hm, hl'⟩, hend⟩
  obtain ⟨l, hl, hend⟩ := loop order [] _ (.start now s) (by simpa using hv.1) fun t ht =>
    (hv.mem_iff t).mp ht
  rw [List.nil_append] at hend
  refine ⟨_, sweep_eq_some.mpr ⟨l, hl, rfl⟩, ?_, hend.left, fun t ht => ?_⟩
  · rw [hend.ret]
  · have hempty : s.bpfEvents.queue t = [] := by
      by_contra hne
      exact ht ((hv.mem_iff t).mpr hne)
    obtain ⟨hb, hj⟩ := hend.untouched t ht
    exact ⟨hb.trans hempty, hj⟩

/-- A block of thread 8 stamped between a block and a sample of thread 7. -/
def sampleHanded : EventStream :=
  ⟨Filing.empty.pushAll [sampleBpf 7 10, sampleBpf 8 20], 2, Filing.empty.pushAll [sampleJvm 7 25]⟩

theorem sampleHanded_bpf {t : UInt32} {b : BpfEvent} (h : b ∈ sampleHanded.bpfEvents.queue t) :
    b = sampleBpf 7 10 ∨ b = sampleBpf 8 20 := by
  have hqueue : sampleHanded.bpfEvents.queue t =
      [] ++ [sampleBpf 7 10, sampleBpf 8 20].filter (·.tid = t) := by
    rw [← Filing.queue_empty t]
    exact Filing.queue_pushAll _ _ t
  rw [hqueue, List.nil_append] at h
  simpa using List.mem_of_mem_filter h

theorem sampleHanded_jvm {t : UInt32} {j : JvmEvent} (h : j ∈ sampleHanded.jvmEvents.queue t) :
    j = sampleJvm 7 25 := by
  have hqueue : sampleHanded.jvmEvents.queue t =
      [] ++ [sampleJvm 7 25].filter (·.tid = t) := by
    rw [← Filing.queue_empty t]
    exact Filing.queue_pushAll _ _ t
  rw [hqueue, List.nil_append] at h
  simpa using List.mem_of_mem_filter h

/-- Visited behind thread 7, thread 8 is handed its sample. -/
theorem sweep_eq_references_sampleHanded :
    ∃ out, sampleHanded.sweep .abort 30 [7, 8] = some out ∧
      out.returned = [(sampleBpf 7 10, none), (sampleBpf 8 20, some (sampleJvm 7 25))] := by
  obtain ⟨out, hout, hret, _⟩ :=
    @sweep_eq_references .abort 30 [7, 8] sampleHanded
      (fun t b hb => by rcases sampleHanded_bpf hb with rfl | rfl <;> decide)
      (fun t j hj => by rw [sampleHanded_jvm hj]; decide)
      (fun t b hb => by rcases sampleHanded_bpf hb with rfl | rfl <;> decide) (by decide)
  exact ⟨out, hout, hret.trans (by decide)⟩

end Jbm
