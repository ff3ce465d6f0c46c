import Jbm.Laws.Stream.Delivery
import Jbm.Laws.Stream.LookAhead

/-!
# Threads that share one result vector

The take-over test of `sweep` looks at the newest pair of the result vector, and that pair may
belong to the thread visited before. When the first queued BPF event of a thread lies strictly
between the two events of the last pair another thread's own queues yield, the second thread's
JVM event moves to the first one. `Contended` says that this is the case for some two threads.

It is the only way threads interact. A sweep of a stream that is not contended reports, thread by
thread, what `lookAhead` reports on the thread's own queues (`sweep_quiet`), whatever the order.
A sweep of a contended stream, in an order that visits the two threads first, hands a JVM event
to a foreign thread and takes it from its own (`sweep_contended`).
-/

set_option autoImplicit false

namespace Jbm

open Base

/-- What the look-ahead matcher answers on the queues of one thread. -/
def EventStream.own (o : Overflow) (now : UInt64) (s : EventStream) (t : UInt32) :
    Option Outcome :=
  lookAhead o now (s.bpfEvents.queue t) (s.jvmEvents.queue t)

/-- The pairs it reports, none when a subtraction stops it. -/
def EventStream.ownPairs (o : Overflow) (now : UInt64) (s : EventStream) (t : UInt32) :
    List Pair :=
  ((s.own o now t).map Outcome.pairs).getD []

/-- The oldest queued BPF event of `t` passes the take-over test on the last pair of `u`'s own
queues. -/
def EventStream.Straddles (o : Overflow) (now : UInt64) (s : EventStream) (u t : UInt32) : Prop :=
  ∃ e ∈ (s.bpfEvents.queue t).head?,
    takeOver? o (s.ownPairs o now u).reverse e.timestamp = some true

/-- `ownPairs` where the matcher answers. -/
theorem EventStream.ownPairs_eq {o : Overflow} {now : UInt64} {s : EventStream} {t : UInt32}
    {r : Outcome} (h : s.own o now t = some r) : s.ownPairs o now t = r.pairs := by
  rw [EventStream.ownPairs, h]
  rfl

/-- Some thread straddles another one. -/
def EventStream.Contended (o : Overflow) (now : UInt64) (s : EventStream) : Prop :=
  ∃ u ∈ s.bpfEvents.keys, ∃ t ∈ s.bpfEvents.keys, u ≠ t ∧ s.Straddles o now u t

instance (o : Overflow) (now : UInt64) (s : EventStream) (u t : UInt32) :
    Decidable (s.Straddles o now u t) :=
  inferInstanceAs (Decidable (∃ e ∈ (s.bpfEvents.queue t).head?, _))

instance (o : Overflow) (now : UInt64) (s : EventStream) : Decidable (s.Contended o now) :=
  inferInstanceAs (Decidable (∃ u ∈ s.bpfEvents.keys, ∃ t ∈ s.bpfEvents.keys, _))

/-- A pair holds no JVM event of another thread. -/
def SameThread (p : Pair) : Prop := ∀ j, p.2 = some j → j.tid = p.1.tid

/-- Both events of a pair of `t`'s own queues are `t`'s. -/
theorem EventStream.mem_ownPairs {o : Overflow} {now : UInt64} {s : EventStream} {t : UInt32}
    {p : Pair} (h : p ∈ s.ownPairs o now t) : p.1.tid = t ∧ ∀ j, p.2 = some j → j.tid = t := by
  unfold EventStream.ownPairs at h
  cases hr : s.own o now t with
  | none => rw [hr] at h; simp at h
  | some r =>
    rw [hr] at h
    obtain ⟨hbpf, hjvm⟩ := mem_of_lookAhead hr p h
    exact ⟨s.bpfEvents.key_of_mem hbpf, fun j hj => s.jvmEvents.key_of_mem (hjvm j hj)⟩

/-! ## A sweep without contention -/

/-- The outer loop after the threads `done`: every one of them has got what its own queues yield,
and the others are untouched. -/
structure QuietLoop (o : Overflow) (now : UInt64) (s : EventStream) (done : List UInt32)
    (l : SweepLoop) : Prop where
  ret : l.ret.reverse = done.flatMap (s.ownPairs o now)
  newest : ∀ p older, l.ret = p :: older →
    ∃ u ∈ done, u ∈ s.bpfEvents.keys ∧ (s.ownPairs o now u).getLast? = some p
  finished : ∀ t ∈ done, ∃ r, s.own o now t = some r ∧
    l.bpfEvents.queue t = r.bpf ∧ l.jvmEvents.queue t = r.jvm
  untouched : ∀ t, t ∉ done → l.bpfEvents.queue t = s.bpfEvents.queue t ∧
    l.jvmEvents.queue t = s.jvmEvents.queue t

theorem QuietLoop.start (o : Overflow) (now : UInt64) (s : EventStream) :
    QuietLoop o now s [] ⟨s.bpfEvents, s.jvmEvents, [], []⟩ where
  ret := rfl
  newest := by simp
  finished := by simp
  untouched _ _ := ⟨rfl, rfl⟩

/-- The newest pair of a list that ends in `p`, newest first. -/
theorem reverse_of_getLast? {α : Type} {l : List α} {a : α} (h : l.getLast? = some a) :
    l.reverse = a :: l.dropLast.reverse := by
  obtain ⟨l', rfl⟩ := List.getLast?_eq_some_iff.mp h
  simp

/-- The take-over test reads the newest pair only. -/
theorem takeOver?_congr (o : Overflow) (p : Pair) (older older' : List Pair) (ts : UInt64) :
    takeOver? o (p :: older) ts = takeOver? o (p :: older') ts := by
  obtain ⟨b, x⟩ := p
  cases x <;> rfl

/-- In a stream without contention no visit takes anything over from the threads before. -/
theorem QuietLoop.takeOver?_ne {o : Overflow} {now : UInt64} {s : EventStream}
    {done : List UInt32} {l : SweepLoop} (hl : QuietLoop o now s done l)
    (hs : ¬ s.Contended o now) {t : UInt32} (ht : t ∉ done) :
    ∀ e ∈ (s.bpfEvents.queue t).head?, takeOver? o l.ret e.timestamp ≠ some true := by
  intro e he htake
  cases hret : l.ret with
  | nil => rw [hret] at htake; cases htake
  | cons p older =>
    obtain ⟨u, hu, hkey, hlast⟩ := hl.newest p older hret
    rw [hret, takeOver?_congr o p older (s.ownPairs o now u).dropLast.reverse,
      ← reverse_of_getLast? hlast] at htake
    refine hs ⟨u, hkey, t, ?_, fun h => ht (h ▸ hu), ?_⟩
    · rw [Filing.mem_keys]
      intro hnil
      rw [hnil] at he
      cases he
    · exact ⟨e, he, htake⟩

/-- A visit that returns has passed its first take-over test, one way or the other. -/
theorem takeOver?_eq {o : Overflow} {now : UInt64} {bpf : List BpfEvent}
    {q : List JvmEvent} {ret : List Pair} {v : Visit}
    (h : sweepThread o now bpf q ret = some v) {e : BpfEvent} (he : e ∈ bpf.head?) :
    takeOver? o ret e.timestamp = some true ∨ takeOver? o ret e.timestamp = some false := by
  obtain ⟨bpf, rfl⟩ := List.head?_eq_some_iff.mp he
  cases htake : takeOver? o ret e.timestamp with
  | none => simp [sweepThread, sweepEvent, htake] at h
  | some takes => cases takes <;> simp

theorem QuietLoop.step {o : Overflow} {now : UInt64} {s : EventStream} {done : List UInt32}
    {l l' : SweepLoop} {t : UInt32} (hl : QuietLoop o now s done l) (hs : ¬ s.Contended o now)
    (ht : t ∉ done) (hkey : t ∈ s.bpfEvents.keys) (h : sweepTid o now l t = some l') :
    QuietLoop o now s (done ++ [t]) l' := by
  obtain ⟨⟨v, hv, hbpf, hjvm, hret, _⟩, hbpf_other, hjvm_other⟩ := sweptTid_of_sweepTid h
  rw [(hl.untouched t ht).1, (hl.untouched t ht).2] at hv
  have hno : ∀ e ∈ (s.bpfEvents.queue t).head?, takeOver? o l.ret e.timestamp = some false := by
    intro e he
    exact (takeOver?_eq hv he).resolve_left (hl.takeOver?_ne hs ht e he)
  obtain ⟨r, hr, hvret, hvbpf, hvjvm⟩ := lookAhead_of_sweepThread hno hv
  have hpairs := EventStream.ownPairs_eq hr
  refine ⟨?_, fun p older hp => ?_, fun t' ht' => ?_, fun t' ht' => ?_⟩
  · rw [hret, hvret, List.reverse_append, List.reverse_reverse, hl.ret, List.flatMap_append,
      List.flatMap_singleton, hpairs]
  · rw [hret, hvret] at hp
    cases hlast : r.pairs.getLast? with
    | none =>
      -- the thread reported nothing: the newest pair is an older one
      rw [List.getLast?_eq_none_iff.mp hlast, List.reverse_nil, List.nil_append] at hp
      obtain ⟨u, hu, hrest⟩ := hl.newest p older hp
      exact ⟨u, List.mem_append_left _ hu, hrest⟩
    | some p' =>
      rw [reverse_of_getLast? hlast] at hp
      cases hp
      exact ⟨t, List.mem_append_right _ List.mem_cons_self, hkey, by rw [hpairs, hlast]⟩
  · rcases List.mem_append.mp ht' with ht' | ht'
    · have hne : t' ≠ t := fun heq => ht (heq ▸ ht')
      rw [hbpf_other t' hne, hjvm_other t' hne]
      exact hl.finished t' ht'
    · obtain rfl : t' = t := List.mem_singleton.mp ht'
      exact ⟨r, hr, hbpf.trans hvbpf, hjvm.trans hvjvm⟩
  · simp only [List.mem_append, List.mem_singleton, not_or] at ht'
    rw [hbpf_other t' ht'.2, hjvm_other t' ht'.2]
    exact hl.untouched t' ht'.1

theorem QuietLoop.exec {o : Overflow} {now : UInt64} {s : EventStream}
    (hs : ¬ s.Contended o now) {order done : List UInt32} {l l' : SweepLoop}
    (hl : QuietLoop o now s done l) (hnodup : (done ++ order).Nodup)
    (hkeys : ∀ t ∈ order, t ∈ s.bpfEvents.keys)
    (h : Base.exec (sweepTid o now) l order = some l') :
    QuietLoop o now s (done ++ order) l' := by
  induction order generalizing done l with
  | nil =>
    obtain rfl : l = l' := by simpa using h
    simpa using hl
  | cons t order ih =>
    obtain ⟨m, hm, hrest⟩ := exec_cons.mp h
    have ht : t ∉ done := fun hmem =>
      (List.nodup_append.mp hnodup).2.2 t hmem t List.mem_cons_self rfl
    have hnext := hl.step hs ht (hkeys t List.mem_cons_self) hm
    rw [← List.singleton_append, ← List.append_assoc] at hnodup ⊢
    exact ih hnext hnodup (fun t' ht' => hkeys t' (List.mem_cons_of_mem _ ht')) hrest

/-- A sweep of a stream without contention reports, in the order of the visits, what each
thread's own queues yield, and leaves each thread what that leaves. -/
theorem sweep_quiet {o : Overflow} {now : UInt64} {order : List UInt32} {s : EventStream}
    {out : Swept} (hs : ¬ s.Contended o now) (hv : s.bpfEvents.Visits order)
    (h : s.sweep o now order = some out) :
    out.returned = order.flatMap (s.ownPairs o now) ∧
    ∀ t, ∃ r, s.own o now t = some r ∧
      out.stream.bpfEvents.queue t = r.bpf ∧ out.stream.jvmEvents.queue t = r.jvm := by
  obtain ⟨l, hl, rfl⟩ := sweep_eq_some.mp h
  have hkeys : ∀ t ∈ order, t ∈ s.bpfEvents.keys := fun t ht =>
    Filing.mem_keys.mpr ((hv.mem_iff t).mp ht)
  have hquiet := (QuietLoop.start o now s).exec hs (by simpa using hv.1) hkeys hl
  rw [List.nil_append] at hquiet
  refine ⟨hquiet.ret, fun t => ?_⟩
  by_cases ht : t ∈ order
  · exact hquiet.finished t ht
  · have hnil : s.bpfEvents.queue t = [] := by
      by_contra hne
      exact ht ((hv.mem_iff t).mpr hne)
    obtain ⟨hbpf, hjvm⟩ := hquiet.untouched t ht
    refine ⟨⟨[], [], s.jvmEvents.queue t⟩, ?_, hbpf.trans hnil, hjvm⟩
    simp [EventStream.own, hnil, lookAhead]

/-- The part of a report that is about one thread. -/
def partOf (t : UInt32) (ret : List Pair) : List Pair := ret.filter (·.1.tid = t)

/-- Of what the threads' own queues yield, a thread's part is its own. -/
theorem partOf_flatMap {o : Overflow} {now : UInt64} {s : EventStream} {order : List UInt32}
    (hv : s.bpfEvents.Visits order) (t : UInt32) :
    partOf t (order.flatMap (s.ownPairs o now)) = s.ownPairs o now t := by
  have hpart : ∀ u, partOf t (s.ownPairs o now u) = if u = t then s.ownPairs o now t else [] := by
    intro u
    by_cases hu : u = t
    · subst hu
      rw [if_pos rfl, partOf, List.filter_eq_self]
      exact fun p hp => decide_eq_true (EventStream.mem_ownPairs hp).1
    · rw [if_neg hu, partOf, List.filter_eq_nil_iff]
      intro p hp
      simpa [(EventStream.mem_ownPairs hp).1] using hu
  have hall : ∀ (l : List UInt32), l.Nodup → partOf t (l.flatMap (s.ownPairs o now)) =
      if t ∈ l then s.ownPairs o now t else [] := by
    intro l
    induction l with
    | nil => intro _; rfl
    | cons u l ih =>
      intro hn
      obtain ⟨hu, hn⟩ := List.nodup_cons.mp hn
      rw [List.flatMap_cons, partOf, List.filter_append]
      change partOf t _ ++ partOf t _ = _
      rw [hpart, ih hn]
      by_cases hut : u = t
      · subst hut
        simp [hu]
      · simp [hut, Ne.symm hut]
  rw [hall order hv.1]
  by_cases ht : t ∈ order
  · rw [if_pos ht]
  · rw [if_neg ht]
    have hnil : s.bpfEvents.queue t = [] := by
      by_contra hne
      exact ht ((hv.mem_iff t).mpr hne)
    simp [EventStream.ownPairs, EventStream.own, hnil, lookAhead]

/-! ## A sweep with contention -/

/-- Thread `u`'s last pair has lost its JVM event to the pairs above it, which belong to other
threads. -/
def Robbed (u : UInt32) (b : BpfEvent) (older ret : List Pair) : Prop :=
  ∃ top, ret = top ++ (b, none) :: older ∧ (∀ p ∈ top, p.1.tid ≠ u) ∧
    ∃ p ∈ top, ∃ j, p.2 = some j ∧ j.tid = u

/-- The JVM event taken away is attached to a foreign BPF event. -/
theorem Robbed.foreign {u : UInt32} {b : BpfEvent} {older ret : List Pair}
    (h : Robbed u b older ret) : ∃ p ∈ ret, ¬ SameThread p := by
  obtain ⟨top, rfl, hother, p, hp, j, hj, hju⟩ := h
  refine ⟨p, List.mem_append_left _ hp, fun hsame => hother p hp ?_⟩
  exact (hsame j hj).symm.trans hju

/-- What the robbed thread is left with. -/
theorem Robbed.part {u : UInt32} {b : BpfEvent} {older ret : List Pair}
    (h : Robbed u b older ret) (hb : b.tid = u) :
    (partOf u ret.reverse).reverse = (b, none) :: partOf u older := by
  obtain ⟨top, rfl, hother, _⟩ := h
  rw [partOf, List.filter_reverse, List.reverse_reverse, List.filter_append,
    List.filter_eq_nil_iff.mpr (by simpa using hother), List.nil_append, List.filter_cons,
    if_pos (by simpa using hb)]
  rfl

/-- What lies below the newest pair no iteration changes. -/
theorem Iterates.robbed {o : Overflow} {now : UInt64} {e : BpfEvent} {q q' trash : List JvmEvent}
    {ret ret' : List Pair} {u : UInt32} {b : BpfEvent} {older : List Pair}
    (h : Iterates o now e q ret (.report ret' q' trash)) (he : e.tid ≠ u)
    (hr : Robbed u b older ret) : Robbed u b older ret' := by
  obtain ⟨top, rfl, htop, p, hp, j, hj, hju⟩ := hr
  have push : ∀ x, Robbed u b older ((e, x) :: (top ++ (b, none) :: older)) := by
    intro x
    refine ⟨(e, x) :: top, rfl, fun p' hp' => ?_, p, List.mem_cons_of_mem _ hp, j, hj, hju⟩
    rcases List.mem_cons.mp hp' with rfl | hp'
    · exact he
    · exact htop p' hp'
  generalize hret : top ++ (b, none) :: older = ret at h push
  cases h with
  | @takeOver b₁ j₁ older₁ _ =>
    cases top with
    | nil => cases hp
    | cons p₁ top =>
      rw [List.cons_append, List.cons.injEq] at hret
      obtain ⟨rfl, rfl⟩ := hret
      refine ⟨(e, some j₁) :: (b₁, none) :: top, rfl, fun p' hp' => ?_, ?_⟩
      · rcases List.mem_cons.mp hp' with rfl | hp'
        · exact he
        · rcases List.mem_cons.mp hp' with rfl | hp'
          · exact htop (b₁, some j₁) List.mem_cons_self
          · exact htop p' (List.mem_cons_of_mem _ hp')
      · -- the foreign JVM event stays where it is, or moves on to the new pair
        rcases List.mem_cons.mp hp with rfl | hp
        · cases hj
          exact ⟨_, List.mem_cons_self, j, rfl, hju⟩
        · exact ⟨p, List.mem_cons_of_mem _ (List.mem_cons_of_mem _ hp), j, hj, hju⟩
  | matched _ _ _ => exact push _
  | unmatched _ _ _ _ => exact push _

theorem Visited.robbed {o : Overflow} {now : UInt64} {bpf : List BpfEvent} {q : List JvmEvent}
    {ret : List Pair} {v : Visit} {u : UInt32} {b : BpfEvent} {older : List Pair}
    (h : Visited o now bpf q ret v) (hbpf : ∀ e ∈ bpf, e.tid ≠ u) (hr : Robbed u b older ret) :
    Robbed u b older v.ret := by
  induction h with
  | done _ _ => exact hr
  | report hit _ ih =>
    exact ih (fun e he => hbpf e (List.mem_cons_of_mem _ he))
      (hit.robbed (hbpf _ List.mem_cons_self) hr)
  | wait _ => exact hr

theorem robbed_of_exec {o : Overflow} {now : UInt64} {u : UInt32} {b : BpfEvent}
    {older : List Pair} {order : List UInt32} {l l' : SweepLoop} (hu : u ∉ order)
    (hr : Robbed u b older l.ret) (h : exec (sweepTid o now) l order = some l') :
    Robbed u b older l'.ret := by
  induction order generalizing l with
  | nil =>
    obtain rfl : l = l' := by simpa using h
    exact hr
  | cons t order ih =>
    simp only [List.mem_cons, not_or] at hu
    obtain ⟨m, hm, hrest⟩ := exec_cons.mp h
    obtain ⟨⟨v, hv, _, _, hret, _⟩, _, _⟩ := sweptTid_of_sweepTid hm
    have hbpf : ∀ e ∈ l.bpfEvents.queue t, e.tid ≠ u := by
      intro e he
      rw [l.bpfEvents.key_of_mem he]
      exact Ne.symm hu.1
    refine ih hu.2 ?_ hrest
    rw [hret]
    exact (visited_of_sweepThread hv).robbed hbpf hr

/-- A visit whose first event takes the newest JVM event over goes on from the two pairs
changed. -/
theorem Visited.after_takeOver {o : Overflow} {now : UInt64} {e : BpfEvent} {bpf : List BpfEvent}
    {q : List JvmEvent} {b : BpfEvent} {j : JvmEvent} {older : List Pair} {v : Visit}
    (h : Visited o now (e :: bpf) q ((b, some j) :: older) v)
    (htake : takesOver o b j e.timestamp = some true) :
    ∃ v', Visited o now bpf q ((e, some j) :: (b, none) :: older) v' ∧ v.ret = v'.ret := by
  have hno : ¬ takeOver? o ((b, some j) :: older) e.timestamp = some false := by
    show ¬ takesOver o b j e.timestamp = some false
    rw [htake]
    simp
  cases h with
  | report hit hrest =>
    cases hit with
    | takeOver _ => exact ⟨_, hrest, rfl⟩
    | matched hf _ _ => exact absurd hf hno
    | unmatched hf _ _ _ => exact absurd hf hno
  | wait hit =>
    cases hit with
    | wait hf _ _ _ _ => exact absurd hf hno

/-- A visit that begins with a take-over robs the thread of the newest pair. -/
theorem robbed_of_takeOver {o : Overflow} {now : UInt64} {e : BpfEvent} {bpf : List BpfEvent}
    {q : List JvmEvent} {u : UInt32} {b : BpfEvent} {j : JvmEvent} {older : List Pair} {v : Visit}
    (hbpf : ∀ e' ∈ e :: bpf, e'.tid ≠ u) (hj : j.tid = u)
    (htake : takesOver o b j e.timestamp = some true)
    (h : Visited o now (e :: bpf) q ((b, some j) :: older) v) : Robbed u b older v.ret := by
  obtain ⟨v', hrest, hret⟩ := h.after_takeOver htake
  have start : Robbed u b older ((e, some j) :: (b, none) :: older) :=
    ⟨[(e, some j)], rfl, by simpa using hbpf e List.mem_cons_self,
      (e, some j), List.mem_cons_self, j, rfl, hj⟩
  rw [hret]
  exact hrest.robbed (fun e' he' => hbpf e' (List.mem_cons_of_mem _ he')) start

/-- A contended stream has an order in which a sweep takes a thread's JVM event away and hands it
to a foreign thread. The thread robbed is the one visited first, so what it is left with is its
own. -/
theorem sweep_contended {o : Overflow} {now : UInt64} {s : EventStream} (hs : s.Contended o now) :
    ∃ u rest, s.bpfEvents.Visits (u :: rest) ∧ ∀ out, s.sweep o now (u :: rest) = some out →
      (∃ p ∈ out.returned, ¬ SameThread p) ∧
      partOf u out.returned ≠ s.ownPairs o now u ∧
      ∀ p ∈ partOf u out.returned, SameThread p := by
  obtain ⟨u, hu, t, ht, hne, e, he, htake⟩ := hs
  obtain ⟨rest, hv⟩ := s.bpfEvents.exists_visits_prefix [u, t] (by simpa using hne)
    (by simpa using ⟨Filing.mem_keys.mp hu, Filing.mem_keys.mp ht⟩)
  refine ⟨u, t :: rest, hv, fun out hout => ?_⟩
  obtain ⟨b, j, older, hlast, htake⟩ := takeOver?_eq_true htake
  have hown_mem : ∀ p ∈ (b, some j) :: older, p.1.tid = u ∧ ∀ j, p.2 = some j → j.tid = u := by
    intro p hp
    rw [← hlast, List.mem_reverse] at hp
    exact EventStream.mem_ownPairs hp
  obtain ⟨hbu, hju⟩ := hown_mem _ List.mem_cons_self
  have hju : j.tid = u := hju j rfl
  obtain ⟨l, hl, rfl⟩ := sweep_eq_some.mp hout
  obtain ⟨l₁, hl₁, hl⟩ := exec_cons.mp hl
  obtain ⟨l₂, hl₂, hl⟩ := exec_cons.mp hl
  -- the visit of `u`, which starts on an empty result vector
  obtain ⟨⟨v₁, hv₁, _, _, hret₁, _⟩, hbpf₁, _⟩ := sweptTid_of_sweepTid hl₁
  obtain ⟨r, hr, hvret, _, _⟩ := lookAhead_of_sweepThread (fun _ _ => rfl) hv₁
  have hpairs := EventStream.ownPairs_eq hr
  have hnewest : l₁.ret = (b, some j) :: older := by
    rw [hret₁, hvret, List.append_nil, ← hpairs, hlast]
  -- the visit of `t`, whose first event takes over
  obtain ⟨⟨v₂, hv₂, _, _, hret₂, _⟩, _, _⟩ := sweptTid_of_sweepTid hl₂
  have hqueue : l₁.bpfEvents.queue t = s.bpfEvents.queue t := hbpf₁ t (Ne.symm hne)
  obtain ⟨bpf, hbpf⟩ := List.head?_eq_some_iff.mp he
  rw [hqueue, hbpf, hnewest] at hv₂
  have hforeign : ∀ e' ∈ e :: bpf, e'.tid ≠ u := by
    intro e' he'
    rw [← hbpf] at he'
    rw [s.bpfEvents.key_of_mem he']
    exact Ne.symm hne
  have hrobbed₂ : Robbed u b older l₂.ret := by
    rw [hret₂]
    exact robbed_of_takeOver hforeign hju htake (visited_of_sweepThread hv₂)
  have hrest : u ∉ rest := fun hmem =>
    (List.nodup_append.mp hv.1).2.2 u List.mem_cons_self u hmem rfl
  have hrobbed : Robbed u b older l.ret := robbed_of_exec hrest hrobbed₂ hl
  have hpart := hrobbed.part hbu
  refine ⟨?_, fun heq => ?_, fun p' hp' => ?_⟩
  · obtain ⟨p, hp, hforeign⟩ := hrobbed.foreign
    exact ⟨p, List.mem_reverse.mpr hp, hforeign⟩
  · -- the thread's own last pair is reported without its JVM event
    rw [heq, hlast] at hpart
    cases hpart
  · rw [← List.mem_reverse, hpart] at hp'
    rcases List.mem_cons.mp hp' with rfl | hp'
    · exact fun _ hj => by cases hj
    · obtain ⟨htid, hjvm⟩ := hown_mem p' (List.mem_cons_of_mem _ (List.mem_of_mem_filter hp'))
      exact fun j hj => (hjvm j hj).trans htid.symm

/-! ## The thread visited last -/

/-- Some event of thread `u` holds a JVM event of another thread. -/
def Enriched (u : UInt32) (ret : List Pair) : Prop :=
  ∃ p ∈ ret, p.1.tid = u ∧ ∃ j, p.2 = some j ∧ j.tid ≠ u

/-- A foreign JVM event only moves on to the thread's next event. -/
theorem Iterates.enriched {o : Overflow} {now : UInt64} {e : BpfEvent} {q q' trash : List JvmEvent}
    {ret ret' : List Pair} {u : UInt32} (h : Iterates o now e q ret (.report ret' q' trash))
    (he : e.tid = u) (hr : Enriched u ret) : Enriched u ret' := by
  obtain ⟨p, hp, htid, j, hj, hne⟩ := hr
  cases h with
  | takeOver _ =>
    rcases List.mem_cons.mp hp with rfl | hp
    · cases hj
      exact ⟨_, List.mem_cons_self, he, _, rfl, hne⟩
    · exact ⟨p, List.mem_cons_of_mem _ (List.mem_cons_of_mem _ hp), htid, j, hj, hne⟩
  | matched _ _ _ => exact ⟨p, List.mem_cons_of_mem _ hp, htid, j, hj, hne⟩
  | unmatched _ _ _ _ => exact ⟨p, List.mem_cons_of_mem _ hp, htid, j, hj, hne⟩

theorem Visited.enriched {o : Overflow} {now : UInt64} {bpf : List BpfEvent} {q : List JvmEvent}
    {ret : List Pair} {v : Visit} {u : UInt32} (h : Visited o now bpf q ret v)
    (hbpf : ∀ e ∈ bpf, e.tid = u) (hr : Enriched u ret) : Enriched u v.ret := by
  induction h with
  | done _ _ => exact hr
  | report hit _ ih =>
    exact ih (fun e he => hbpf e (List.mem_cons_of_mem _ he))
      (hit.enriched (hbpf _ List.mem_cons_self) hr)
  | wait _ => exact hr

/-- A visit of `u` that begins with the take-over of a foreign JVM event keeps it. -/
theorem enriched_of_takeOver {o : Overflow} {now : UInt64} {e : BpfEvent} {bpf : List BpfEvent}
    {q : List JvmEvent} {u : UInt32} {b : BpfEvent} {j : JvmEvent} {older : List Pair} {v : Visit}
    (hbpf : ∀ e' ∈ e :: bpf, e'.tid = u) (hj : j.tid ≠ u)
    (htake : takesOver o b j e.timestamp = some true)
    (h : Visited o now (e :: bpf) q ((b, some j) :: older) v) : Enriched u v.ret := by
  obtain ⟨v', hrest, hret⟩ := h.after_takeOver htake
  rw [hret]
  apply hrest.enriched fun e' he' => hbpf e' (List.mem_cons_of_mem _ he')
  exact ⟨_, List.mem_cons_self, hbpf e List.mem_cons_self, j, rfl, hj⟩

/-- The visits of other threads leave a thread's queues alone. -/
theorem queues_of_exec {o : Overflow} {now : UInt64} {u : UInt32} {order : List UInt32}
    {l l' : SweepLoop} (hu : u ∉ order) (h : exec (sweepTid o now) l order = some l') :
    l'.bpfEvents.queue u = l.bpfEvents.queue u ∧ l'.jvmEvents.queue u = l.jvmEvents.queue u := by
  induction order generalizing l with
  | nil =>
    obtain rfl : l = l' := by simpa using h
    exact ⟨rfl, rfl⟩
  | cons t order ih =>
    simp only [List.mem_cons, not_or] at hu
    obtain ⟨m, hm, hrest⟩ := exec_cons.mp h
    obtain ⟨_, hbpf, hjvm⟩ := sweptTid_of_sweepTid hm
    obtain ⟨hbpf', hjvm'⟩ := ih hu.2 hrest
    exact ⟨hbpf'.trans (hbpf u hu.1), hjvm'.trans (hjvm u hu.1)⟩

/-- While a thread has not been visited, none of its events has been reported or attached. -/
theorem absent_of_exec {o : Overflow} {now : UInt64} {s : EventStream} {u : UInt32}
    {order : List UInt32} {l : SweepLoop} (hu : u ∉ order)
    (h : exec (sweepTid o now) ⟨s.bpfEvents, s.jvmEvents, [], []⟩ order = some l) :
    ∀ p ∈ l.ret, p.1.tid ≠ u ∧ ∀ j, p.2 = some j → j.tid ≠ u := by
  have hacc : LoopAccount o s l :=
    exec_keeps (fun _ _ _ hI hstep => hI.step hstep) (.start o s) h
  obtain ⟨hbpf, hjvm⟩ := queues_of_exec hu h
  intro p hp
  constructor
  · intro htid
    have hnil := hacc.reported u
    rw [hbpf, List.append_left_eq_self, List.filter_eq_nil_iff] at hnil
    exact hnil p.1 (List.mem_reverse.mpr (List.mem_map_of_mem hp)) (by simpa using htid)
  · intro j hj htid
    obtain ⟨gone, hq, hperm⟩ := hacc.used u
    rw [hjvm, List.self_eq_append_left] at hq
    rw [hq, List.nil_perm, SweepLoop.usedOf, List.filter_eq_nil_iff] at hperm
    have hmem : j ∈ attached l.ret := List.mem_filterMap.mpr ⟨p, hp, hj⟩
    exact hperm j (List.mem_append_left _ hmem) (by simpa using htid)

/-- The thread visited last gets what its own queues yield, or a JVM event of another thread. -/
theorem sweep_last {o : Overflow} {now : UInt64} {s : EventStream} {u : UInt32}
    {order : List UInt32} {out : Swept} (hu : u ∉ order)
    (h : s.sweep o now (order ++ [u]) = some out) :
    partOf u out.returned = s.ownPairs o now u ∨ ∃ p ∈ partOf u out.returned, ¬ SameThread p := by
  obtain ⟨l', hl', rfl⟩ := sweep_eq_some.mp h
  obtain ⟨l, hl, hlast⟩ := exec_concat.mp hl'
  obtain ⟨hbpf, hjvm⟩ := queues_of_exec hu hl
  have habsent := absent_of_exec hu hl
  obtain ⟨⟨v, hv, _, _, hret, _⟩, _, _⟩ := sweptTid_of_sweepTid hlast
  simp only at hbpf hjvm
  rw [hbpf, hjvm] at hv
  by_cases hno : ∀ e ∈ (s.bpfEvents.queue u).head?, takeOver? o l.ret e.timestamp = some false
  · left
    obtain ⟨r, hr, hvret, _, _⟩ := lookAhead_of_sweepThread hno hv
    have hpairs := EventStream.ownPairs_eq hr
    have hthread : r.pairs.filter (·.1.tid = u) = r.pairs := by
      rw [List.filter_eq_self, ← hpairs]
      exact fun p hp => decide_eq_true (EventStream.mem_ownPairs hp).1
    have hothers : l.ret.reverse.filter (·.1.tid = u) = [] := by
      rw [List.filter_eq_nil_iff]
      intro p hp
      simpa using (habsent p (List.mem_reverse.mp hp)).1
    show (l'.ret.reverse).filter (·.1.tid = u) = _
    rw [hret, hvret, List.reverse_append, List.reverse_reverse, List.filter_append, hothers,
      hthread, List.nil_append, hpairs]
  · right
    push Not at hno
    obtain ⟨e, he, hne⟩ := hno
    obtain ⟨bpf, hq⟩ := List.head?_eq_some_iff.mp he
    have hown : ∀ e' ∈ s.bpfEvents.queue u, e'.tid = u := fun e' he' => s.bpfEvents.key_of_mem he'
    have htake := (takeOver?_eq hv he).resolve_right hne
    obtain ⟨b, j, older, hnewest, htake'⟩ := takeOver?_eq_true htake
    have hforeign : j.tid ≠ u := by
      apply (habsent (b, some j) _).2 j rfl
      rw [hnewest]
      exact List.mem_cons_self
    rw [hq, hnewest] at hv
    rw [hq] at hown
    have henriched := enriched_of_takeOver hown hforeign htake' (visited_of_sweepThread hv)
    obtain ⟨p, hp, htid, j', hj', hne'⟩ := henriched
    refine ⟨p, List.mem_filter.mpr ⟨?_, by simpa using htid⟩, fun hsame => hne' ?_⟩
    · rw [List.mem_reverse, hret]
      exact hp
    · exact (hsame j' hj').trans htid

end Jbm
