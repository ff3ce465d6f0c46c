import Jbm.Laws.Stream.Delivery
import Jbm.Laws.Stream.Exact

/-!
# Exact pairing under any delivery schedule

One thread blocks again and again; every block has its BPF event and its JVM sample. However the
two deliveries interleave, and wherever sweeps are inserted, the sweeps report each block with its
own sample (`exact_pairing`).

The invariant behind it (`Paired`): some number `k` of blocks has been reported, each with its
sample, and both queues hold exactly what was delivered of the blocks behind. So the two fronts
belong to the same block whenever both are there, and the three branches that could break the
pairing do not fire: the front sample is not before the front block, the newest reported sample
is not after it, and a block whose sample is missing is not 30 s old.
-/

set_option autoImplicit false

namespace Jbm

open Base

/-- The blocks of one thread, oldest first, each with its JVM sample: a sample is taken within
the second after its block's end and not after the end of the next block. -/
structure BlockHistory (tid : UInt32) (blocks : List (BpfEvent × JvmEvent)) : Prop where
  thread : ∀ p ∈ blocks, p.1.tid = tid ∧ p.2.tid = tid
  window : ∀ p ∈ blocks, p.1.timestamp ≤ p.2.timestamp ∧
    p.2.timestamp.toNat < p.1.timestamp.toNat + 1000
  chain : blocks.IsChain fun p q => p.2.timestamp ≤ q.1.timestamp
  small : ∀ p ∈ blocks, Small p.2.timestamp

/-- A block as a sweep should report it. -/
def reportOf (p : BpfEvent × JvmEvent) : Pair := (p.1, some p.2)

namespace BlockHistory

variable {tid : UInt32} {p : BpfEvent × JvmEvent} {blocks : List (BpfEvent × JvmEvent)}

theorem tail (h : BlockHistory tid (p :: blocks)) : BlockHistory tid blocks where
  thread q hq := h.thread q (List.mem_cons_of_mem _ hq)
  window q hq := h.window q (List.mem_cons_of_mem _ hq)
  chain := h.chain.tail
  small q hq := h.small q (List.mem_cons_of_mem _ hq)

theorem drop (h : BlockHistory tid blocks) (n : Nat) : BlockHistory tid (blocks.drop n) := by
  induction n generalizing blocks with
  | zero => exact h
  | succ n ih =>
    cases blocks with
    | nil => exact h
    | cons p blocks => exact ih h.tail

theorem bpf_small (h : BlockHistory tid blocks) (hp : p ∈ blocks) : Small p.1.timestamp := by
  have hle := UInt64.le_iff_toNat_le.mp (h.window p hp).1
  have := h.small p hp
  omega

end BlockHistory

/-- No event from `ts` on takes over the newest pair. -/
def Settled (ret : List Pair) (ts : UInt64) : Prop :=
  ∀ b j older, ret = (b, some j) :: older →
    b.timestamp ≤ j.timestamp ∧ j.timestamp ≤ ts ∧ Small j.timestamp

theorem Settled.takeOver?_eq (o : Overflow) {ret : List Pair} {ts : UInt64}
    (h : Settled ret ts) (hts : Small ts) : takeOver? o ret ts = some false := by
  unfold takeOver?
  split
  · next b j older =>
    obtain ⟨hle, hbefore, hj⟩ := h b j older rfl
    rw [takesOver_eq o hj hts hle, Option.some.injEq, decide_eq_false_iff_not]
    have := UInt64.le_iff_toNat_le.mp hbefore
    rw [UInt64.lt_iff_toNat_lt, UInt64.lt_iff_toNat_lt]
    omega
  · rfl

/-! ## One visit -/

/-- The clock rule of a sweep: it is not behind any delivered block, and less than 30 s after a
block whose sample is still to come. -/
structure ClockRule (now : UInt64) (bpf waiting : List (BpfEvent × JvmEvent)) : Prop where
  notBehind : ∀ p ∈ bpf, p.1.timestamp ≤ now
  young : ∀ p ∈ waiting, now.toNat < p.1.timestamp.toNat + 30000

/-- The visit of a thread of which `a` BPF events and `c` samples of the blocks are queued: it
reports the blocks of which both are there, and stops. -/
theorem visit_blocks {o : Overflow} {now : UInt64} {tid : UInt32}
    {blocks : List (BpfEvent × JvmEvent)} (hb : BlockHistory tid blocks) (a c : Nat)
    {ret : List Pair} (hclock : ClockRule now (blocks.take a) (blocks.drop c))
    (hret : ∀ p ∈ blocks.head?, Settled ret p.1.timestamp) :
    sweepThread o now ((blocks.take a).map Prod.fst) ((blocks.take c).map Prod.snd) ret =
      some
        { bpf := ((blocks.take a).map Prod.fst).drop (min a c)
          jvm := ((blocks.take c).map Prod.snd).drop (min a c)
          ret := ((blocks.take (min a c)).map reportOf).reverse ++ ret
          trash := [] } := by
  induction blocks generalizing a c ret with
  | nil => simp [sweepThread]
  | cons p blocks ih =>
    cases a with
    | zero => simp [sweepThread]
    | succ a =>
      have hsmall := hb.bpf_small List.mem_cons_self
      have hno := (hret p rfl).takeOver?_eq o hsmall
      cases c with
      | zero =>
        -- the front block waits for its sample
        have hle : p.1.timestamp ≤ now := hclock.notBehind p (by simp)
        have hyoung : now.toNat < p.1.timestamp.toNat + 30000 := hclock.young p (by simp)
        have hgive : givesUp o now p.1.timestamp = some false := by
          rw [givesUp_eq o hle, Option.some.injEq, decide_eq_false_iff_not]
          omega
        simp [sweepThread, sweepEvent, hno, findMatchingJvmEvent, hgive]
      | succ c =>
        -- the two fronts are one block
        obtain ⟨hle, hnear⟩ := hb.window p List.mem_cons_self
        have hj := hb.small p List.mem_cons_self
        have hfind := find_cons_near o ((blocks.take c).map Prod.snd) hj hsmall hle hnear
        have hnext : ∀ q ∈ blocks.head?, Settled (reportOf p :: ret) q.1.timestamp := by
          intro q hq b j older heq
          cases heq
          have hchain : p.2.timestamp ≤ q.1.timestamp := by
            cases blocks with
            | nil => cases hq
            | cons q' blocks =>
              obtain rfl : q' = q := by simpa using hq
              exact hb.chain.rel
          exact ⟨hle, hchain, hj⟩
        have hclock' : ClockRule now (blocks.take a) (blocks.drop c) :=
          ⟨fun q hq => hclock.notBehind q (List.mem_cons_of_mem _ hq), hclock.young⟩
        have hrest := ih hb.tail a c hclock' hnext
        simp only [List.take_succ_cons, List.map_cons, sweepThread, sweepEvent, hno, hfind,
          Option.bind_eq_bind, Option.bind_some, Bool.false_eq_true, if_false, Option.pure_def]
        rw [show (p.1, some p.2) = reportOf p from rfl, hrest]
        simp [Nat.succ_min_succ]

/-! ## A whole schedule -/

/-- A schedule for a block history: an `add` delivers the next BPF event, a `fill` delivers any
number of the next samples, and a sweep, at any point, reads a clock that keeps the clock rule.
The clock readings need not be ordered among themselves. -/
def Schedule (o : Overflow) (decode : List Char → Option JvmEvent)
    (blocks : List (BpfEvent × JvmEvent)) (s : History) : Op → Prop
  | .add host event =>
    match toBpfEvent o host event with
    | some (.ok e) => s.addedEvents ++ [e] <+: blocks.map Prod.fst
    | _ => True
  | .fill text => s.filed ++ eventsOf decode text <+: blocks.map Prod.snd
  | .sweep now _ =>
    ClockRule now (blocks.take s.addedEvents.length) (blocks.drop s.filed.length)

/-- `k` blocks have been reported, each with its sample, and the queues hold what was delivered
of the blocks behind. -/
structure Paired (tid : UInt32) (blocks : List (BpfEvent × JvmEvent)) (k : Nat) (s : History) :
    Prop where
  added : s.addedEvents <+: blocks.map Prod.fst
  filed : s.filed <+: blocks.map Prod.snd
  le_added : k ≤ s.addedEvents.length
  le_filed : k ≤ s.filed.length
  returned : s.returned = (blocks.take k).map reportOf
  trashed : s.trashed = []
  bpf : ∀ t, s.stream.bpfEvents.queue t = if t = tid then s.addedEvents.drop k else []
  jvm : ∀ t, s.stream.jvmEvents.queue t = if t = tid then s.filed.drop k else []

theorem paired_new (tid : UInt32) (blocks : List (BpfEvent × JvmEvent)) :
    Paired tid blocks 0 .new where
  added := List.nil_prefix
  filed := List.nil_prefix
  le_added := Nat.zero_le _
  le_filed := Nat.zero_le _
  returned := rfl
  trashed := rfl
  bpf t := by simp [History.new, EventStream.new, History.addedEvents]
  jvm t := by simp [History.new, EventStream.new]

/-- What is queued of a delivered prefix behind the reported blocks. -/
theorem queued_of_prefix {α β : Type} {f : α → β} {l : List α} {pre : List β} (k : Nat)
    (h : pre <+: l.map f) : pre.drop k = ((l.drop k).take (pre.length - k)).map f := by
  rw [List.map_take, List.map_drop, ← List.drop_take]
  exact congrArg _ (List.prefix_iff_eq_take.mp h)

/-- Filtering by the thread's own id changes nothing, by another one empties. -/
theorem filter_thread {α : Type} {key : α → UInt32} {tid : UInt32} {l : List α}
    (h : ∀ a ∈ l, key a = tid) (t : UInt32) :
    l.filter (key · = t) = if t = tid then l else [] := by
  by_cases ht : t = tid
  · rw [if_pos ht, List.filter_eq_self]
    exact fun a ha => decide_eq_true ((h a ha).trans ht.symm)
  · rw [if_neg ht, List.filter_eq_nil_iff]
    intro a ha
    simpa [h a ha] using Ne.symm ht

section Steps

variable {o : Overflow} {decode : List Char → Option JvmEvent} {tid : UInt32}
  {blocks : List (BpfEvent × JvmEvent)} {k : Nat} {s : History}

/-- A scheduled sweep returns, and reports the blocks of which both events are queued. -/
theorem Paired.sweep (hb : BlockHistory tid blocks) (hs : Paired tid blocks k s) {now : UInt64}
    {order : List UInt32} (hv : s.stream.bpfEvents.Visits order)
    (hclock : ClockRule now (blocks.take s.addedEvents.length) (blocks.drop s.filed.length)) :
    ∃ s', History.step o decode s (.sweep now order) = some s' ∧
      s'.added = s.added ∧ s'.filed = s.filed ∧
      Paired tid blocks (min s.addedEvents.length s.filed.length) s' := by
  have hadd := hs.le_added
  have hfil := hs.le_filed
  have hmin : k + min (s.addedEvents.length - k) (s.filed.length - k) =
      min s.addedEvents.length s.filed.length := by omega
  have hclock' : ClockRule now ((blocks.drop k).take (s.addedEvents.length - k))
      ((blocks.drop k).drop (s.filed.length - k)) := by
    constructor
    · intro p hp
      refine hclock.notBehind p ?_
      rw [← List.drop_take] at hp
      exact List.mem_of_mem_drop hp
    · intro p hp
      refine hclock.young p ?_
      rw [List.drop_drop, Nat.add_sub_cancel' hfil] at hp
      exact hp
  have hvisit := @visit_blocks o now tid _ (hb.drop k) _ _ [] hclock'
    (fun p _ b j older h => by cases h)
  rw [← queued_of_prefix k hs.added, ← queued_of_prefix k hs.filed, List.append_nil,
    List.drop_drop, List.drop_drop, hmin] at hvisit
  have honly : ∀ t, t ≠ tid → s.stream.bpfEvents.queue t = [] := fun t ht => by
    rw [hs.bpf t, if_neg ht]
  have hbq : s.stream.bpfEvents.queue tid = s.addedEvents.drop k := by rw [hs.bpf, if_pos rfl]
  have hjq : s.stream.jvmEvents.queue tid = s.filed.drop k := by rw [hs.jvm, if_pos rfl]
  rw [← hbq, ← hjq] at hvisit
  obtain ⟨out, hout, hret, htrash, hbpf, hjvm⟩ := sweep_single honly hv hvisit
  refine ⟨{ s with
      stream := out.stream
      returned := s.returned ++ out.returned
      trashed := s.trashed ++ out.trash }, ?_, rfl, rfl, ?_⟩
  · simp only [History.step, if_pos hv, hout, Option.map_some]
  · refine ⟨hs.added, hs.filed, Nat.min_le_left _ _, Nat.min_le_right _ _, ?_, ?_, hbpf, ?_⟩
    · show s.returned ++ out.returned = _
      rw [hs.returned, hret, List.reverse_reverse, ← hmin, List.take_add, List.map_append]
    · show s.trashed ++ out.trash = []
      rw [hs.trashed, htrash]
      rfl
    · intro t
      show out.stream.jvmEvents.queue t = _
      rw [hjvm t, hs.jvm t]
      split <;> rfl

theorem Paired.step (hb : BlockHistory tid blocks) {s' : History} {op : Op}
    (hs : Paired tid blocks k s) (hop : Schedule o decode blocks s op)
    (h : History.step o decode s op = some s') : ∃ k', Paired tid blocks k' s' := by
  cases History.steps_of_step h with
  | @add host event e he =>
    simp only [Schedule, he] at hop
    have hadded : ({ s with
        stream := s.stream.file e
        added := s.added ++ [(event, e)] } : History).addedEvents = s.addedEvents ++ [e] := by
      simp [History.addedEvents]
    have hetid : e.tid = tid := by
      obtain ⟨p, hp, rfl⟩ := List.mem_map.mp (hop.subset (by simp : e ∈ s.addedEvents ++ [e]))
      exact (hb.thread p hp).1
    refine ⟨k, ?_, hs.filed, ?_, hs.le_filed, hs.returned, hs.trashed, fun t => ?_, hs.jvm⟩
    · rw [hadded]
      exact hop
    · rw [hadded, List.length_append]
      exact Nat.le_add_right_of_le hs.le_added
    · rw [hadded, List.drop_append_of_le_length hs.le_added]
      show (s.stream.bpfEvents.push e).queue t = _
      rw [Filing.queue_push, hs.bpf t, filter_thread (by simpa using hetid) t]
      split <;> rfl
  | @fill text =>
    have hmem : ∀ j ∈ eventsOf decode text, j.tid = tid := by
      intro j hj
      obtain ⟨p, hp, rfl⟩ := List.mem_map.mp (hop.subset (List.mem_append_right _ hj))
      exact (hb.thread p hp).2
    refine ⟨k, hs.added, hop, hs.le_added, ?_, hs.returned, hs.trashed, hs.bpf, fun t => ?_⟩
    · rw [List.length_append]
      exact Nat.le_add_right_of_le hs.le_filed
    · show (s.stream.jvmEvents.pushAll (eventsOf decode text)).queue t =
        if t = tid then (s.filed ++ eventsOf decode text).drop k else []
      rw [Filing.queue_pushAll, hs.jvm t, filter_thread hmem t,
        List.drop_append_of_le_length hs.le_filed]
      split <;> rfl
  | @sweep now order out hv hout =>
    obtain ⟨s₁, hstep, _, _, hpaired⟩ := hs.sweep hb hv hop
    rw [h, Option.some.injEq] at hstep
    rw [hstep]
    exact ⟨_, hpaired⟩

end Steps

/-- **Exact pairing under any delivery interleaving.** Along every schedule of a block history no
sweep stops the program, and once everything is delivered, one more sweep completes the reports
to exactly the blocks, in order, each with its own sample, with nothing trashed. -/
theorem exact_pairing {o : Overflow} {decode : List Char → Option JvmEvent} {tid : UInt32}
    {blocks : List (BpfEvent × JvmEvent)} (hb : BlockHistory tid blocks) {ops : List Op}
    {s : History} (h : History.run o decode ops = some s)
    (hops : Meets (History.step o decode) (Schedule o decode blocks) .new ops) :
    (∀ now order, Schedule o decode blocks s (.sweep now order) →
      s.stream.bpfEvents.Visits order →
      (History.step o decode s (.sweep now order)).isSome) ∧
    (s.addedEvents = blocks.map Prod.fst → s.filed = blocks.map Prod.snd →
      ∀ now order, (∀ p ∈ blocks, p.1.timestamp ≤ now) → s.stream.bpfEvents.Visits order →
      ∃ s', History.step o decode s (.sweep now order) = some s' ∧
        s'.returned = blocks.map (fun p => (p.1, some p.2)) ∧ s'.trashed = []) := by
  have keep : ∀ s op s', (∃ k, Paired tid blocks k s) → Schedule o decode blocks s op →
      History.step o decode s op = some s' → ∃ k, Paired tid blocks k s' := by
    rintro s op s' ⟨k, hs⟩ hop hstep
    exact hs.step hb hop hstep
  obtain ⟨k, hs⟩ := exec_invariant keep ⟨0, paired_new tid blocks⟩ hops h
  refine ⟨fun now order hop hv => ?_, fun hadd hfil now order hnow hv => ?_⟩
  · obtain ⟨s', hs', _⟩ := hs.sweep hb hv hop
    rw [hs']
    rfl
  · have hlen : s.filed.length = blocks.length := by rw [hfil, List.length_map]
    have hlen' : s.addedEvents.length = blocks.length := by rw [hadd, List.length_map]
    have hclock : ClockRule now (blocks.take s.addedEvents.length)
        (blocks.drop s.filed.length) := by
      rw [hlen, hlen', List.take_length, List.drop_length]
      exact ⟨hnow, by simp⟩
    obtain ⟨s', hstep, _, _, hs'⟩ := hs.sweep hb hv hclock
    refine ⟨s', hstep, ?_, hs'.trashed⟩
    rw [hs'.returned, hlen, hlen', Nat.min_self, List.take_length]
    rfl

instance (now : UInt64) (bpf waiting : List (BpfEvent × JvmEvent)) :
    Decidable (ClockRule now bpf waiting) :=
  decidable_of_iff ((∀ p ∈ bpf, p.1.timestamp ≤ now) ∧
      ∀ p ∈ waiting, now.toNat < p.1.timestamp.toNat + 30000)
    ⟨fun h => ⟨h.1, h.2⟩, fun h => ⟨h.1, h.2⟩⟩

instance (o : Overflow) (decode : List Char → Option JvmEvent)
    (blocks : List (BpfEvent × JvmEvent)) (s : History) :
    ∀ op, Decidable (Schedule o decode blocks s op)
  | .add host event =>
    match h : toBpfEvent o host event with
    | some (.ok e) =>
      decidable_of_iff (s.addedEvents ++ [e] <+: blocks.map Prod.fst) (by simp [Schedule, h])
    | some (.error _) => .isTrue (by simp [Schedule, h])
    | none => .isTrue (by simp [Schedule, h])
  | .fill _ => inferInstanceAs (Decidable (_ <+: _))
  | .sweep _ _ => inferInstanceAs (Decidable (ClockRule _ _ _))

/-- Two blocks of thread 7. The second ends as the first one's sample is taken, and its own sample
is taken 999 ms later. -/
def sampleBlocks : List (BpfEvent × JvmEvent) :=
  [(sampleBpf 7 3, sampleJvm 7 5), (sampleBpf 7 5, sampleJvm 7 1004)]

/-- The line of the second sample. -/
def sampleLineLast : List Char := "\x7b\"timestamp\":1004,\"tid\":7,\"frames\":[]\x7d".toList

/-- The decoder on the two lines. -/
def sampleDecodeLast (line : List Char) : Option JvmEvent :=
  if line = sampleLineLast then some (sampleJvm 7 1004) else sampleDecode line

/-- Each block is swept once before its sample is there, the second in the sweep that reports the
first. -/
def sampleSchedule : List Op :=
  [sampleAdd 7 3, .sweep 4 [7], .fill (sampleLine ++ ['\n']), sampleAdd 7 5, .sweep 6 [7],
    .fill (sampleLineLast ++ ['\n'])]

theorem sampleSchedule_runs : (History.run .abort sampleDecodeLast sampleSchedule).isSome := by
  decide

theorem sampleBlocks_history : BlockHistory 7 sampleBlocks where
  thread := by decide
  window := by decide
  chain := by decide
  small := by decide

theorem exact_pairing_sampleSchedule :
    let s := (History.run .abort sampleDecodeLast sampleSchedule).get sampleSchedule_runs
    ∃ s', History.step .abort sampleDecodeLast s (.sweep 1010 [7]) = some s' ∧
      s'.returned = sampleBlocks.map (fun p => (p.1, some p.2)) ∧ s'.trashed = [] :=
  (exact_pairing sampleBlocks_history (Option.some_get sampleSchedule_runs).symm (by decide)).2
    (by decide) (by decide) 1010 [7] (by decide) (by decide)

end Jbm
