import Jbm.Stream.Sweep

/-!
# The matcher that looks ahead

`sweep` matches first and repairs later: it pops a JVM event for a BPF event, and when the next
BPF event turns out to be a better partner it moves the JVM event on. `lookAhead` is what that
computes on the queues of one thread, said without repair: a BPF event whose match the next one
would take over is reported without a JVM event, and the JVM event stays queued. It never looks
at a result vector, so it is a function of one thread's queues alone.

`sweepThread_eq_lookAhead` is the connection: a visit whose first event takes nothing over from
the result vector it finds adds exactly what `lookAhead` reports to it, and leaves the same
queues. The proof carries the newest pair along: either nothing can be taken from it, or the
reference is still undecided about its JVM event.
-/

set_option autoImplicit false

namespace Jbm

open Base

/-- What a matcher reports of one thread, oldest first, and what it leaves of the two queues. -/
structure Outcome where
  pairs : List Pair
  bpf : List BpfEvent
  jvm : List JvmEvent
  deriving DecidableEq

/-- Report `p` before everything else. -/
def Outcome.cons (p : Pair) (r : Outcome) : Outcome := { r with pairs := p :: r.pairs }

/-- Whether the next queued BPF event would take `j` over from `b`. -/
def nextTakes (o : Overflow) (b : BpfEvent) (j : JvmEvent) : List BpfEvent → Option Bool
  | [] => some false
  | next :: _ => takesOver o b j next.timestamp

theorem nextTakes_cons (o : Overflow) (b next : BpfEvent) (j : JvmEvent) (bpf : List BpfEvent) :
    nextTakes o b j (next :: bpf) = takesOver o b j next.timestamp := rfl

/-- The matcher that looks ahead. -/
def lookAhead (o : Overflow) (now : UInt64) : List BpfEvent → List JvmEvent → Option Outcome
  | [], jvm => some ⟨[], [], jvm⟩
  | b :: bpf, jvm => do
    let m ← findMatchingJvmEvent o b.timestamp jvm
    match m.found with
    | some j =>
      if ← nextTakes o b j bpf then
        (lookAhead o now bpf (j :: m.left)).map (.cons (b, none))
      else
        (lookAhead o now bpf m.left).map (.cons (b, some j))
    | none =>
      if !m.left.isEmpty then
        (lookAhead o now bpf m.left).map (.cons (b, none))
      else if ← givesUp o now b.timestamp then
        (lookAhead o now bpf m.left).map (.cons (b, none))
      else
        return ⟨[], b :: bpf, m.left⟩

/-! ## What it reports -/

/-- Every pair is made of events of the two queues. -/
theorem mem_of_lookAhead {o : Overflow} {now : UInt64} {bpf : List BpfEvent}
    {jvm : List JvmEvent} {r : Outcome} (h : lookAhead o now bpf jvm = some r) :
    ∀ p ∈ r.pairs, p.1 ∈ bpf ∧ ∀ j, p.2 = some j → j ∈ jvm := by
  induction bpf generalizing jvm r with
  | nil =>
    cases h
    simp
  | cons b bpf ih =>
    -- one pair for the front, the others from what is left of the queues
    have front : ∀ {jvm' : List JvmEvent} {x : Option JvmEvent}, jvm' ⊆ jvm →
        (∀ j, x = some j → j ∈ jvm) → (lookAhead o now bpf jvm').map (.cons (b, x)) = some r →
        ∀ p ∈ r.pairs, p.1 ∈ b :: bpf ∧ ∀ j, p.2 = some j → j ∈ jvm := by
      intro jvm' x hsub hx hr p hp
      obtain ⟨r', hr', rfl⟩ := Option.map_eq_some_iff.mp hr
      rcases List.mem_cons.mp hp with rfl | hp
      · exact ⟨List.mem_cons_self, hx⟩
      · obtain ⟨hbpf, hjvm⟩ := ih hr' p hp
        exact ⟨List.mem_cons_of_mem _ hbpf, fun j hj => hsub (hjvm j hj)⟩
    simp only [lookAhead, Option.bind_eq_bind, Option.bind_eq_some_iff] at h
    obtain ⟨m, hm, h⟩ := h
    have hsplit := (find_spec hm).split
    have hleft : m.left ⊆ jvm := by
      rw [hsplit]
      exact List.subset_append_right _ _
    cases hf : m.found with
    | some j =>
      have hj : j ∈ jvm := by
        rw [hsplit, hf]
        simp
      simp only [hf, Option.bind_eq_some_iff] at h
      obtain ⟨takes, _, h⟩ := h
      cases takes with
      | true => exact front (List.cons_subset.mpr ⟨hj, hleft⟩) (by simp) h
      | false => exact front hleft (by simpa using hj) h
    | none =>
      simp only [hf] at h
      split at h
      · exact front hleft (by simp) h
      · obtain ⟨old, _, h⟩ := Option.bind_eq_some_iff.mp h
        cases old with
        | true => exact front hleft (by simp) h
        | false =>
          cases h
          simp

/-! ## The visit computes it -/

/-- What a visit answers, without the trash. -/
def Visit.toOutcome (v : Visit) : Outcome := ⟨v.ret, v.bpf, v.jvm⟩

/-- The reference's answer, added to a result vector that is kept newest first. -/
def Outcome.onto (ret : List Pair) (r : Outcome) : Outcome :=
  { r with pairs := r.pairs.reverse ++ ret }

theorem Outcome.onto_cons (ret : List Pair) (p : Pair) (r : Outcome) :
    (r.cons p).onto ret = r.onto (p :: ret) := by
  simp [Outcome.cons, Outcome.onto]

/-- `j` lies inside the matching window of `b`, by the code's own subtraction. -/
def Near (o : Overflow) (b : BpfEvent) (j : JvmEvent) : Prop :=
  ∃ d, tsDiff o j.timestamp b.timestamp = some d ∧ 0 ≤ d ∧ d < 1000

/-- A JVM event in the window of the front is matched to it. -/
theorem Near.find {o : Overflow} {b : BpfEvent} {j : JvmEvent} (h : Near o b j)
    (q : List JvmEvent) : findMatchingJvmEvent o b.timestamp (j :: q) = some ⟨some j, q, []⟩ := by
  obtain ⟨d, hd, hpos, hlt⟩ := h
  unfold tsDiff at hd
  simp only [findMatchingJvmEvent, hd, Option.bind_eq_bind, Option.bind_some, threshold_asMillis]
  rw [if_neg (by omega), if_pos (by omega)]
  rfl

/-- A take-over shortens the distance, so it stays inside the window. -/
theorem Near.takeOver {o : Overflow} {b e : BpfEvent} {j : JvmEvent} (h : Near o b j)
    (ht : takesOver o b j e.timestamp = some true) : Near o e j := by
  obtain ⟨d, hd, _, hlt⟩ := h
  simp only [takesOver, Option.bind_eq_bind, Option.bind_eq_some_iff] at ht
  obtain ⟨d', hd', ht⟩ := ht
  split at ht
  · next hpos =>
    obtain ⟨dist, hdist, ht⟩ := Option.bind_eq_some_iff.mp ht
    rw [Option.pure_def, Option.some.injEq, decide_eq_true_eq, signed_subU64 hdist hd] at ht
    exact ⟨d', hd', by omega, by omega⟩
  · cases ht

/-- What follows a visit's iteration that reports. -/
theorem sweepThread_report {o : Overflow} {now : UInt64} {e : BpfEvent} {bpf : List BpfEvent}
    {q q' trash : List JvmEvent} {ret ret' : List Pair}
    (h : sweepEvent o now e q ret = some (.report ret' q' trash)) :
    (sweepThread o now (e :: bpf) q ret).map Visit.toOutcome =
      (sweepThread o now bpf q' ret').map Visit.toOutcome := by
  simp only [sweepThread, h, Option.bind_eq_bind, Option.bind_some]
  cases sweepThread o now bpf q' ret' <;> rfl

/-- The open end of a result vector: its newest pair holds a match the reference has not decided
about yet. -/
private def openEnd (o : Overflow) (now : UInt64) (b : BpfEvent) (j : JvmEvent)
    (older : List Pair) (bpf : List BpfEvent) (q : List JvmEvent) : Option Outcome := do
  if ← nextTakes o b j bpf then
    (lookAhead o now bpf (j :: q)).map (.onto ((b, none) :: older))
  else
    (lookAhead o now bpf q).map (.onto ((b, some j) :: older))

private theorem map_onto_cons (p : Pair) (ret : List Pair) (r : Option Outcome) :
    (r.map (Outcome.cons p)).map (Outcome.onto ret) = r.map (Outcome.onto (p :: ret)) := by
  cases r with
  | none => rfl
  | some r => exact congrArg some (r.onto_cons ret p)

/-- Where the front is matched, the reference decides as the open end does. -/
private theorem openEnd_eq {o : Overflow} {now : UInt64} {e : BpfEvent} {j : JvmEvent}
    {bpf : List BpfEvent} {q : List JvmEvent} {m : Matching} (ret : List Pair)
    (hm : findMatchingJvmEvent o e.timestamp q = some m) (hf : m.found = some j) :
    openEnd o now e j ret bpf m.left = (lookAhead o now (e :: bpf) q).map (.onto ret) := by
  simp only [lookAhead, hm, hf, openEnd, Option.bind_eq_bind, Option.bind_some]
  cases nextTakes o e j bpf with
  | none => rfl
  | some takes =>
    cases takes with
    | true => exact (map_onto_cons _ _ _).symm
    | false => exact (map_onto_cons _ _ _).symm

/-- A visit of `bpf` computes the reference onto a closed end of the result vector: one the first
event takes nothing over from. -/
private def ComputesClosed (o : Overflow) (now : UInt64) (bpf : List BpfEvent) : Prop :=
  ∀ (q : List JvmEvent) (ret : List Pair),
    (∀ e ∈ bpf.head?, takeOver? o ret e.timestamp = some false) →
    (sweepThread o now bpf q ret).map Visit.toOutcome = (lookAhead o now bpf q).map (.onto ret)

/-- A visit of `bpf` decides about an open end as the reference does. -/
private def ComputesOpen (o : Overflow) (now : UInt64) (bpf : List BpfEvent) : Prop :=
  ∀ (b : BpfEvent) (j : JvmEvent) (q : List JvmEvent) (older : List Pair), Near o b j →
    (sweepThread o now bpf q ((b, some j) :: older)).map Visit.toOutcome =
      openEnd o now b j older bpf q

/-- One more event before a closed end: a match opens the end, a report without one keeps it
closed. -/
private theorem ComputesClosed.cons {o : Overflow} {now : UInt64} {bpf : List BpfEvent}
    (ihClosed : ComputesClosed o now bpf) (ihOpen : ComputesOpen o now bpf) (e : BpfEvent) :
    ComputesClosed o now (e :: bpf) := by
  intro q ret hhead
  have hno := hhead e rfl
  cases hm : findMatchingJvmEvent o e.timestamp q with
  | none => simp [sweepThread, sweepEvent, lookAhead, hno, hm]
  | some m =>
    cases hf : m.found with
    | some j =>
      have hev : sweepEvent o now e q ret =
          some (.report ((e, some j) :: ret) m.left m.trash) := by
        simp [sweepEvent, hno, hm, hf]
      rw [sweepThread_report hev, ihOpen e j m.left ret ((find_spec hm).found j hf),
        openEnd_eq ret hm hf]
    | none =>
      have unmatched : sweepEvent o now e q ret =
          some (.report ((e, none) :: ret) m.left m.trash) →
          (sweepThread o now (e :: bpf) q ret).map Visit.toOutcome =
            ((lookAhead o now bpf m.left).map (.cons (e, none))).map (.onto ret) := by
        intro hev
        rw [sweepThread_report hev, ihClosed m.left ((e, none) :: ret) (fun _ _ => rfl)]
        exact (map_onto_cons _ _ _).symm
      by_cases hl : m.left = []
      · cases hg : givesUp o now e.timestamp with
        | none => simp [sweepThread, sweepEvent, lookAhead, hno, hm, hf, hl, hg]
        | some old =>
          cases old with
          | true =>
            rw [unmatched (by simp [sweepEvent, hno, hm, hf, hl, hg])]
            simp [lookAhead, hm, hf, hl, hg]
          | false =>
            simp [sweepThread, sweepEvent, lookAhead, hno, hm, hf, hl, hg, Visit.toOutcome,
              Outcome.onto]
      · rw [unmatched (by simp [sweepEvent, hno, hm, hf, hl])]
        simp [lookAhead, hm, hf, hl]

/-- One more event before an open end: it takes the match over and leaves the end open, or it
closes the end. -/
private theorem ComputesOpen.cons {o : Overflow} {now : UInt64} {bpf : List BpfEvent}
    (ihOpen : ComputesOpen o now bpf) {e : BpfEvent} (closed : ComputesClosed o now (e :: bpf)) :
    ComputesOpen o now (e :: bpf) := by
  intro b j q older hnear
  cases ht : takesOver o b j e.timestamp with
  | none => simp [sweepThread, sweepEvent, takeOver?, ht, openEnd, nextTakes]
  | some takes =>
    cases takes with
    | false =>
      have hno : ∀ e' ∈ (e :: bpf).head?,
          takeOver? o ((b, some j) :: older) e'.timestamp = some false := by
        rintro e' ⟨⟩
        exact ht
      rw [closed q _ hno]
      simp [openEnd, nextTakes, ht]
    | true =>
      have hev : sweepEvent o now e q ((b, some j) :: older) =
          some (.report ((e, some j) :: (b, none) :: older) q []) := by
        simp [sweepEvent, takeOver?, ht, lastJvm, detach]
      have hnear' := hnear.takeOver ht
      rw [sweepThread_report hev, ihOpen e j q _ hnear', openEnd_eq _ (hnear'.find q) rfl]
      simp [openEnd, nextTakes_cons, ht]

/-- The connection, at both ends of the result vector. -/
private theorem sweepThread_ends (o : Overflow) (now : UInt64) (bpf : List BpfEvent) :
    ComputesClosed o now bpf ∧ ComputesOpen o now bpf := by
  induction bpf with
  | nil => exact ⟨fun q ret _ => rfl, fun b j q older _ => rfl⟩
  | cons e bpf ih =>
    obtain ⟨ihClosed, ihOpen⟩ := ih
    have closed := ihClosed.cons ihOpen e
    exact ⟨closed, ihOpen.cons closed⟩

/-- **A visit computes the look-ahead matcher**, on any result vector its first event takes
nothing over from. -/
theorem sweepThread_eq_lookAhead {o : Overflow} {now : UInt64} {bpf : List BpfEvent}
    {q : List JvmEvent} {ret : List Pair}
    (h : ∀ e ∈ bpf.head?, takeOver? o ret e.timestamp = some false) :
    (sweepThread o now bpf q ret).map Visit.toOutcome = (lookAhead o now bpf q).map (.onto ret) :=
  (sweepThread_ends o now bpf).1 q ret h

/-- The same, read at a visit that returned. -/
theorem lookAhead_of_sweepThread {o : Overflow} {now : UInt64} {bpf : List BpfEvent}
    {q : List JvmEvent} {ret : List Pair} {v : Visit}
    (h : ∀ e ∈ bpf.head?, takeOver? o ret e.timestamp = some false)
    (hv : sweepThread o now bpf q ret = some v) :
    ∃ r, lookAhead o now bpf q = some r ∧ v.ret = r.pairs.reverse ++ ret ∧ v.bpf = r.bpf ∧
      v.jvm = r.jvm := by
  have heq := @sweepThread_eq_lookAhead o now bpf q ret h
  rw [hv, Option.map_some, eq_comm, Option.map_eq_some_iff] at heq
  obtain ⟨r, hr, heq⟩ := heq
  cases v
  cases heq
  exact ⟨r, hr, rfl, rfl, rfl⟩

/-- On a result vector whose newest pair has a match, a visit decides about that match as the
look-ahead matcher would: taken over, it stands at the head of the thread's own queue. -/
theorem sweepThread_behind {o : Overflow} {now : UInt64} {bpf : List BpfEvent} {q : List JvmEvent}
    {b : BpfEvent} {j : JvmEvent} (older : List Pair) (h : Near o b j) :
    (sweepThread o now bpf q ((b, some j) :: older)).map Visit.toOutcome =
      (nextTakes o b j bpf).bind fun takes =>
        if takes then (lookAhead o now bpf (j :: q)).map (.onto ((b, none) :: older))
        else (lookAhead o now bpf q).map (.onto ((b, some j) :: older)) :=
  (sweepThread_ends o now bpf).2 b j q older h

end Jbm
