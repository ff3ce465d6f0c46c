import Mathlib.Logic.Function.Basic
import Jbm.Laws.Stream.Window

/-!
# The sweep on integers

`sweep` subtracts timestamps at fixed widths. `sweepExact` is the same algorithm with every
difference taken over the integers; it needs no build to say what an overflow does, and it always
answers. `Fits` is the condition on a sweep's inputs under which no fixed-width subtraction goes
wrong: a BPF event that takes nothing over is compared only with JVM events below 2^63, and, when
none is left to compare it with, is not later than the clock.

`sweep_exact_iff` is the connection: on BPF timestamps below 2^63 the code's sweep is the exact
one, in both builds, if and only if it fits. One direction is a lockstep of the two loops. For the
other, the first comparison that does not fit stops a build with overflow checks, or trashes a JVM
event from 2^63 on, which the exact sweep never does.
-/

set_option autoImplicit false

namespace Jbm

open Base

/-! ## The exact algorithm -/

/-- `x - y` over the integers. -/
def exactDiff (x y : UInt64) : Int := (x.toNat : Int) - y.toNat

/-- `find_matching_jvm_event` on integers. -/
def findExact (timestamp : UInt64) : List JvmEvent → Matching
  | [] => ⟨none, [], []⟩
  | jvmEvent :: jvmQueue =>
    if exactDiff jvmEvent.timestamp timestamp < 0 then
      let m := findExact timestamp jvmQueue
      { m with trash := jvmEvent :: m.trash }
    else if exactDiff jvmEvent.timestamp timestamp < 1000 then ⟨some jvmEvent, jvmQueue, []⟩
    else ⟨none, jvmEvent :: jvmQueue, []⟩

/-- The take-over test on integers. -/
def takesOverExact (lastBpf : BpfEvent) (lastJvm : JvmEvent) (timestamp : UInt64) : Bool :=
  decide (0 < exactDiff lastJvm.timestamp timestamp ∧
    exactDiff lastJvm.timestamp timestamp < exactDiff lastJvm.timestamp lastBpf.timestamp)

def takeOverExact (ret : List Pair) (timestamp : UInt64) : Bool :=
  match ret with
  | (lastBpf, some lastJvm) :: _ => takesOverExact lastBpf lastJvm timestamp
  | _ => false

/-- The give-up test on integers: an event later than the clock has a negative age. -/
def givesUpExact (now timestamp : UInt64) : Bool := decide (30000 ≤ exactDiff now timestamp)

/-- One iteration of the inner loop on integers. -/
def sweepEventExact (now : UInt64) (bpfEvent : BpfEvent) (jvmQueue : List JvmEvent)
    (ret : List Pair) : Iteration :=
  if takeOverExact ret bpfEvent.timestamp then
    .report ((bpfEvent, lastJvm ret) :: detach ret) jvmQueue []
  else
    let m := findExact bpfEvent.timestamp jvmQueue
    match m.found with
    | some jvmEvent => .report ((bpfEvent, some jvmEvent) :: ret) m.left m.trash
    | none =>
      if !m.left.isEmpty then .report ((bpfEvent, none) :: ret) m.left m.trash
      else if givesUpExact now bpfEvent.timestamp then
        .report ((bpfEvent, none) :: ret) m.left m.trash
      else .wait m.left m.trash

/-- The visit of a thread on integers. -/
def sweepThreadExact (now : UInt64) : List BpfEvent → List JvmEvent → List Pair → Visit
  | [], jvmQueue, ret => ⟨[], jvmQueue, ret, []⟩
  | bpfEvent :: bpfQueue, jvmQueue, ret =>
    match sweepEventExact now bpfEvent jvmQueue ret with
    | .report ret' jvmQueue' trash =>
      let v := sweepThreadExact now bpfQueue jvmQueue' ret'
      { v with trash := trash.map (⟨bpfEvent :: bpfQueue, ·⟩) ++ v.trash }
    | .wait jvmQueue' trash =>
      ⟨bpfEvent :: bpfQueue, jvmQueue', ret, trash.map (⟨bpfEvent :: bpfQueue, ·⟩)⟩

/-- The state of the outer loop on integers: the queue of every thread, the result vector newest
first, and what was trashed. -/
structure ExactLoop where
  bpf : UInt32 → List BpfEvent
  jvm : UInt32 → List JvmEvent
  ret : List Pair
  trash : List Trashed

/-- The visit of one thread in the outer loop on integers. -/
def sweepTidExact (now : UInt64) (l : ExactLoop) (tid : UInt32) : ExactLoop :=
  let v := sweepThreadExact now (l.bpf tid) (l.jvm tid) l.ret
  ⟨Function.update l.bpf tid v.bpf, Function.update l.jvm tid v.jvm, v.ret, l.trash ++ v.trash⟩

/-- The queues of a stream, at the start of a sweep. -/
def EventStream.queues (s : EventStream) : ExactLoop :=
  ⟨s.bpfEvents.queue, s.jvmEvents.queue, [], []⟩

/-- The sweep on integers. -/
def EventStream.sweepExact (now : UInt64) (order : List UInt32) (s : EventStream) : ExactLoop :=
  order.foldl (sweepTidExact now) s.queues

/-- A sweep answered what the exact loop ends with. -/
structure Swept.Is (out : Swept) (l : ExactLoop) : Prop where
  returned : out.returned = l.ret.reverse
  trash : out.trash = l.trash
  bpf : ∀ t, out.stream.bpfEvents.queue t = l.bpf t
  jvm : ∀ t, out.stream.jvmEvents.queue t = l.jvm t

/-! ## The condition -/

/-- What the matching of a BPF event compares fits: the first queued JVM event not before it, and
if there is none, its own age. -/
def FitsEvent (now timestamp : UInt64) (q : List JvmEvent) : Prop :=
  match q.find? (fun j => timestamp ≤ j.timestamp) with
  | some j => Small j.timestamp
  | none => timestamp ≤ now

/-- Every BPF event of a visit that takes nothing over fits, along the exact visit. -/
def Fits (now : UInt64) : List BpfEvent → List JvmEvent → List Pair → Prop
  | [], _, _ => True
  | e :: bpf, q, ret =>
    (takeOverExact ret e.timestamp = false → FitsEvent now e.timestamp q) ∧
      match sweepEventExact now e q ret with
      | .report ret' q' _ => Fits now bpf q' ret'
      | .wait _ _ => True

/-- Every visit of the outer loop fits, along the exact loop. -/
def FitsLoop (now : UInt64) : List UInt32 → ExactLoop → Prop
  | [], _ => True
  | tid :: order, l =>
    Fits now (l.bpf tid) (l.jvm tid) l.ret ∧ FitsLoop now order (sweepTidExact now l tid)

/-- The sweep fits. -/
def EventStream.Fits (now : UInt64) (order : List UInt32) (s : EventStream) : Prop :=
  FitsLoop now order s.queues

/-! ## One comparison -/

/-- The signed reading of a value from 2^63 on is negative. -/
theorem signed_neg {x : UInt64} (h : ¬ Small x) : signed x < 0 := by
  show x.toBitVec.toInt < 0
  rw [BitVec.toInt_neg_iff]
  show 2 ^ 64 ≤ 2 * x.toNat
  omega

/-- The fixed-width difference of two timestamps below 2^63 is the exact one. -/
theorem subI64_exact (o : Overflow) {x y : UInt64} (hx : Small x) (hy : Small y) :
    subI64 o (signed x) (signed y) = some (exactDiff x y) := subI64_signed o hx hy

theorem exactDiff_neg {x y : UInt64} : exactDiff x y < 0 ↔ ¬ y ≤ x := by
  rw [UInt64.not_le, UInt64.lt_iff_toNat_lt, exactDiff]
  omega

/-- The matching loop is exact, when the first JVM event not before the timestamp is below
2^63. -/
theorem find_eq_exact (o : Overflow) {timestamp : UInt64} {q : List JvmEvent}
    (ht : Small timestamp)
    (hq : ∀ j ∈ q.find? (fun j => timestamp ≤ j.timestamp), Small j.timestamp) :
    findMatchingJvmEvent o timestamp q = some (findExact timestamp q) := by
  induction q with
  | nil => rfl
  | cons j q ih =>
    by_cases hle : timestamp ≤ j.timestamp
    · have hj : Small j.timestamp := hq j (by simp [hle])
      have hneg : ¬ exactDiff j.timestamp timestamp < 0 := fun h => exactDiff_neg.mp h hle
      simp only [findMatchingJvmEvent, subI64_exact o hj ht, findExact, threshold_asMillis,
        Option.bind_eq_bind, Option.bind_some, if_neg hneg]
      by_cases hnear : exactDiff j.timestamp timestamp < 1000
      · rw [if_pos hnear, if_pos (by simpa using hnear)]
        rfl
      · rw [if_neg hnear, if_neg (by simpa using hnear)]
        rfl
    · have hlt := UInt64.lt_iff_toNat_lt.mp (UInt64.not_le.mp hle)
      have hj : Small j.timestamp := Nat.lt_trans hlt ht
      have hrest := ih fun j' hj' => hq j' (by simpa [hle] using hj')
      simp only [findMatchingJvmEvent, subI64_exact o hj ht, findExact, hrest,
        Option.bind_eq_bind, Option.bind_some, if_pos (exactDiff_neg.mpr hle)]
      rfl

/-- With overflow checks, a JVM event from 2^63 on stops the matching loop or gets trashed. -/
theorem find_abort_large {timestamp : UInt64} {q : List JvmEvent} (ht : Small timestamp)
    {j : JvmEvent} (hj : j ∈ q.find? (fun j => timestamp ≤ j.timestamp))
    (hlarge : ¬ Small j.timestamp) {m : Matching}
    (h : findMatchingJvmEvent .abort timestamp q = some m) : j ∈ m.trash := by
  induction q generalizing m with
  | nil => cases hj
  | cons j' q ih =>
    by_cases hle : timestamp ≤ j'.timestamp
    · obtain rfl : j' = j := by simpa [hle] using hj
      simp only [findMatchingJvmEvent, Option.bind_eq_bind, Option.bind_eq_some_iff] at h
      obtain ⟨d, hd, h⟩ := h
      have hneg : d < 0 := by
        unfold subI64 at hd
        split at hd
        · have hsigned := signed_neg hlarge
          rw [signed_of_lt ht, Option.some.injEq] at hd
          omega
        · cases hd
      rw [if_pos hneg] at h
      obtain ⟨m', _, h⟩ := Option.bind_eq_some_iff.mp h
      cases h
      exact List.mem_cons_self
    · have hlt := UInt64.lt_iff_toNat_lt.mp (UInt64.not_le.mp hle)
      have hj' : Small j'.timestamp := Nat.lt_trans hlt ht
      simp only [findMatchingJvmEvent, subI64_exact .abort hj' ht, Option.bind_eq_bind,
        Option.bind_some, if_pos (exactDiff_neg.mpr hle)] at h
      obtain ⟨m', hm', h⟩ := Option.bind_eq_some_iff.mp h
      cases h
      exact List.mem_cons_of_mem _ (ih (by simpa [hle] using hj) hm')

/-- The take-over test is exact on a result vector inside the window. -/
theorem takeOver?_eq_exact (o : Overflow) {ret : List Pair} {timestamp : UInt64}
    (ht : Small timestamp) (hret : ∀ p ∈ ret, WindowPair p) :
    takeOver? o ret timestamp = some (takeOverExact ret timestamp) := by
  rcases ret with _ | ⟨⟨b, _ | j⟩, older⟩
  · rfl
  · rfl
  · show takesOver o b j timestamp = some (takesOverExact b j timestamp)
    obtain ⟨hwin, hb, hj⟩ : InWindow b j ∧ Small b.timestamp ∧ Small j.timestamp :=
      hret _ List.mem_cons_self j rfl
    unfold InWindow lag at hwin
    have hle : b.timestamp ≤ j.timestamp := UInt64.le_iff_toNat_le.mpr (by omega)
    rw [takesOver_eq o hj ht hle, takesOverExact, Option.some.injEq, decide_eq_decide,
      UInt64.lt_iff_toNat_lt, UInt64.lt_iff_toNat_lt]
    unfold exactDiff
    omega

/-- The give-up test is exact on events that are not later than the clock. -/
theorem givesUp_eq_exact (o : Overflow) {now timestamp : UInt64} (h : timestamp ≤ now) :
    givesUp o now timestamp = some (givesUpExact now timestamp) := by
  have hle := UInt64.le_iff_toNat_le.mp h
  rw [givesUp_eq o h, givesUpExact, Option.some.injEq, decide_eq_decide]
  unfold exactDiff
  omega

/-- With overflow checks, an event later than the clock stops the give-up test. -/
theorem givesUp_abort_later {now timestamp : UInt64} (h : ¬ timestamp ≤ now) :
    givesUp .abort now timestamp = none := by
  simp [givesUp, subU64, h]

/-- Where no queued JVM event is left for the timestamp, all are trashed. -/
theorem findExact_none {timestamp : UInt64} {q : List JvmEvent}
    (h : q.find? (fun j => timestamp ≤ j.timestamp) = none) :
    findExact timestamp q = ⟨none, [], q⟩ := by
  induction q with
  | nil => rfl
  | cons j q ih =>
    have hlt : ¬ timestamp ≤ j.timestamp := by
      intro hle
      simp [hle] at h
    have hrest := ih (by simpa [hlt] using h)
    rw [findExact, if_pos (exactDiff_neg.mpr hlt), hrest]

/-- The first JVM event not before the timestamp is found, or stays queued. -/
theorem findExact_some {timestamp : UInt64} {q : List JvmEvent} {j : JvmEvent}
    (h : q.find? (fun j => timestamp ≤ j.timestamp) = some j) :
    (findExact timestamp q).found = some j ∨
      (findExact timestamp q).found = none ∧ (findExact timestamp q).left ≠ [] := by
  induction q with
  | nil => cases h
  | cons j' q ih =>
    by_cases hle : timestamp ≤ j'.timestamp
    · obtain rfl : j' = j := by simpa [hle] using h
      have hneg : ¬ exactDiff j'.timestamp timestamp < 0 := fun h => exactDiff_neg.mp h hle
      rw [findExact, if_neg hneg]
      by_cases hnear : exactDiff j'.timestamp timestamp < 1000
      · rw [if_pos hnear]
        exact .inl rfl
      · rw [if_neg hnear]
        exact .inr ⟨rfl, List.cons_ne_nil _ _⟩
    · rw [findExact, if_pos (exactDiff_neg.mpr hle)]
      exact ih (by simpa [hle] using h)

/-- What the exact matching trashes lies before the timestamp. -/
theorem findExact_trash {timestamp : UInt64} {q : List JvmEvent} :
    ∀ j ∈ (findExact timestamp q).trash, j.timestamp < timestamp := by
  induction q with
  | nil => simp [findExact]
  | cons j q ih =>
    rw [findExact]
    split
    · next hneg =>
      intro j' hj'
      rcases List.mem_cons.mp hj' with rfl | hj'
      · exact UInt64.not_le.mp (exactDiff_neg.mp hneg)
      · exact ih j' hj'
    · split <;> simp

/-- The exact matching removes events from the front of the JVM queue only. -/
theorem findExact_left {timestamp : UInt64} {q : List JvmEvent} :
    (findExact timestamp q).left <:+ q := by
  induction q with
  | nil => exact List.suffix_refl _
  | cons j q ih =>
    rw [findExact]
    split
    · exact ih.trans (List.suffix_cons _ _)
    · split
      · exact List.suffix_cons _ _
      · exact List.suffix_refl _

/-! ## One iteration -/

/-- What an iteration leaves of the JVM queue. -/
def Iteration.jvm : Iteration → List JvmEvent
  | .report _ jvmQueue _ => jvmQueue
  | .wait jvmQueue _ => jvmQueue

/-- What an iteration trashes. -/
def Iteration.trash : Iteration → List JvmEvent
  | .report _ _ trash => trash
  | .wait _ trash => trash

/-- An iteration that fits is exact. -/
theorem sweepEvent_eq_exact (o : Overflow) {now : UInt64} {e : BpfEvent} {q : List JvmEvent}
    {ret : List Pair} (he : Small e.timestamp) (hret : ∀ p ∈ ret, WindowPair p)
    (hfits : takeOverExact ret e.timestamp = false → FitsEvent now e.timestamp q) :
    sweepEvent o now e q ret = some (sweepEventExact now e q ret) := by
  simp only [sweepEvent, sweepEventExact, takeOver?_eq_exact o he hret, Option.bind_eq_bind,
    Option.bind_some]
  cases htake : takeOverExact ret e.timestamp with
  | true => rfl
  | false =>
    have hfit := hfits htake
    unfold FitsEvent at hfit
    cases hq : q.find? (fun j => e.timestamp ≤ j.timestamp) with
    | none =>
      rw [hq] at hfit
      rw [find_eq_exact o he (by simp [hq]), findExact_none hq, givesUp_eq_exact o hfit]
      simp only [Option.bind_some]
      cases givesUpExact now e.timestamp <;> rfl
    | some j =>
      rw [hq] at hfit
      rw [find_eq_exact o he (by simpa [hq] using hfit)]
      simp only [Option.bind_some]
      rcases findExact_some hq with hf | ⟨hf, hl⟩
      · rw [hf]
        rfl
      · rw [hf]
        simp [hl]

/-- An iteration that does not fit stops a build with overflow checks, or trashes a JVM event from
2^63 on. -/
theorem sweepEvent_abort_unfit {now : UInt64} {e : BpfEvent} {q : List JvmEvent}
    {ret : List Pair} {r : Iteration} (he : Small e.timestamp) (hret : ∀ p ∈ ret, WindowPair p)
    (hno : takeOverExact ret e.timestamp = false) (hunfit : ¬ FitsEvent now e.timestamp q)
    (h : sweepEvent .abort now e q ret = some r) : ∃ j ∈ r.trash, ¬ Small j.timestamp := by
  simp only [sweepEvent, takeOver?_eq_exact .abort he hret, hno, Option.bind_eq_bind,
    Option.bind_some, Bool.false_eq_true, if_false, Option.bind_eq_some_iff] at h
  obtain ⟨m, hm, h⟩ := h
  unfold FitsEvent at hunfit
  cases hq : q.find? (fun j => e.timestamp ≤ j.timestamp) with
  | none =>
    rw [hq] at hunfit
    rw [find_eq_exact .abort he (by simp [hq]), findExact_none hq, Option.some.injEq] at hm
    subst hm
    simp [givesUp_abort_later hunfit] at h
  | some j =>
    rw [hq] at hunfit
    have hj : j ∈ m.trash := find_abort_large he hq hunfit hm
    have htrash : r.trash = m.trash := by
      cases hf : m.found with
      | some j' =>
        rw [hf] at h
        cases h
        rfl
      | none =>
        rw [hf] at h
        simp only at h
        split at h
        · cases h
          rfl
        · obtain ⟨old, _, h⟩ := Option.bind_eq_some_iff.mp h
          cases old <;> cases h <;> rfl
    exact ⟨j, htrash ▸ hj, hunfit⟩

/-- A fitting iteration keeps the result vector inside the window. -/
theorem sweepEventExact_window {now : UInt64} {e : BpfEvent} {q : List JvmEvent}
    {ret : List Pair} (he : Small e.timestamp) (hret : ∀ p ∈ ret, WindowPair p)
    (hfits : takeOverExact ret e.timestamp = false → FitsEvent now e.timestamp q) :
    ∀ p ∈ (sweepEventExact now e q ret).retFrom ret, WindowPair p := by
  have hit := iterates_of_sweepEvent (sweepEvent_eq_exact .wrap he hret hfits)
  refine (hit.window he (fun hno m j hm hf => ?_) hret).2
  rw [takeOver?_eq_exact .wrap he hret, Option.some.injEq] at hno
  have hfit := hfits hno
  unfold FitsEvent at hfit
  cases hq : q.find? (fun j => e.timestamp ≤ j.timestamp) with
  | none =>
    rw [find_eq_exact .wrap he (by simp [hq]), findExact_none hq, Option.some.injEq] at hm
    subst hm
    cases hf
  | some j' =>
    rw [hq] at hfit
    rw [find_eq_exact .wrap he (by simpa [hq] using hfit), Option.some.injEq] at hm
    subst hm
    rcases findExact_some hq with hf' | ⟨hf', _⟩
    · rw [hf', Option.some.injEq] at hf
      exact hf ▸ hfit
    · rw [hf'] at hf
      cases hf

/-- An exact iteration that takes nothing over leaves and trashes what the matching does. -/
theorem sweepEventExact_queue (now : UInt64) (e : BpfEvent) (q : List JvmEvent)
    (ret : List Pair) :
    (sweepEventExact now e q ret).jvm = q ∧ (sweepEventExact now e q ret).trash = [] ∨
      (sweepEventExact now e q ret).jvm = (findExact e.timestamp q).left ∧
        (sweepEventExact now e q ret).trash = (findExact e.timestamp q).trash := by
  unfold sweepEventExact
  split
  · exact .inl ⟨rfl, rfl⟩
  · simp only
    split
    · exact .inr ⟨rfl, rfl⟩
    · split
      · exact .inr ⟨rfl, rfl⟩
      · split <;> exact .inr ⟨rfl, rfl⟩

/-- What an exact iteration trashes lies before the front event. -/
theorem sweepEventExact_trash {now : UInt64} {e : BpfEvent} {q : List JvmEvent}
    {ret : List Pair} : ∀ j ∈ (sweepEventExact now e q ret).trash, j.timestamp < e.timestamp := by
  intro j hj
  rcases sweepEventExact_queue now e q ret with ⟨_, hnil⟩ | ⟨_, heq⟩
  · rw [hnil] at hj
    cases hj
  · rw [heq] at hj
    exact findExact_trash j hj

/-- An exact iteration removes events from the front of the JVM queue only. -/
theorem sweepEventExact_jvm {now : UInt64} {e : BpfEvent} {q : List JvmEvent}
    {ret : List Pair} : (sweepEventExact now e q ret).jvm <:+ q := by
  rcases sweepEventExact_queue now e q ret with ⟨heq, _⟩ | ⟨heq, _⟩
  · rw [heq]
  · rw [heq]
    exact findExact_left

/-! ## A visit -/

/-- A visit that fits is exact, and stays inside the window. -/
theorem sweepThread_eq_exact (o : Overflow) {now : UInt64} {bpf : List BpfEvent}
    {q : List JvmEvent} {ret : List Pair} (hbpf : ∀ b ∈ bpf, Small b.timestamp)
    (hret : ∀ p ∈ ret, WindowPair p) (hfits : Fits now bpf q ret) :
    sweepThread o now bpf q ret = some (sweepThreadExact now bpf q ret) ∧
      ∀ p ∈ (sweepThreadExact now bpf q ret).ret, WindowPair p := by
  induction bpf generalizing q ret with
  | nil => exact ⟨rfl, hret⟩
  | cons e bpf ih =>
    have he := hbpf e List.mem_cons_self
    obtain ⟨hfit, hrest⟩ := hfits
    have hev := sweepEvent_eq_exact o he hret hfit
    have hwin := sweepEventExact_window he hret hfit
    simp only [sweepThread, sweepThreadExact, hev, Option.bind_eq_bind, Option.bind_some]
    cases hr : sweepEventExact now e q ret with
    | report ret' q' trash =>
      rw [hr] at hrest hwin
      simp only [Iteration.retFrom] at hwin
      obtain ⟨hv, hvwin⟩ := ih (fun b hb => hbpf b (List.mem_cons_of_mem _ hb)) hwin hrest
      refine ⟨?_, hvwin⟩
      show (sweepThread o now bpf q' ret').bind _ = _
      rw [hv]
      rfl
    | wait q' trash => exact ⟨rfl, hret⟩

/-- A visit that does not fit stops a build with overflow checks, or trashes a JVM event from 2^63
on. -/
theorem sweepThread_abort_unfit {now : UInt64} {bpf : List BpfEvent} {q : List JvmEvent}
    {ret : List Pair} {v : Visit} (hbpf : ∀ b ∈ bpf, Small b.timestamp)
    (hret : ∀ p ∈ ret, WindowPair p) (hunfit : ¬ Fits now bpf q ret)
    (h : sweepThread .abort now bpf q ret = some v) :
    ∃ tr ∈ v.trash, ¬ Small tr.jvm.timestamp := by
  induction bpf generalizing q ret v with
  | nil => exact absurd trivial hunfit
  | cons e bpf ih =>
    have he := hbpf e List.mem_cons_self
    by_cases hfit : takeOverExact ret e.timestamp = false → FitsEvent now e.timestamp q
    · -- the first iteration is exact, so a later one does not fit
      have hev := sweepEvent_eq_exact .abort he hret hfit
      have hwin := sweepEventExact_window he hret hfit
      have hrest : ¬ match sweepEventExact now e q ret with
          | .report ret' q' _ => Fits now bpf q' ret'
          | .wait _ _ => True := fun hrest => hunfit ⟨hfit, hrest⟩
      rcases sweepThread_cons h with ⟨ret', q', trash, v', hev', hv', rfl⟩ | ⟨q', trash, hev', rfl⟩
      · rw [hev, Option.some.injEq] at hev'
        rw [hev'] at hrest hwin
        obtain ⟨tr, htr, hlarge⟩ :=
          ih (fun b hb => hbpf b (List.mem_cons_of_mem _ hb)) hwin hrest hv'
        exact ⟨tr, List.mem_append_right _ htr, hlarge⟩
      · rw [hev, Option.some.injEq] at hev'
        rw [hev'] at hrest
        exact absurd trivial hrest
    · rw [Classical.not_imp] at hfit
      obtain ⟨hno, hunfit⟩ := hfit
      have first : ∀ {r : Iteration}, sweepEvent .abort now e q ret = some r →
          ∃ j ∈ r.trash, ¬ Small j.timestamp := sweepEvent_abort_unfit he hret hno hunfit
      rcases sweepThread_cons h with ⟨ret', q', trash, v', hev', hv', rfl⟩ | ⟨q', trash, hev', rfl⟩
      · obtain ⟨j, hj, hlarge⟩ := first hev'
        exact ⟨_, List.mem_append_left _ (List.mem_map_of_mem hj), hlarge⟩
      · obtain ⟨j, hj, hlarge⟩ := first hev'
        exact ⟨_, List.mem_map_of_mem hj, hlarge⟩

/-- What an exact visit trashes lies before a BPF event of the visit. -/
theorem sweepThreadExact_trash {now : UInt64} {bpf : List BpfEvent} {q : List JvmEvent}
    {ret : List Pair} (hbpf : ∀ b ∈ bpf, Small b.timestamp) :
    ∀ tr ∈ (sweepThreadExact now bpf q ret).trash, Small tr.jvm.timestamp := by
  induction bpf generalizing q ret with
  | nil => simp [sweepThreadExact]
  | cons e bpf ih =>
    have front : ∀ tr ∈ (sweepEventExact now e q ret).trash.map
        (fun j => (⟨e :: bpf, j⟩ : Trashed)), Small tr.jvm.timestamp := by
      intro tr htr
      obtain ⟨j, hj, rfl⟩ := List.mem_map.mp htr
      have hlt := UInt64.lt_iff_toNat_lt.mp (sweepEventExact_trash j hj)
      exact Nat.lt_trans hlt (hbpf e List.mem_cons_self)
    rw [sweepThreadExact]
    cases hr : sweepEventExact now e q ret with
    | report ret' q' trash =>
      rw [hr] at front
      intro tr htr
      rcases List.mem_append.mp htr with htr | htr
      · exact front tr htr
      · exact ih (fun b hb => hbpf b (List.mem_cons_of_mem _ hb)) tr htr
    | wait q' trash =>
      rw [hr] at front
      exact front

/-- An exact visit removes events from the front of the two queues only. -/
theorem sweepThreadExact_suffixes {now : UInt64} {bpf : List BpfEvent} {q : List JvmEvent}
    {ret : List Pair} : (sweepThreadExact now bpf q ret).bpf <:+ bpf ∧
      (sweepThreadExact now bpf q ret).jvm <:+ q := by
  induction bpf generalizing q ret with
  | nil => exact ⟨List.suffix_refl _, List.suffix_refl _⟩
  | cons e bpf ih =>
    have hjvm := @sweepEventExact_jvm now e q ret
    rw [sweepThreadExact]
    cases hr : sweepEventExact now e q ret with
    | report ret' q' trash =>
      rw [hr] at hjvm
      exact ⟨ih.1.trans (List.suffix_cons _ _), ih.2.trans hjvm⟩
    | wait q' trash =>
      rw [hr] at hjvm
      exact ⟨List.suffix_refl _, hjvm⟩

/-! ## The outer loop -/

/-- The loop state of the code holds what the exact loop holds. -/
structure SweepLoop.Is (l : SweepLoop) (exact : ExactLoop) : Prop where
  bpf : ∀ t, l.bpfEvents.queue t = exact.bpf t
  jvm : ∀ t, l.jvmEvents.queue t = exact.jvm t
  ret : l.ret = exact.ret
  trash : l.trash = exact.trash

/-- What an exact visit leaves of every queue. -/
theorem sweepTidExact_suffixes {now : UInt64} {l : ExactLoop} {tid t : UInt32} :
    (sweepTidExact now l tid).bpf t <:+ l.bpf t ∧ (sweepTidExact now l tid).jvm t <:+ l.jvm t := by
  show Function.update l.bpf tid _ t <:+ l.bpf t ∧ Function.update l.jvm tid _ t <:+ l.jvm t
  by_cases ht : t = tid
  · subst ht
    rw [Function.update_self, Function.update_self]
    exact sweepThreadExact_suffixes
  · rw [Function.update_of_ne ht, Function.update_of_ne ht]
    exact ⟨List.suffix_refl _, List.suffix_refl _⟩

/-- The visit of a thread whose visit is exact. -/
theorem SweepLoop.Is.step {o : Overflow} {now : UInt64} {l : SweepLoop} {exact : ExactLoop}
    {tid : UInt32} (his : l.Is exact) (hq : l.bpfEvents.queue tid ≠ [])
    (hv : sweepThread o now (exact.bpf tid) (exact.jvm tid) exact.ret =
      some (sweepThreadExact now (exact.bpf tid) (exact.jvm tid) exact.ret)) :
    ∃ l', sweepTid o now l tid = some l' ∧ l'.Is (sweepTidExact now exact tid) := by
  rw [← his.bpf tid, ← his.jvm tid, ← his.ret] at hv
  obtain ⟨l', hl'⟩ := sweepTid_isSome hq hv
  obtain ⟨⟨v, hv', hbpf, hjvm, hret, htrash⟩, hbpf_other, hjvm_other⟩ := sweptTid_of_sweepTid hl'
  rw [hv, Option.some.injEq] at hv'
  have hvisit : v = sweepThreadExact now (exact.bpf tid) (exact.jvm tid) exact.ret := by
    rw [← his.bpf tid, ← his.jvm tid, ← his.ret]
    exact hv'.symm
  refine ⟨l', hl', fun t => ?_, fun t => ?_, hret.trans (congrArg Visit.ret hvisit), ?_⟩
  · show _ = Function.update exact.bpf tid _ t
    by_cases ht : t = tid
    · rw [ht, Function.update_self, hbpf, hvisit]
    · rw [Function.update_of_ne ht, hbpf_other t ht, his.bpf t]
  · show _ = Function.update exact.jvm tid _ t
    by_cases ht : t = tid
    · rw [ht, Function.update_self, hjvm, hvisit]
    · rw [Function.update_of_ne ht, hjvm_other t ht, his.jvm t]
  · rw [htrash, his.trash, hvisit]
    rfl

/-- What the loops share at every visit: the code's state is the exact one, the BPF timestamps are
below 2^63, and the result vector is inside the window. -/
structure Lockstep (l : SweepLoop) (exact : ExactLoop) : Prop where
  same : l.Is exact
  small : ∀ t, ∀ b ∈ exact.bpf t, Small b.timestamp
  window : ∀ p ∈ exact.ret, WindowPair p

theorem Lockstep.step (o : Overflow) {now : UInt64} {l : SweepLoop} {exact : ExactLoop}
    {tid : UInt32} (h : Lockstep l exact) (hq : l.bpfEvents.queue tid ≠ [])
    (hfits : Fits now (exact.bpf tid) (exact.jvm tid) exact.ret) :
    ∃ l', sweepTid o now l tid = some l' ∧ Lockstep l' (sweepTidExact now exact tid) := by
  obtain ⟨hv, hwin⟩ := sweepThread_eq_exact o (h.small tid) h.window hfits
  obtain ⟨l', hl', his⟩ := h.same.step hq hv
  exact ⟨l', hl', his, fun t b hb => h.small t b (sweepTidExact_suffixes.1.subset hb), hwin⟩

/-- A loop that fits runs in lockstep with the exact one to its end. -/
theorem Lockstep.exec (o : Overflow) {now : UInt64} {order : List UInt32} {l : SweepLoop}
    {exact : ExactLoop} (h : Lockstep l exact) (hn : order.Nodup)
    (hq : ∀ t ∈ order, l.bpfEvents.queue t ≠ []) (hfits : FitsLoop now order exact) :
    ∃ l', Base.exec (sweepTid o now) l order = some l' ∧
      Lockstep l' (order.foldl (sweepTidExact now) exact) := by
  induction order generalizing l exact with
  | nil => exact ⟨l, rfl, h⟩
  | cons tid order ih =>
    obtain ⟨htid, hn⟩ := List.nodup_cons.mp hn
    obtain ⟨m, hm, hlock⟩ := h.step o (hq tid List.mem_cons_self) hfits.1
    obtain ⟨l', hl', hlast⟩ :=
      ih hlock hn ((sweptTid_of_sweepTid hm).unvisited htid hq) hfits.2
    exact ⟨l', exec_cons.mpr ⟨m, hm, hl'⟩, hlast⟩

/-- The outer loop keeps what it has trashed. -/
theorem trash_subset_of_exec {o : Overflow} {now : UInt64} {order : List UInt32}
    {l l' : SweepLoop} (h : exec (sweepTid o now) l order = some l') : l.trash ⊆ l'.trash := by
  refine exec_keeps (I := fun m => l.trash ⊆ m.trash) (fun m t m' hI hstep => ?_)
    (List.Subset.refl _) h
  obtain ⟨v, _, _, _, _, htrash⟩ := (sweptTid_of_sweepTid hstep).visit
  rw [htrash]
  exact fun tr htr => List.mem_append_left _ (hI htr)

/-- A loop that does not fit stops a build with overflow checks, or trashes a JVM event from 2^63
on. -/
theorem Lockstep.abort_unfit {now : UInt64} {order : List UInt32} {l l' : SweepLoop}
    {exact : ExactLoop} (h : Lockstep l exact) (hn : order.Nodup)
    (hq : ∀ t ∈ order, l.bpfEvents.queue t ≠ []) (hunfit : ¬ FitsLoop now order exact)
    (hl : Base.exec (sweepTid .abort now) l order = some l') :
    ∃ tr ∈ l'.trash, ¬ Small tr.jvm.timestamp := by
  induction order generalizing l exact with
  | nil => exact absurd trivial hunfit
  | cons tid order ih =>
    obtain ⟨htid, hn⟩ := List.nodup_cons.mp hn
    obtain ⟨m, hm, hrest⟩ := exec_cons.mp hl
    by_cases hfits : Fits now (exact.bpf tid) (exact.jvm tid) exact.ret
    · obtain ⟨m', hm', hlock⟩ := h.step .abort (hq tid List.mem_cons_self) hfits
      rw [hm, Option.some.injEq] at hm'
      subst hm'
      exact ih hlock hn ((sweptTid_of_sweepTid hm).unvisited htid hq)
        (fun hloop => hunfit ⟨hfits, hloop⟩) hrest
    · obtain ⟨v, hv, _, _, _, htrash⟩ := (sweptTid_of_sweepTid hm).visit
      rw [h.same.bpf, h.same.jvm, h.same.ret] at hv
      obtain ⟨tr, htr, hlarge⟩ := sweepThread_abort_unfit (h.small tid) h.window hfits hv
      refine ⟨tr, trash_subset_of_exec hrest ?_, hlarge⟩
      rw [htrash]
      exact List.mem_append_right _ htr

/-- The exact loop trashes no JVM event from 2^63 on. -/
theorem sweepExact_trash {now : UInt64} {order : List UInt32} {exact : ExactLoop}
    (hbpf : ∀ t, ∀ b ∈ exact.bpf t, Small b.timestamp)
    (htrash : ∀ tr ∈ exact.trash, Small tr.jvm.timestamp) :
    ∀ tr ∈ (order.foldl (sweepTidExact now) exact).trash, Small tr.jvm.timestamp := by
  induction order generalizing exact with
  | nil => exact htrash
  | cons tid order ih =>
    refine ih (fun t b hb => hbpf t b (sweepTidExact_suffixes.1.subset hb)) fun tr htr => ?_
    rcases List.mem_append.mp htr with htr | htr
    · exact htrash tr htr
    · exact sweepThreadExact_trash (hbpf tid) tr htr

/-! ## The sweep -/

theorem EventStream.lockstep {s : EventStream}
    (hbpf : ∀ t, ∀ b ∈ s.bpfEvents.queue t, Small b.timestamp) :
    Lockstep ⟨s.bpfEvents, s.jvmEvents, [], []⟩ s.queues :=
  ⟨⟨fun _ => rfl, fun _ => rfl, rfl, rfl⟩, hbpf, by simp [EventStream.queues]⟩

/-- A sweep that fits is exact. -/
theorem sweep_eq_exact (o : Overflow) {now : UInt64} {order : List UInt32} {s : EventStream}
    (hbpf : ∀ t, ∀ b ∈ s.bpfEvents.queue t, Small b.timestamp) (hv : s.bpfEvents.Visits order)
    (hfits : s.Fits now order) :
    ∃ out, s.sweep o now order = some out ∧ out.Is (s.sweepExact now order) := by
  obtain ⟨l, hl, hlock⟩ := (EventStream.lockstep hbpf).exec o hv.1
    (fun t ht => (hv.mem_iff t).mp ht) hfits
  refine ⟨_, sweep_eq_some.mpr ⟨l, hl, rfl⟩, ?_, hlock.same.trash, hlock.same.bpf,
    hlock.same.jvm⟩
  rw [hlock.same.ret]
  rfl

/-- Small JVM timestamps and a clock that is not behind fit every visit. -/
theorem fits_of_small {now : UInt64} {bpf : List BpfEvent} {q : List JvmEvent} {ret : List Pair}
    (hclock : ∀ b ∈ bpf, b.timestamp ≤ now) (hq : ∀ j ∈ q, Small j.timestamp) :
    Fits now bpf q ret := by
  induction bpf generalizing q ret with
  | nil => trivial
  | cons e bpf ih =>
    refine ⟨fun _ => ?_, ?_⟩
    · unfold FitsEvent
      split
      · next j hj => exact hq j (List.mem_of_find?_eq_some hj)
      · exact hclock e List.mem_cons_self
    · split
      · next ret' q' trash hev =>
        have hleft : q' <:+ q := by
          have hjvm := @sweepEventExact_jvm now e q ret
          rwa [hev] at hjvm
        exact ih (fun b hb => hclock b (List.mem_cons_of_mem _ hb))
          fun j hj => hq j (hleft.subset hj)
      · trivial

/-- A sweep of a stream with timestamps below 2^63, at a clock that is not behind its BPF events,
is exact. -/
theorem sweep_of_small (o : Overflow) {now : UInt64} {order : List UInt32} {s : EventStream}
    (hbpf : ∀ t, ∀ b ∈ s.bpfEvents.queue t, Small b.timestamp)
    (hjvm : ∀ t, ∀ j ∈ s.jvmEvents.queue t, Small j.timestamp)
    (hclock : ∀ t, ∀ b ∈ s.bpfEvents.queue t, b.timestamp ≤ now)
    (hv : s.bpfEvents.Visits order) :
    ∃ out, s.sweep o now order = some out ∧ out.Is (s.sweepExact now order) := by
  have loop : ∀ (order : List UInt32) (l : ExactLoop),
      (∀ t, ∀ b ∈ l.bpf t, b.timestamp ≤ now) → (∀ t, ∀ j ∈ l.jvm t, Small j.timestamp) →
      FitsLoop now order l := by
    intro order
    induction order with
    | nil => exact fun _ _ _ => trivial
    | cons tid order ih =>
      intro l hb hj
      refine ⟨fits_of_small (hb tid) (hj tid), ih _ (fun t b h => ?_) fun t j h => ?_⟩
      · exact hb t b (sweepTidExact_suffixes.1.subset h)
      · exact hj t j (sweepTidExact_suffixes.2.subset h)
  exact sweep_eq_exact o hbpf hv (loop order s.queues hclock hjvm)

/-- **The fixed-width arithmetic of a sweep is exact**, in builds with overflow checks and without,
exactly when the sweep fits. -/
theorem sweep_exact_iff {now : UInt64} {order : List UInt32} {s : EventStream}
    (hbpf : ∀ t, ∀ b ∈ s.bpfEvents.queue t, b.timestamp.toNat < 2 ^ 63)
    (hv : s.bpfEvents.Visits order) :
    (∀ o, ∃ out, s.sweep o now order = some out ∧ out.Is (s.sweepExact now order)) ↔
      s.Fits now order := by
  refine ⟨fun hexact => ?_, fun hfits o => sweep_eq_exact o hbpf hv hfits⟩
  by_contra hunfit
  obtain ⟨out, hout, his⟩ := hexact .abort
  obtain ⟨l, hl, rfl⟩ := sweep_eq_some.mp hout
  obtain ⟨tr, htr, hlarge⟩ := (EventStream.lockstep hbpf).abort_unfit hv.1
    (fun t ht => (hv.mem_iff t).mp ht) hunfit hl
  have hsame : l.trash = (s.sweepExact now order).trash := his.trash
  rw [hsame] at htr
  have hempty : ∀ tr ∈ s.queues.trash, Small tr.jvm.timestamp := by simp [EventStream.queues]
  exact hlarge (sweepExact_trash hbpf hempty tr htr)

/-- A stream of two threads: a sweep at 21 reports the first event of thread 7 with its sample, and
leaves the second and the event of thread 8. -/
def sampleMixed : EventStream where
  bpfEvents := Filing.empty.pushAll [sampleBpf 7 10, sampleBpf 7 20, sampleBpf 8 15]
  eventCount := 3
  jvmEvents := Filing.empty.pushAll [sampleJvm 7 12]

theorem sampleMixed_bpf {t : UInt32} {b : BpfEvent} (hb : b ∈ sampleMixed.bpfEvents.queue t) :
    b ∈ [sampleBpf 7 10, sampleBpf 7 20, sampleBpf 8 15] := by
  rw [sampleMixed, Filing.queue_pushAll, Filing.queue_empty, List.nil_append] at hb
  exact List.mem_of_mem_filter hb

theorem sampleMixed_jvm {t : UInt32} {j : JvmEvent} (hj : j ∈ sampleMixed.jvmEvents.queue t) :
    j ∈ [sampleJvm 7 12] := by
  rw [sampleMixed, Filing.queue_pushAll, Filing.queue_empty, List.nil_append] at hj
  exact List.mem_of_mem_filter hj

theorem sweep_exact_iff_sampleMixed :
    ((sampleMixed.sweep .abort 21 [7, 8]).map Swept.returned =
        some [(sampleBpf 7 10, some (sampleJvm 7 12))]) ∧
      ((∀ o, ∃ out, sampleMixed.sweep o 21 [7, 8] = some out ∧
        out.Is (sampleMixed.sweepExact 21 [7, 8])) ↔ sampleMixed.Fits 21 [7, 8]) := by
  have hsmall : ∀ b ∈ [sampleBpf 7 10, sampleBpf 7 20, sampleBpf 8 15],
      b.timestamp.toNat < 2 ^ 63 := by decide
  exact ⟨by decide, sweep_exact_iff (fun _ b hb => hsmall b (sampleMixed_bpf hb)) (by decide)⟩

/-- A stream that holds one BPF event, of thread 7 and stamped 10. -/
def sampleWaiting : EventStream := EventStream.new.file (sampleBpf 7 10)

/-- The same with a JVM event stamped 2^63. -/
def sampleFuture : EventStream :=
  { sampleWaiting with jvmEvents := sampleWaiting.jvmEvents.push (sampleJvm 7 9223372036854775808) }

/-- With overflow checks, a clock that was stepped back stops the program, and so does a JVM event
stamped 2^63. -/
theorem not_exact_sampleWaiting :
    (¬ ∀ o, ∃ out, sampleWaiting.sweep o 9 [7] = some out ∧
      out.Is (sampleWaiting.sweepExact 9 [7])) ∧
    ¬ ∀ o, ∃ out, sampleFuture.sweep o 11 [7] = some out ∧
      out.Is (sampleFuture.sweepExact 11 [7]) := by
  have hback : sampleWaiting.sweep .abort 9 [7] = none := by
    apply Option.isNone_iff_eq_none.mp
    decide
  have hfuture : sampleFuture.sweep .abort 11 [7] = none := by
    apply Option.isNone_iff_eq_none.mp
    decide
  constructor
  · intro hall
    obtain ⟨out, hout, _⟩ := hall .abort
    rw [hback] at hout
    cases hout
  · intro hall
    obtain ⟨out, hout, _⟩ := hall .abort
    rw [hfuture] at hout
    cases hout

end Jbm
