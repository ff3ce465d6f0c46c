import Jbm.Stream.Match

/-!
# What one visit can do

The inversion of the three functions of `Stream/Match`: `MatchSpec` says what
`find_matching_jvm_event` did to the queue, `Iterates` lists the four ways an iteration of the
inner loop can go, and `Visited` is the whole visit of a thread as a derivation, so that a law
about a visit is an induction with four named cases and no unfolding.
-/

set_option autoImplicit false

namespace Jbm

open Base

/-- `subI64` of two timestamps, as the code subtracts them. -/
def tsDiff (o : Overflow) (x y : UInt64) : Option Int := subI64 o (signed x) (signed y)

/-- What `find_matching_jvm_event` does: it trashes a prefix of events before `timestamp`, and
then pops the next event if it lies inside the matching window, or stops in front of it. -/
structure MatchSpec (o : Overflow) (timestamp : UInt64) (q : List JvmEvent) (m : Matching) :
    Prop where
  split : q = m.trash ++ m.found.toList ++ m.left
  trashed : ∀ j ∈ m.trash, ∃ d, tsDiff o j.timestamp timestamp = some d ∧ d < 0
  found : ∀ j, m.found = some j →
    ∃ d, tsDiff o j.timestamp timestamp = some d ∧ 0 ≤ d ∧ d < 1000
  far : m.found = none → ∀ j ∈ m.left.head?,
    ∃ d, tsDiff o j.timestamp timestamp = some d ∧ 1000 ≤ d

theorem find_spec {o : Overflow} {timestamp : UInt64} {q : List JvmEvent} {m : Matching}
    (h : findMatchingJvmEvent o timestamp q = some m) : MatchSpec o timestamp q m := by
  induction q generalizing m with
  | nil =>
    simp only [findMatchingJvmEvent, Option.some.injEq] at h
    subst h
    exact ⟨rfl, by simp, by simp, by simp⟩
  | cons j q ih =>
    simp only [findMatchingJvmEvent, threshold_asMillis, Option.bind_eq_bind,
      Option.bind_eq_some_iff] at h
    obtain ⟨d, hd, h⟩ := h
    split at h
    · next hneg =>
      obtain ⟨m', hm', h⟩ := Option.bind_eq_some_iff.mp h
      cases h
      obtain ⟨split, trashed, found, far⟩ := ih hm'
      refine ⟨?_, fun j' hj' => ?_, found, far⟩
      · simp only [List.cons_append]
        exact congrArg _ split
      · rcases List.mem_cons.mp hj' with rfl | hj'
        · exact ⟨d, hd, hneg⟩
        · exact trashed j' hj'
    · next hneg =>
      split at h
      · next hnear =>
        cases h
        refine ⟨rfl, by simp, fun j' hj' => ?_, by simp⟩
        obtain rfl : j = j' := by simpa using hj'
        exact ⟨d, hd, by omega, by simpa using hnear⟩
      · next hfar =>
        cases h
        refine ⟨rfl, by simp, by simp, fun _ j' hj' => ?_⟩
        obtain rfl : j = j' := by simpa using hj'
        exact ⟨d, hd, by simpa using hfar⟩

/-- The four ways an iteration of the inner loop goes. -/
inductive Iterates (o : Overflow) (now : UInt64) (e : BpfEvent) (q : List JvmEvent) :
    List Pair → Iteration → Prop
  /-- the JVM event of the newest pair moves to the front event -/
  | takeOver {b : BpfEvent} {j : JvmEvent} {older : List Pair} :
      takesOver o b j e.timestamp = some true →
      Iterates o now e q ((b, some j) :: older) (.report ((e, some j) :: (b, none) :: older) q [])
  /-- the JVM queue holds a match -/
  | matched {ret : List Pair} {m : Matching} {j : JvmEvent} :
      takeOver? o ret e.timestamp = some false →
      findMatchingJvmEvent o e.timestamp q = some m → m.found = some j →
      Iterates o now e q ret (.report ((e, some j) :: ret) m.left m.trash)
  /-- no match, and none to come: a later JVM event is queued, or the event is too old -/
  | unmatched {ret : List Pair} {m : Matching} :
      takeOver? o ret e.timestamp = some false →
      findMatchingJvmEvent o e.timestamp q = some m → m.found = none →
      m.left ≠ [] ∨ givesUp o now e.timestamp = some true →
      Iterates o now e q ret (.report ((e, none) :: ret) m.left m.trash)
  /-- no match yet -/
  | wait {ret : List Pair} {m : Matching} :
      takeOver? o ret e.timestamp = some false →
      findMatchingJvmEvent o e.timestamp q = some m → m.found = none → m.left = [] →
      givesUp o now e.timestamp = some false →
      Iterates o now e q ret (.wait [] m.trash)

/-- A take-over needs a newest pair that holds a JVM event. -/
theorem takeOver?_eq_true {o : Overflow} {ret : List Pair} {ts : UInt64}
    (h : takeOver? o ret ts = some true) :
    ∃ b j older, ret = (b, some j) :: older ∧ takesOver o b j ts = some true := by
  unfold takeOver? at h
  split at h
  · exact ⟨_, _, _, rfl, h⟩
  · cases h

theorem iterates_of_sweepEvent {o : Overflow} {now : UInt64} {e : BpfEvent} {q : List JvmEvent}
    {ret : List Pair} {r : Iteration} (h : sweepEvent o now e q ret = some r) :
    Iterates o now e q ret r := by
  simp only [sweepEvent, Option.bind_eq_bind, Option.bind_eq_some_iff] at h
  obtain ⟨takes, htakes, h⟩ := h
  cases takes with
  | true =>
    obtain ⟨b, j, older, rfl, ht⟩ := takeOver?_eq_true htakes
    cases h
    exact .takeOver ht
  | false =>
    simp only [Bool.false_eq_true, if_false, Option.bind_eq_some_iff] at h
    obtain ⟨m, hm, h⟩ := h
    cases hf : m.found with
    | some j =>
      simp only [hf] at h
      cases h
      exact .matched htakes hm hf
    | none =>
      simp only [hf] at h
      cases hl : m.left with
      | cons j left =>
        simp only [hl, List.isEmpty_cons, Bool.not_false, if_true] at h
        cases h
        rw [← hl]
        exact .unmatched htakes hm hf (.inl (by simp [hl]))
      | nil =>
        simp only [hl, List.isEmpty_nil, Bool.not_true, Bool.false_eq_true, if_false,
          Option.bind_eq_some_iff] at h
        obtain ⟨old, hold, h⟩ := h
        cases old with
        | true =>
          cases h
          rw [← hl]
          exact .unmatched htakes hm hf (.inr hold)
        | false =>
          cases h
          exact .wait htakes hm hf hl hold

/-- The visit of a thread, one iteration after another. -/
inductive Visited (o : Overflow) (now : UInt64) :
    List BpfEvent → List JvmEvent → List Pair → Visit → Prop
  | done (q : List JvmEvent) (ret : List Pair) : Visited o now [] q ret ⟨[], q, ret, []⟩
  | report {e : BpfEvent} {bpf : List BpfEvent} {q q' trash : List JvmEvent}
      {ret ret' : List Pair} {v : Visit} :
      Iterates o now e q ret (.report ret' q' trash) → Visited o now bpf q' ret' v →
      Visited o now (e :: bpf) q ret
        { v with trash := trash.map (⟨e :: bpf, ·⟩) ++ v.trash }
  | wait {e : BpfEvent} {bpf : List BpfEvent} {q q' trash : List JvmEvent} {ret : List Pair} :
      Iterates o now e q ret (.wait q' trash) →
      Visited o now (e :: bpf) q ret ⟨e :: bpf, q', ret, trash.map (⟨e :: bpf, ·⟩)⟩

theorem visited_of_sweepThread {o : Overflow} {now : UInt64} {bpf : List BpfEvent}
    {q : List JvmEvent} {ret : List Pair} {v : Visit}
    (h : sweepThread o now bpf q ret = some v) : Visited o now bpf q ret v := by
  induction bpf generalizing q ret v with
  | nil =>
    cases h
    exact .done q ret
  | cons e bpf ih =>
    simp only [sweepThread, Option.bind_eq_bind, Option.bind_eq_some_iff] at h
    obtain ⟨r, hr, h⟩ := h
    have hit := iterates_of_sweepEvent hr
    cases r with
    | report ret' q' trash =>
      simp only [Option.bind_eq_some_iff] at h
      obtain ⟨v', hv', h⟩ := h
      cases h
      exact .report hit (ih hv')
    | wait q' trash =>
      cases h
      exact .wait hit

/-! ## What a visit leaves of the queues -/

/-- An iteration removes its trash, and the event it attaches itself, from the front of the JVM
queue. -/
theorem Iterates.jvm_suffix {o : Overflow} {now : UInt64} {e : BpfEvent}
    {q : List JvmEvent} {ret : List Pair} {r : Iteration} (h : Iterates o now e q ret r) :
    match r with
    | .report _ q' _ => q' <:+ q
    | .wait q' _ => q' <:+ q := by
  cases h with
  | takeOver _ => exact List.suffix_refl q
  | matched _ hm _ => exact ⟨_, (find_spec hm).split.symm⟩
  | unmatched _ hm _ _ => exact ⟨_, (find_spec hm).split.symm⟩
  | wait _ _ _ _ _ => exact List.nil_suffix

/-- A visit removes events from the front of the BPF queue only. -/
theorem Visited.bpf_suffix {o : Overflow} {now : UInt64} {bpf : List BpfEvent}
    {q : List JvmEvent} {ret : List Pair} {v : Visit} (h : Visited o now bpf q ret v) :
    v.bpf <:+ bpf := by
  induction h with
  | done _ _ => exact List.suffix_refl _
  | report _ _ ih => exact ih.trans (List.suffix_cons _ _)
  | wait _ => exact List.suffix_refl _

/-- A visit removes events from the front of the JVM queue only. -/
theorem Visited.jvm_suffix {o : Overflow} {now : UInt64} {bpf : List BpfEvent}
    {q : List JvmEvent} {ret : List Pair} {v : Visit} (h : Visited o now bpf q ret v) :
    v.jvm <:+ q := by
  induction h with
  | done _ _ => exact List.suffix_refl _
  | report hit _ ih => exact ih.trans hit.jvm_suffix
  | wait hit => exact hit.jvm_suffix

/-! ## Without overflow checks every visit returns -/

theorem find_wrap (timestamp : UInt64) (q : List JvmEvent) :
    ∃ m, findMatchingJvmEvent .wrap timestamp q = some m := by
  induction q with
  | nil => exact ⟨_, rfl⟩
  | cons j q ih =>
    obtain ⟨d, hd⟩ := Option.isSome_iff_exists.mp
      (subI64_wrap_isSome (signed j.timestamp) (signed timestamp))
    obtain ⟨m, hm⟩ := ih
    simp only [findMatchingJvmEvent, hd, hm, Option.bind_eq_bind, Option.bind_some]
    split
    · exact ⟨_, rfl⟩
    · split <;> exact ⟨_, rfl⟩

theorem takeOver?_wrap (ret : List Pair) (timestamp : UInt64) :
    ∃ takes, takeOver? .wrap ret timestamp = some takes := by
  unfold takeOver?
  split
  · next b j older =>
    obtain ⟨d, hd⟩ := Option.isSome_iff_exists.mp
      (subI64_wrap_isSome (signed j.timestamp) (signed timestamp))
    obtain ⟨dist, hdist⟩ := Option.isSome_iff_exists.mp
      (subU64_wrap_isSome j.timestamp b.timestamp)
    simp only [takesOver, hd, hdist, Option.bind_eq_bind, Option.bind_some]
    split <;> exact ⟨_, rfl⟩
  · exact ⟨_, rfl⟩

theorem givesUp_wrap (now timestamp : UInt64) : ∃ old, givesUp .wrap now timestamp = some old := by
  obtain ⟨age, hage⟩ := Option.isSome_iff_exists.mp (subU64_wrap_isSome now timestamp)
  simp only [givesUp, hage, Option.bind_eq_bind, Option.bind_some]
  exact ⟨_, rfl⟩

theorem sweepEvent_wrap (now : UInt64) (e : BpfEvent) (q : List JvmEvent) (ret : List Pair) :
    ∃ r, sweepEvent .wrap now e q ret = some r := by
  obtain ⟨takes, htakes⟩ := takeOver?_wrap ret e.timestamp
  obtain ⟨m, hm⟩ := find_wrap e.timestamp q
  obtain ⟨old, hold⟩ := givesUp_wrap now e.timestamp
  simp only [sweepEvent, htakes, hm, hold, Option.bind_eq_bind, Option.bind_some]
  split
  · exact ⟨_, rfl⟩
  · split
    · exact ⟨_, rfl⟩
    · split
      · exact ⟨_, rfl⟩
      · split <;> exact ⟨_, rfl⟩

theorem sweepThread_wrap (now : UInt64) (bpf : List BpfEvent) (q : List JvmEvent)
    (ret : List Pair) : ∃ v, sweepThread .wrap now bpf q ret = some v := by
  induction bpf generalizing q ret with
  | nil => exact ⟨_, rfl⟩
  | cons e bpf ih =>
    obtain ⟨r, hr⟩ := sweepEvent_wrap now e q ret
    cases r with
    | report ret' q' trash =>
      obtain ⟨v, hv⟩ := ih q' ret'
      simp only [sweepThread, hr, hv, Option.bind_eq_bind, Option.bind_some]
      exact ⟨_, rfl⟩
    | wait q' trash =>
      simp only [sweepThread, hr, Option.bind_eq_bind, Option.bind_some]
      exact ⟨_, rfl⟩

end Jbm
