import Jbm.Laws.Stream.Pairing

/-!
# Contested samples

Where the pairing of a history in order of time keeps a JVM event for a next BPF event, said of
the history alone. `b` and `next` are blocks of which the second comes right behind the first; no
JVM event lies from `b` to `next`, and one lies behind `next`, less than 1 s after `b`: a matcher
that does not know `next` yet gives it to `b`. The one complication are ties. A JVM event at the
very time of a block may be the sample of the block before it, so a run of blocks `tied` may stand
between, each of which lost the JVM event of its own time to the block before.
-/

set_option autoImplicit false

namespace Jbm

open Base

/-- The JVM events from `lo` to `hi`. -/
def within (lo hi : UInt64) (jvm : List JvmEvent) : List JvmEvent :=
  jvm.filter fun j => lo ≤ j.timestamp ∧ j.timestamp ≤ hi

/-- A JVM event behind `next` is within the reach of a block before `next` that has no other. -/
structure Contest (jvm : List JvmEvent) (b : BpfEvent) (tied : List BpfEvent) (next : BpfEvent) :
    Prop where
  /-- from `b` to `next` the JVM events are one for each tied block, at its own time -/
  ties : (within b.timestamp next.timestamp jvm).map (·.timestamp) = tied.map (·.timestamp)
  /-- each of these is within 1 s of the block before -/
  close : List.IsChain (fun a c => c.timestamp.toNat < a.timestamp.toNat + 1000) (b :: tied)
  /-- so the last block before `next` has none, and one behind `next` is within 1 s of it -/
  sample : ∃ j ∈ jvm, next.timestamp < j.timestamp ∧
    j.timestamp.toNat < (tied.getLastD b).timestamp.toNat + 1000

/-- Somewhere in the history a JVM event is contested. -/
def Contested (bpf : List BpfEvent) (jvm : List JvmEvent) : Prop :=
  ∃ before b tied next after, bpf = before ++ b :: (tied ++ next :: after) ∧
    Contest jvm b tied next

/-! ## Events within bounds -/

section Within

variable {lo hi : UInt64} {b : BpfEvent} {j : JvmEvent} {jvm left : List JvmEvent}

theorem within_cons_of_mem (h : lo ≤ j.timestamp ∧ j.timestamp ≤ hi) :
    within lo hi (j :: jvm) = j :: within lo hi jvm := by
  simp [within, h.1, h.2]

theorem within_cons_of_not_mem (h : ¬ (lo ≤ j.timestamp ∧ j.timestamp ≤ hi)) :
    within lo hi (j :: jvm) = within lo hi jvm := by
  rw [within, List.filter_cons_of_neg (by simpa using h)]
  rfl

/-- The events dropped for `b` are not within bounds that start at `b` or later. -/
theorem within_upFrom (h : b.timestamp ≤ lo) : within lo hi (upFrom b jvm) = within lo hi jvm := by
  induction jvm with
  | nil => rfl
  | cons j jvm ih =>
    by_cases hlt : j.timestamp < b.timestamp
    · have hout : ¬ (lo ≤ j.timestamp ∧ j.timestamp ≤ hi) := fun hin =>
        UInt64.not_lt.mpr (UInt64.le_trans h hin.1) hlt
      rw [upFrom_of_before jvm hlt, ih, within_cons_of_not_mem hout]
    · rw [upFrom_of_le jvm (UInt64.not_lt.mp hlt)]

/-- Behind the upper bound nothing is within. -/
theorem within_eq_nil (h : ∀ j ∈ jvm, hi < j.timestamp) : within lo hi jvm = [] := by
  refine List.filter_eq_nil_iff.mpr fun j hj => ?_
  simp [UInt64.not_le.mpr (h j hj)]

/-- Events from `lo'` on lie within bounds from `lo` as within bounds from `lo'`. -/
theorem within_of_le {lo' : UInt64} (hlo : lo ≤ lo') (h : ∀ j ∈ jvm, lo' ≤ j.timestamp) :
    within lo hi jvm = within lo' hi jvm := by
  refine List.filter_congr fun j hj => ?_
  simp [UInt64.le_trans hlo (h j hj), h j hj]

/-- An event not before `b` is not dropped for it. -/
theorem mem_upFrom (hj : j ∈ jvm) (h : b.timestamp ≤ j.timestamp) : j ∈ upFrom b jvm := by
  induction jvm with
  | nil => cases hj
  | cons j' jvm ih =>
    by_cases hlt : j'.timestamp < b.timestamp
    · rw [upFrom_of_before jvm hlt]
      rcases List.mem_cons.mp hj with rfl | hj
      · exact absurd hlt (UInt64.not_lt.mpr h)
      · exact ih hj
    · rwa [upFrom_of_le jvm (UInt64.not_lt.mp hlt)]

end Within

/-- A contest in a part of the JVM events that has all those within its bounds is one in all. -/
theorem Contest.mono {jvm jvm' : List JvmEvent} {b next : BpfEvent} {tied : List BpfEvent}
    (h : Contest jvm' b tied next) (hsub : jvm' ⊆ jvm)
    (hw : within b.timestamp next.timestamp jvm' = within b.timestamp next.timestamp jvm) :
    Contest jvm b tied next where
  ties := hw ▸ h.ties
  close := h.close
  sample := by
    obtain ⟨j, hj, hnext, hnear⟩ := h.sample
    exact ⟨j, hsub hj, hnext, hnear⟩

/-! ## The two sides of the equivalence -/

/-- BPF events in strict order of time. -/
abbrev BpfOrdered (bpf : List BpfEvent) : Prop :=
  bpf.Pairwise fun a c => a.timestamp < c.timestamp

/-- JVM events in order of time. -/
abbrev JvmOrdered (jvm : List JvmEvent) : Prop :=
  jvm.Pairwise fun a c => a.timestamp ≤ c.timestamp

/-- With no next event before `j`, no later one is. -/
theorem le_of_not_nextBetween {b c : BpfEvent} {bpf : List BpfEvent} {j : JvmEvent}
    (hbpf : BpfOrdered (b :: bpf)) (hno : ¬ nextBetween b j bpf = true) (hc : c ∈ bpf) :
    j.timestamp ≤ c.timestamp := by
  cases bpf with
  | nil => cases hc
  | cons first bpf =>
    obtain ⟨hfirst, hbpf⟩ := List.pairwise_cons.mp hbpf
    have hle : j.timestamp ≤ first.timestamp := by
      by_contra hgt
      exact hno (decide_eq_true ⟨hfirst first List.mem_cons_self, UInt64.not_le.mp hgt⟩)
    rcases List.mem_cons.mp hc with rfl | hc
    · exact hle
    · exact UInt64.le_trans hle (UInt64.le_of_lt ((List.pairwise_cons.mp hbpf).1 c hc))

/-- What is left for the front event, in order of time. -/
structure Leads (b : BpfEvent) (jvm : List JvmEvent) (j : JvmEvent) (left : List JvmEvent) :
    Prop where
  up : upFrom b jvm = j :: left
  first : ∀ j' ∈ left, j.timestamp ≤ j'.timestamp
  ordered : JvmOrdered left

namespace Leads

variable {b : BpfEvent} {jvm left : List JvmEvent} {j : JvmEvent}

theorem of_upFrom (hjvm : JvmOrdered jvm) (hup : upFrom b jvm = j :: left) : Leads b jvm j left := by
  have hordered : JvmOrdered (upFrom b jvm) :=
    List.Pairwise.sublist (upFrom_suffix b jvm).sublist hjvm
  rw [hup] at hordered
  obtain ⟨hfirst, hleft⟩ := List.pairwise_cons.mp hordered
  exact ⟨hup, hfirst, hleft⟩

theorem le (h : Leads b jvm j left) : b.timestamp ≤ j.timestamp := le_of_upFrom h.up

theorem subset (h : Leads b jvm j left) : j :: left ⊆ jvm :=
  h.up ▸ (upFrom_suffix b jvm).subset

theorem ordered_cons (h : Leads b jvm j left) : JvmOrdered (j :: left) :=
  List.pairwise_cons.mpr ⟨h.first, h.ordered⟩

/-- The events dropped for `b` are not within later bounds. -/
theorem within_eq (h : Leads b jvm j left) {lo hi : UInt64} (hlo : b.timestamp ≤ lo) :
    within lo hi (j :: left) = within lo hi jvm := h.up ▸ within_upFrom hlo

/-- Every event from `b` on is `j` or left. -/
theorem mem_cons (h : Leads b jvm j left) {j' : JvmEvent} (hj' : j' ∈ jvm)
    (hb : b.timestamp ≤ j'.timestamp) : j' = j ∨ j' ∈ left :=
  List.mem_cons.mp (h.up ▸ mem_upFrom hj' hb)

/-- An event behind `j` is left. -/
theorem mem_left (h : Leads b jvm j left) {j' : JvmEvent} (hj' : j' ∈ jvm)
    (hlt : j.timestamp < j'.timestamp) : j' ∈ left := by
  rcases h.mem_cons hj' (UInt64.le_trans h.le (UInt64.le_of_lt hlt)) with rfl | hmem
  · exact absurd hlt (UInt64.lt_irrefl _)
  · exact hmem

/-- Of the events from `b` on, `j` is the first. -/
theorem le_of_mem (h : Leads b jvm j left) {j' : JvmEvent} (hj' : j' ∈ jvm)
    (hb : b.timestamp ≤ j'.timestamp) : j.timestamp ≤ j'.timestamp := by
  rcases h.mem_cons hj' hb with rfl | hmem
  · exact UInt64.le_refl _
  · exact h.first j' hmem

/-- Nothing from `j` on is within bounds that end before it. -/
theorem within_nil (h : Leads b jvm j left) {lo hi : UInt64} (hlt : hi < j.timestamp) :
    within lo hi (j :: left) = [] := by
  refine within_eq_nil fun j' hj' => ?_
  rcases List.mem_cons.mp hj' with rfl | hj'
  · exact hlt
  · exact UInt64.lt_of_lt_of_le hlt (h.first j' hj')

/-- A next event before `j` contests it. -/
theorem contest_next (h : Leads b jvm j left) {next : BpfEvent}
    (hnear : j.timestamp.toNat - b.timestamp.toNat < 1000)
    (hlt : next.timestamp < j.timestamp) : Contest jvm b [] next where
  ties := by
    rw [← h.within_eq (UInt64.le_refl _), h.within_nil hlt]
    rfl
  close := List.isChain_singleton _
  sample := by
    refine ⟨j, h.subset List.mem_cons_self, hlt, ?_⟩
    show j.timestamp.toNat < b.timestamp.toNat + 1000
    omega

/-- A contest for `c` that `j` is not part of. -/
theorem contest_later (h : Leads b jvm j left) {c next : BpfEvent} {tied : List BpfEvent}
    (hbc : b.timestamp < c.timestamp)
    (hout : ¬ (c.timestamp ≤ j.timestamp ∧ j.timestamp ≤ next.timestamp))
    (hc : Contest left c tied next) : Contest jvm c tied next := by
  refine hc.mono (fun j' hj' => h.subset (List.mem_cons_of_mem _ hj')) ?_
  rw [← h.within_eq (UInt64.le_of_lt hbc), within_cons_of_not_mem hout]

/-- A contest for `c`, whose own sample `j` goes to `b`, is one for `b`. -/
theorem contest_tie (h : Leads b jvm j left) {c next : BpfEvent} {tied : List BpfEvent}
    (hnear : j.timestamp.toNat - b.timestamp.toNat < 1000) (hbc : b.timestamp < c.timestamp)
    (heq : j.timestamp = c.timestamp) (hle : j.timestamp ≤ next.timestamp)
    (hc : Contest left c tied next) : Contest jvm b (c :: tied) next where
  ties := by
    rw [← h.within_eq (UInt64.le_refl _), within_cons_of_mem ⟨h.le, hle⟩,
      within_of_le (UInt64.le_of_lt hbc) (fun j' hj' => heq ▸ h.first j' hj'),
      List.map_cons, List.map_cons, hc.ties, heq]
  close := by
    refine List.isChain_cons_cons.mpr ⟨?_, hc.close⟩
    rw [← heq]
    omega
  sample := by
    obtain ⟨j', hj', hlate, hclose⟩ := hc.sample
    refine ⟨j', h.subset (List.mem_cons_of_mem _ hj'), hlate, ?_⟩
    rwa [List.getLastD_cons]

end Leads

theorem contested_of_overreaches {bpf : List BpfEvent} {jvm : List JvmEvent}
    (hbpf : BpfOrdered bpf) (hjvm : JvmOrdered jvm) (h : Overreaches bpf jvm) :
    Contested bpf jvm := by
  induction bpf generalizing jvm with
  | nil => exact h.elim
  | cons b bpf ih =>
    obtain ⟨hfirst, hrest⟩ := List.pairwise_cons.mp hbpf
    cases hup : upFrom b jvm with
    | nil => exact absurd h (overreaches_none hup)
    | cons j left =>
      have hlead := Leads.of_upFrom hjvm hup
      by_cases hnear : j.timestamp.toNat - b.timestamp.toNat < 1000
      · rw [overreaches_near hup hnear] at h
        by_cases hnext : nextBetween b j bpf = true
        · cases bpf with
          | nil => cases hnext
          | cons next after =>
            obtain ⟨_, hlt⟩ := of_decide_eq_true hnext
            exact ⟨[], b, [], next, after, rfl, hlead.contest_next hnear hlt⟩
        · obtain ⟨before, c, tied, next, after, rfl, hc⟩ :=
            ih hrest hlead.ordered (h.resolve_left hnext)
          have hbc := hfirst c (by simp)
          by_cases hin : c.timestamp ≤ j.timestamp ∧ j.timestamp ≤ next.timestamp
          · -- `j` is not behind the event after `b`, so that is `c`, and `j` is at its time
            cases before with
            | cons first before =>
              have hle := le_of_not_nextBetween hbpf hnext (c := first) (by simp)
              have hlt : first.timestamp < c.timestamp :=
                (List.pairwise_cons.mp hrest).1 c (by simp)
              exact absurd (UInt64.le_trans hin.1 hle) (UInt64.not_le.mpr hlt)
            | nil =>
              have hle := le_of_not_nextBetween hbpf hnext (c := c) (by simp)
              have heq := UInt64.le_antisymm hle hin.1
              exact ⟨[], b, c :: tied, next, after, rfl,
                hlead.contest_tie hnear hbc heq hin.2 hc⟩
          · exact ⟨b :: before, c, tied, next, after, rfl, hlead.contest_later hbc hin hc⟩
      · rw [overreaches_far hup hnear] at h
        obtain ⟨before, c, tied, next, after, rfl, hc⟩ := ih hrest hlead.ordered_cons h
        have hbc := hfirst c (by simp)
        exact ⟨b :: before, c, tied, next, after, rfl,
          hc.mono hlead.subset (hlead.within_eq (UInt64.le_of_lt hbc))⟩

/-! ### From the contest -/

namespace Contest

variable {b c next : BpfEvent} {tied : List BpfEvent} {jvm left : List JvmEvent} {j : JvmEvent}

/-- A contested sample is left for every event up to the contest. -/
theorem leads (hc : Contest jvm c tied next) (hjvm : JvmOrdered jvm)
    (hb : b.timestamp ≤ next.timestamp) : ∃ j left, Leads b jvm j left := by
  obtain ⟨j', hj', hlate, _⟩ := hc.sample
  have hmem := mem_upFrom hj' (UInt64.le_trans hb (UInt64.le_of_lt hlate))
  cases hup : upFrom b jvm with
  | nil =>
    rw [hup] at hmem
    cases hmem
  | cons j left => exact ⟨j, left, Leads.of_upFrom hjvm hup⟩

/-- Nothing is at the time of the first block of a contest. -/
theorem not_at_start (hc : Contest jvm c tied next) (htied : ∀ t ∈ tied, c.timestamp < t.timestamp)
    (hcn : c.timestamp ≤ next.timestamp) (hj : j ∈ jvm) : j.timestamp ≠ c.timestamp := by
  intro heq
  have hmem : j ∈ within c.timestamp next.timestamp jvm :=
    List.mem_filter.mpr ⟨hj, by simp [heq, hcn]⟩
  have hts := List.mem_map_of_mem (f := JvmEvent.timestamp) hmem
  rw [hc.ties] at hts
  obtain ⟨t, ht, hteq⟩ := List.mem_map.mp hts
  have hlt := htied t ht
  rw [hteq, heq] at hlt
  exact UInt64.lt_irrefl _ hlt

/-- A contest is one in the events that are left for an earlier block. -/
theorem up (hc : Contest jvm c tied next) (h : Leads b jvm j left)
    (hbc : b.timestamp < c.timestamp) (hcn : c.timestamp < next.timestamp) :
    Contest (j :: left) c tied next where
  ties := by rw [h.within_eq (UInt64.le_of_lt hbc), hc.ties]
  close := hc.close
  sample := by
    obtain ⟨j', hj', hlate, hclose⟩ := hc.sample
    refine ⟨j', h.up ▸ mem_upFrom hj' ?_, hlate, hclose⟩
    exact UInt64.le_of_lt (UInt64.lt_trans hbc (UInt64.lt_trans hcn hlate))

/-- An earlier block that takes an event before the contest leaves it. -/
theorem left_of_lt (hc : Contest jvm c tied next) (h : Leads b jvm j left)
    (hbc : b.timestamp < c.timestamp) (hcn : c.timestamp < next.timestamp)
    (hlt : j.timestamp < c.timestamp) : Contest left c tied next := by
  have hup := hc.up h hbc hcn
  refine ⟨?_, hc.close, ?_⟩
  · rw [← hup.ties, within_cons_of_not_mem fun hin => UInt64.not_le.mpr hlt hin.1]
  · obtain ⟨j', hj', hlate, hclose⟩ := hc.sample
    refine ⟨j', h.mem_left hj' ?_, hlate, hclose⟩
    exact UInt64.lt_trans hlt (UInt64.lt_trans hcn hlate)

/-- Without ties the first event left is behind `next`, and near. -/
theorem untied (hc : Contest jvm b [] next) (h : Leads b jvm j left)
    (hbn : b.timestamp < next.timestamp) :
    j.timestamp.toNat - b.timestamp.toNat < 1000 ∧ next.timestamp < j.timestamp := by
  obtain ⟨j', hj', hlate, hclose⟩ := hc.sample
  have hfirst := UInt64.le_iff_toNat_le.mp
    (h.le_of_mem hj' (UInt64.le_of_lt (UInt64.lt_trans hbn hlate)))
  rw [List.getLastD_nil] at hclose
  refine ⟨by omega, ?_⟩
  by_contra hle
  have hties := hc.ties
  rw [← h.within_eq (UInt64.le_refl _), within_cons_of_mem ⟨h.le, UInt64.not_lt.mp hle⟩] at hties
  cases hties

/-- A tied block's event goes to the block before, and the contest is one for the tied block. -/
theorem untie {t : BpfEvent} (hc : Contest jvm b (t :: tied) next) (h : Leads b jvm j left) :
    j.timestamp.toNat - b.timestamp.toNat < 1000 ∧ j.timestamp = t.timestamp ∧
      Contest left t tied next := by
  obtain ⟨hclose, hchain⟩ := List.isChain_cons_cons.mp hc.close
  have hties := hc.ties
  rw [← h.within_eq (UInt64.le_refl _)] at hties
  have hle : j.timestamp ≤ next.timestamp := by
    by_contra hgt
    rw [h.within_nil (UInt64.not_le.mp hgt)] at hties
    cases hties
  rw [within_cons_of_mem ⟨h.le, hle⟩, List.map_cons, List.map_cons] at hties
  obtain ⟨heq, hrest⟩ := List.cons.inj hties
  have hbt : b.timestamp ≤ t.timestamp := heq ▸ h.le
  have hleft : ∀ j' ∈ left, t.timestamp ≤ j'.timestamp := heq ▸ h.first
  refine ⟨by rw [heq]; omega, heq, ?_, hchain, ?_⟩
  · rw [← hrest, within_of_le hbt hleft]
  · obtain ⟨j', hj', hlate, hnear⟩ := hc.sample
    rw [List.getLastD_cons] at hnear
    exact ⟨j', h.mem_left hj' (UInt64.lt_of_le_of_lt hle hlate), hlate, hnear⟩

end Contest

theorem overreaches_of_contested {bpf : List BpfEvent} {jvm : List JvmEvent}
    (hbpf : BpfOrdered bpf) (hjvm : JvmOrdered jvm) (h : Contested bpf jvm) :
    Overreaches bpf jvm := by
  obtain ⟨before, c, tied, next, after, hsplit, hc⟩ := h
  induction bpf generalizing jvm before c tied with
  | nil => simp at hsplit
  | cons b bpf ih =>
    obtain ⟨hfirst, hrest⟩ := List.pairwise_cons.mp hbpf
    cases before with
    | nil =>
      obtain ⟨rfl, rfl⟩ := List.cons.inj hsplit
      have hbn := hfirst next (by simp)
      obtain ⟨j, left, hlead⟩ := hc.leads hjvm (UInt64.le_of_lt hbn)
      cases tied with
      | nil =>
        obtain ⟨hnear, hlt⟩ := hc.untied hlead hbn
        rw [overreaches_near hlead.up hnear]
        exact .inl (decide_eq_true ⟨hbn, hlt⟩)
      | cons t tied =>
        obtain ⟨hnear, _, hcontest⟩ := hc.untie hlead
        rw [overreaches_near hlead.up hnear]
        exact .inr (ih hrest hlead.ordered [] t tied rfl hcontest)
    | cons first before =>
      obtain ⟨rfl, rfl⟩ := List.cons.inj hsplit
      have hbc := hfirst c (by simp)
      obtain ⟨hcs, _⟩ := List.pairwise_cons.mp (List.pairwise_append.mp hrest).2.1
      have hcn := hcs next (by simp)
      obtain ⟨j, left, hlead⟩ := hc.leads hjvm (UInt64.le_of_lt (UInt64.lt_trans hbc hcn))
      by_cases hnear : j.timestamp.toNat - b.timestamp.toNat < 1000
      · rw [overreaches_near hlead.up hnear]
        by_cases hnext : nextBetween b j (before ++ c :: (tied ++ next :: after)) = true
        · exact .inl hnext
        · -- `j` is not behind the event after `b`, and nothing is at the time of `c`
          have hle := le_of_not_nextBetween hbpf hnext (c := c) (by simp)
          have hne := hc.not_at_start (fun t ht => hcs t (List.mem_append_left _ ht))
            (UInt64.le_of_lt hcn) (hlead.subset List.mem_cons_self)
          have hlt := UInt64.lt_of_le_of_ne hle hne
          exact .inr (ih hrest hlead.ordered before c tied rfl (hc.left_of_lt hlead hbc hcn hlt))
      · rw [overreaches_far hlead.up hnear]
        exact ih hrest hlead.ordered_cons before c tied rfl (hc.up hlead hbc hcn)

/-- **Where the pairing of a history in order of time keeps a JVM event for a next BPF event, a
sample is contested, and nowhere else.** -/
theorem contested_iff {bpf : List BpfEvent} {jvm : List JvmEvent} (hbpf : BpfOrdered bpf)
    (hjvm : JvmOrdered jvm) : Contested bpf jvm ↔ Overreaches bpf jvm :=
  ⟨overreaches_of_contested hbpf hjvm, contested_of_overreaches hbpf hjvm⟩

end Jbm
