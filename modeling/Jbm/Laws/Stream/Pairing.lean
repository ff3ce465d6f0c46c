import Mathlib.Data.List.Chain
import Jbm.Laws.Stream.Reference

/-!
# The pairing of a whole history

`pairing` is what `reference` emits when every BPF event is old enough to be given up: it needs no
clock. `Overreaches` holds where it makes use of the next BPF event, keeping a JVM event for it
that the front event could have had; that is the one place where a matcher that does not know the
next event goes wrong (`reference_append`).

On a history in order of time, `contested_iff` says where that is without running a matcher: two
blocks in a row, the first without a sample of its own, the second and a sample behind it within
the first one's window.
-/

set_option autoImplicit false

namespace Jbm

open Base

/-- The pairs of a history. -/
def pairing : List BpfEvent → List JvmEvent → List Pair
  | [], _ => []
  | b :: bpf, jvm =>
    match upFrom b jvm with
    | j :: left =>
      if j.timestamp.toNat - b.timestamp.toNat < 1000 then
        if nextBetween b j bpf then (b, none) :: pairing bpf (j :: left)
        else (b, some j) :: pairing bpf left
      else (b, none) :: pairing bpf (j :: left)
    | [] => (b, none) :: pairing bpf []

/-- The pairing keeps a JVM event for the next BPF event. -/
def Overreaches : List BpfEvent → List JvmEvent → Prop
  | [], _ => False
  | b :: bpf, jvm =>
    match upFrom b jvm with
    | j :: left =>
      if j.timestamp.toNat - b.timestamp.toNat < 1000 then
        nextBetween b j bpf = true ∨ Overreaches bpf left
      else Overreaches bpf (j :: left)
    | [] => False

/-! ## The front of a history -/

section Front

variable {b : BpfEvent} {bpf : List BpfEvent} {j : JvmEvent} {jvm left : List JvmEvent}

theorem pairing_far (hup : upFrom b jvm = j :: left)
    (hfar : ¬ j.timestamp.toNat - b.timestamp.toNat < 1000) :
    pairing (b :: bpf) jvm = (b, none) :: pairing bpf (j :: left) := by
  rw [pairing, hup]
  simp only [if_neg hfar]

theorem pairing_next (hup : upFrom b jvm = j :: left)
    (hnear : j.timestamp.toNat - b.timestamp.toNat < 1000) (hnext : nextBetween b j bpf = true) :
    pairing (b :: bpf) jvm = (b, none) :: pairing bpf (j :: left) := by
  rw [pairing, hup]
  simp only [if_pos hnear, if_pos hnext]

theorem pairing_match (hup : upFrom b jvm = j :: left)
    (hnear : j.timestamp.toNat - b.timestamp.toNat < 1000) (hnext : ¬ nextBetween b j bpf = true) :
    pairing (b :: bpf) jvm = (b, some j) :: pairing bpf left := by
  rw [pairing, hup]
  simp only [if_pos hnear, if_neg hnext]

theorem overreaches_none (hup : upFrom b jvm = []) : ¬ Overreaches (b :: bpf) jvm := by
  rw [Overreaches, hup]
  exact not_false

theorem overreaches_far (hup : upFrom b jvm = j :: left)
    (hfar : ¬ j.timestamp.toNat - b.timestamp.toNat < 1000) :
    Overreaches (b :: bpf) jvm ↔ Overreaches bpf (j :: left) := by
  rw [Overreaches, hup]
  simp only [if_neg hfar]

theorem overreaches_near (hup : upFrom b jvm = j :: left)
    (hnear : j.timestamp.toNat - b.timestamp.toNat < 1000) :
    Overreaches (b :: bpf) jvm ↔ nextBetween b j bpf = true ∨ Overreaches bpf left := by
  rw [Overreaches, hup]
  simp only [if_pos hnear]

end Front

/-- The pairing reports every BPF event, in order. -/
theorem reported_pairing (bpf : List BpfEvent) (jvm : List JvmEvent) :
    (pairing bpf jvm).map Prod.fst = bpf := by
  induction bpf generalizing jvm with
  | nil => rfl
  | cons b bpf ih =>
    rw [pairing]
    split
    · split
      · split
        · exact congrArg (b :: ·) (ih _)
        · exact congrArg (b :: ·) (ih _)
      · exact congrArg (b :: ·) (ih _)
    · exact congrArg (b :: ·) (ih _)

/-- The reference emits the pairing, when every event is at least 30 s old. -/
theorem reference_eq_pairing {now : UInt64} {bpf : List BpfEvent} {jvm : List JvmEvent}
    (hold : ∀ b ∈ bpf, b.timestamp.toNat + 30000 ≤ now.toNat) :
    (reference now bpf jvm).pairs = pairing bpf jvm := by
  induction bpf generalizing jvm with
  | nil => rfl
  | cons b bpf ih =>
    have hage := hold b List.mem_cons_self
    have hrest : ∀ jvm', (reference now bpf jvm').pairs = pairing bpf jvm' := fun jvm' =>
      ih fun e he => hold e (List.mem_cons_of_mem _ he)
    rw [reference, pairing]
    cases upFrom b jvm with
    | nil =>
      simp only [if_pos (show 30000 ≤ now.toNat - b.timestamp.toNat by omega)]
      exact congrArg _ (hrest [])
    | cons j left =>
      simp only
      split
      · split
        · exact congrArg _ (hrest _)
        · exact congrArg _ (hrest _)
      · exact congrArg _ (hrest _)

/-! ## A part of a history -/

/-- JVM events to come are not older than those that are left, and where none is left they are all
there is. -/
theorem upFrom_append (b : BpfEvent) (jvm later : List JvmEvent) :
    upFrom b (jvm ++ later) =
      match upFrom b jvm with
      | [] => upFrom b later
      | j :: left => j :: left ++ later := by
  unfold upFrom
  rw [List.dropWhile_append]
  cases jvm.dropWhile fun j => decide (j.timestamp < b.timestamp) <;> rfl

/-- **A sweep in the middle of a history**: while no pairing of what is still there keeps a JVM
event for a next BPF event, what the reference emits about the events that are there, all less
than 30 s old, is a first part of the pairing of the whole, and what it leaves is the rest. -/
theorem reference_append {now : UInt64} {bpf toCome : List BpfEvent} {jvm later : List JvmEvent}
    (hyoung : ∀ b ∈ bpf, now.toNat < b.timestamp.toNat + 30000)
    (hno : ¬ Overreaches (bpf ++ toCome) (jvm ++ later)) :
    let r := reference now bpf jvm
    pairing (bpf ++ toCome) (jvm ++ later) = r.pairs ++ pairing (r.bpf ++ toCome) (r.jvm ++ later) ∧
      ¬ Overreaches (r.bpf ++ toCome) (r.jvm ++ later) := by
  induction bpf generalizing jvm with
  | nil => exact ⟨rfl, hno⟩
  | cons b bpf ih =>
    have hage := hyoung b List.mem_cons_self
    have happend := upFrom_append b jvm later
    have hrest : ∀ {jvm' : List JvmEvent}, ¬ Overreaches (bpf ++ toCome) (jvm' ++ later) → _ :=
      fun {jvm'} => @ih jvm' fun e he => hyoung e (List.mem_cons_of_mem _ he)
    rw [List.cons_append] at hno ⊢
    intro r
    cases hup : upFrom b jvm with
    | nil =>
      -- nothing is left for `b`: it waits, and so does everything behind it
      have hr : r = ⟨[], b :: bpf, []⟩ := by
        simp only [r, reference, hup]
        rw [if_neg (by omega)]
      rw [hup] at happend
      rw [hr]
      constructor
      · show pairing (b :: (bpf ++ toCome)) (jvm ++ later) = pairing (b :: (bpf ++ toCome)) later
        rw [pairing, pairing, happend]
      · show ¬ Overreaches (b :: (bpf ++ toCome)) later
        rw [Overreaches, happend] at hno
        rwa [Overreaches]
    | cons j left =>
      rw [hup] at happend
      have happend : upFrom b (jvm ++ later) = j :: (left ++ later) := happend
      by_cases hnear : j.timestamp.toNat - b.timestamp.toNat < 1000
      · rw [overreaches_near happend hnear, not_or] at hno
        obtain ⟨hnext, hno⟩ := hno
        -- no next event, queued or to come, lies between
        have hqueued : ¬ nextBetween b j bpf = true := by
          cases bpf with
          | nil => exact Bool.false_ne_true
          | cons next bpf => exact hnext
        have hr : r = (reference now bpf left).cons (b, some j) := by
          simp only [r, reference, hup]
          rw [if_pos hnear, if_neg hqueued]
        obtain ⟨hpairs, hleft⟩ := hrest hno
        rw [hr, pairing_match happend hnear hnext]
        exact ⟨congrArg _ hpairs, hleft⟩
      · rw [overreaches_far happend hnear] at hno
        have hr : r = (reference now bpf (j :: left)).cons (b, none) := by
          simp only [r, reference, hup]
          rw [if_neg hnear]
        obtain ⟨hpairs, hleft⟩ := @hrest (j :: left) hno
        rw [hr, pairing_far happend hnear]
        exact ⟨congrArg _ hpairs, hleft⟩

end Jbm
