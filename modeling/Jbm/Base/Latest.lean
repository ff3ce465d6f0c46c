import Mathlib.Data.List.Basic

/-!
# The latest opening in a trace

A trace, newest event first, in which some events open something and some close it. `latest` is
the event that opened what is open now: the newest opening, if nothing closed since.
-/

set_option autoImplicit false

namespace Base

variable {ε : Type}

/-- The newest opening event that no newer event closes. An event that does both closes. -/
def latest (closes opens : ε → Bool) : List ε → Option ε
  | [] => none
  | e :: trace => if closes e then none else if opens e then some e else latest closes opens trace

variable {closes opens : ε → Bool}

/-- `latest` splits the trace at its answer. -/
theorem latest_eq_some {trace : List ε} {e : ε} : latest closes opens trace = some e ↔
    ∃ newer older, trace = newer ++ e :: older ∧ opens e = true ∧ closes e = false ∧
      ∀ x ∈ newer, opens x = false ∧ closes x = false := by
  induction trace with
  | nil => simp [latest]
  | cons x trace ih =>
    rw [latest]
    by_cases hc : closes x = true
    · rw [if_pos hc]
      apply iff_of_false (by simp)
      rintro ⟨newer, older, heq, _, hclose, hnewer⟩
      cases newer with
      | nil =>
        cases heq
        rw [hc] at hclose
        cases hclose
      | cons y newer =>
        cases heq
        have hy := (hnewer _ List.mem_cons_self).2
        rw [hc] at hy
        cases hy
    · rw [if_neg hc]
      rw [Bool.not_eq_true] at hc
      by_cases ho : opens x = true
      · rw [if_pos ho, Option.some.injEq]
        constructor
        · rintro rfl
          exact ⟨[], trace, rfl, ho, hc, by simp⟩
        · rintro ⟨newer, older, heq, _, _, hnewer⟩
          cases newer with
          | nil => cases heq; rfl
          | cons y newer =>
            cases heq
            have hy := (hnewer _ List.mem_cons_self).1
            rw [ho] at hy
            cases hy
      · rw [if_neg ho, ih]
        rw [Bool.not_eq_true] at ho
        constructor
        · rintro ⟨newer, older, rfl, hopen, hclose, hnewer⟩
          refine ⟨x :: newer, older, rfl, hopen, hclose, fun y hy => ?_⟩
          rcases List.mem_cons.mp hy with rfl | hy
          · exact ⟨ho, hc⟩
          · exact hnewer y hy
        · rintro ⟨newer, older, heq, hopen, hclose, hnewer⟩
          cases newer with
          | nil =>
            cases heq
            rw [ho] at hopen
            cases hopen
          | cons y newer =>
            cases heq
            exact ⟨newer, older, rfl, hopen, hclose,
              fun z hz => hnewer z (List.mem_cons_of_mem _ hz)⟩

/-- The answer opens, and lies in the trace. -/
theorem mem_of_latest {trace : List ε} {e : ε} (h : latest closes opens trace = some e) :
    e ∈ trace ∧ opens e = true ∧ closes e = false := by
  obtain ⟨newer, older, rfl, hopen, hclose, _⟩ := latest_eq_some.mp h
  exact ⟨List.mem_append_right _ List.mem_cons_self, hopen, hclose⟩

/-! ## What holds at every event

`P older e` speaks of an event and of what lies behind it in the trace. -/

theorem splits_nil {P : List ε → ε → Prop} :
    ∀ newer e older, ([] : List ε) = newer ++ e :: older → P older e := by
  intro newer e older h
  cases newer <;> cases h

theorem splits_cons {P : List ε → ε → Prop} {x : ε} {trace : List ε} (hx : P trace x)
    (h : ∀ newer e older, trace = newer ++ e :: older → P older e) :
    ∀ newer e older, x :: trace = newer ++ e :: older → P older e := by
  intro newer e older heq
  cases newer with
  | nil =>
    cases heq
    exact hx
  | cons y newer => exact h newer e older (List.cons.inj heq).2

end Base
