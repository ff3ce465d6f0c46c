import Mathlib.Data.List.Basic

/-!
# Executions of a labelled machine

A machine is a partial step `σ → ℓ → Option σ`: the label carries every choice the outside
world makes (which operation, which clock reading, which order), and a step answers `none` when
that choice is not available in the state or when the step stops the machine. `exec` runs a list
of labels; a reachable state is one some execution answers.

`Meets` says that every step of an execution meets a condition in the state it starts from. It
is what a law about runs of a restricted kind assumes, and `exec_invariant` is the one induction
every such law goes through: what one step keeps, a whole execution keeps.
-/

set_option autoImplicit false

namespace Base

variable {σ ℓ : Type}

/-- Run the labels from left to right. -/
def exec (step : σ → ℓ → Option σ) : σ → List ℓ → Option σ
  | s, [] => some s
  | s, l :: ls => (step s l).bind fun s' => exec step s' ls

/-- Every step of the execution meets `ok` in the state the step starts from. -/
def Meets (step : σ → ℓ → Option σ) (ok : σ → ℓ → Prop) : σ → List ℓ → Prop
  | _, [] => True
  | s, l :: ls => ok s l ∧
    match step s l with
    | none => True
    | some s' => Meets step ok s' ls

/-- A condition that can be decided in one state can be decided along an execution. -/
def decideMeets (step : σ → ℓ → Option σ) (ok : σ → ℓ → Prop) [∀ s l, Decidable (ok s l)] :
    ∀ (s : σ) (ls : List ℓ), Decidable (Meets step ok s ls)
  | _, [] => .isTrue trivial
  | s, l :: ls =>
    match h : step s l with
    | none => decidable_of_iff (ok s l) (by simp [Meets, h])
    | some s' =>
      have := decideMeets step ok s' ls
      decidable_of_iff (ok s l ∧ Meets step ok s' ls) (by simp [Meets, h])

instance (step : σ → ℓ → Option σ) (ok : σ → ℓ → Prop) [∀ s l, Decidable (ok s l)] (s : σ)
    (ls : List ℓ) : Decidable (Meets step ok s ls) := decideMeets step ok s ls

variable {step : σ → ℓ → Option σ}

@[simp] theorem exec_nil (s : σ) : exec step s [] = some s := rfl

/-- The first step of an execution, and the execution after it. -/
theorem exec_cons {s s' : σ} {l : ℓ} {ls : List ℓ} :
    exec step s (l :: ls) = some s' ↔ ∃ m, step s l = some m ∧ exec step m ls = some s' := by
  simp only [exec, Option.bind_eq_some_iff]

/-- An execution of two label lists is an execution of the first, then of the second. -/
theorem exec_append (s : σ) (ls ks : List ℓ) :
    exec step s (ls ++ ks) = (exec step s ls).bind fun m => exec step m ks := by
  induction ls generalizing s with
  | nil => rfl
  | cons l ls ih =>
    simp only [List.cons_append, exec]
    cases step s l with
    | none => rfl
    | some m => exact ih m

/-- The last step of an execution, read off its end. -/
theorem exec_concat {s s' : σ} {ls : List ℓ} {l : ℓ} :
    exec step s (ls ++ [l]) = some s' ↔ ∃ m, exec step s ls = some m ∧ step m l = some s' := by
  simp only [exec_append, Option.bind_eq_some_iff, exec_cons, exec_nil, Option.some.injEq,
    exists_eq_right]

/-- A restricted run after its first step is one. -/
theorem Meets.tail {ok : σ → ℓ → Prop} {s s' : σ} {l : ℓ} {ls : List ℓ}
    (h : Meets step ok s (l :: ls)) (hs : step s l = some s') : Meets step ok s' ls := by
  have hrest := h.2
  rw [hs] at hrest
  exact hrest

/-- A restricted run before which a step that meets the condition is made is one. -/
theorem Meets.cons {ok : σ → ℓ → Prop} {s s' : σ} {l : ℓ} {ls : List ℓ} (hl : ok s l)
    (hs : step s l = some s') (h : Meets step ok s' ls) : Meets step ok s (l :: ls) := by
  refine ⟨hl, ?_⟩
  rw [hs]
  exact h

/-- Two restricted runs, one after the other, are one. -/
theorem Meets.append {ok : σ → ℓ → Prop} {s s' : σ} {ls ks : List ℓ} (h : Meets step ok s ls)
    (hs : exec step s ls = some s') (hks : Meets step ok s' ks) :
    Meets step ok s (ls ++ ks) := by
  induction ls generalizing s with
  | nil =>
    obtain rfl : s = s' := by simpa using hs
    exact hks
  | cons l ls ih =>
    obtain ⟨m, hm, hrest⟩ := exec_cons.mp hs
    exact .cons h.1 hm (ih (h.tail hm) hrest)

/-- Two conditions along a run are one. -/
theorem Meets.and {ok ok' : σ → ℓ → Prop} {s : σ} {ls : List ℓ} (h : Meets step ok s ls)
    (h' : Meets step ok' s ls) : Meets step (fun s l => ok s l ∧ ok' s l) s ls := by
  induction ls generalizing s with
  | nil => trivial
  | cons l ls ih =>
    refine ⟨⟨h.1, h'.1⟩, ?_⟩
    split
    · trivial
    · next m hm => exact ih (h.tail hm) (h'.tail hm)

/-- A condition that the labels alone meet. -/
theorem meets_of_labels {ok : σ → ℓ → Prop} {ls : List ℓ} (h : ∀ l ∈ ls, ∀ s, ok s l) (s : σ) :
    Meets step ok s ls := by
  induction ls generalizing s with
  | nil => trivial
  | cons l ls ih =>
    refine ⟨h l List.mem_cons_self s, ?_⟩
    split
    · trivial
    · exact ih (fun k hk => h k (List.mem_cons_of_mem _ hk)) _

/-- THE RUN LEMMA: what holds at the start and is kept by every step that meets `ok` holds at
the end of every execution whose steps meet `ok`. -/
theorem exec_invariant {ok : σ → ℓ → Prop} {I : σ → Prop}
    (keep : ∀ s l s', I s → ok s l → step s l = some s' → I s') :
    ∀ {ls : List ℓ} {s s' : σ}, I s → Meets step ok s ls → exec step s ls = some s' → I s'
  | [], s, s', hs, _, h => by
    obtain rfl : s = s' := by simpa only [exec_nil, Option.some.injEq] using h
    exact hs
  | l :: ls, s, s', hs, hok, h => by
    obtain ⟨m, hm, hrest⟩ := exec_cons.mp h
    exact exec_invariant keep (keep s l m hs hok.1 hm) (hok.tail hm) hrest

/-- Every execution meets no condition. -/
theorem meets_true (s : σ) (ls : List ℓ) : Meets step (fun _ _ => True) s ls :=
  meets_of_labels (fun _ _ _ => trivial) s

/-- What holds at the end of an execution and goes back along its steps holds after every step. -/
theorem meets_of_back {Q : σ → Prop} (back : ∀ s l s', step s l = some s' → Q s' → Q s) {s s' : σ}
    {ls : List ℓ} (h : exec step s ls = some s') (hQ : Q s') :
    Meets step (fun s l => ∀ s', step s l = some s' → Q s') s ls := by
  have start : ∀ {ls : List ℓ} {s : σ}, exec step s ls = some s' → Q s := by
    intro ls
    induction ls with
    | nil =>
      intro s h
      obtain rfl : s = s' := by simpa using h
      exact hQ
    | cons l ls ih =>
      intro s h
      obtain ⟨m, hm, hrest⟩ := exec_cons.mp h
      exact back s l m hm (ih hrest)
  induction ls generalizing s with
  | nil => trivial
  | cons l ls ih =>
    obtain ⟨m, hm, hrest⟩ := exec_cons.mp h
    refine ⟨fun m' hm' => ?_, ?_⟩
    · rw [hm, Option.some.injEq] at hm'
      exact hm' ▸ start hrest
    · rw [hm]
      exact ih hrest

/-- The run lemma without a condition on the steps. -/
theorem exec_keeps {I : σ → Prop} (keep : ∀ s l s', I s → step s l = some s' → I s')
    {ls : List ℓ} {s s' : σ} (hs : I s) (h : exec step s ls = some s') : I s' :=
  exec_invariant (fun s l s' hI _ => keep s l s' hI) hs (meets_true s ls) h

/-- The run lemma over what is still to be run: where the invariant and the condition make every
step answer, the execution answers, and the invariant holds at its end. -/
theorem exec_answers {ok : σ → ℓ → Prop} {I : σ → List ℓ → Prop}
    (keep : ∀ s l ls, I s (l :: ls) → ok s l → ∃ s', step s l = some s' ∧ I s' ls) {s : σ}
    {ls : List ℓ} (hs : I s ls) (hok : Meets step ok s ls) :
    ∃ s', exec step s ls = some s' ∧ I s' [] := by
  induction ls generalizing s with
  | nil => exact ⟨s, rfl, hs⟩
  | cons l ls ih =>
    obtain ⟨m, hm, hI⟩ := keep s l ls hs hok.1
    obtain ⟨s', hs', hI'⟩ := ih hI (hok.tail hm)
    exact ⟨s', exec_cons.mpr ⟨m, hm, hs'⟩, hI'⟩

/-- A condition that follows, under an invariant it keeps, from one the execution meets. -/
theorem exec_meets_of {I : σ → Prop} {ok Q : σ → ℓ → Prop}
    (meet : ∀ s l s', I s → ok s l → step s l = some s' → Q s l)
    (keep : ∀ s l s', I s → Q s l → step s l = some s' → I s') {ls : List ℓ} {s s' : σ} (hs : I s)
    (hok : Meets step ok s ls) (h : exec step s ls = some s') : Meets step Q s ls := by
  induction ls generalizing s with
  | nil => trivial
  | cons l ls ih =>
    obtain ⟨m, hm, hrest⟩ := exec_cons.mp h
    have hQ := meet s l m hs hok.1 hm
    exact .cons hQ hm (ih (keep s l m hs hQ hm) (hok.tail hm) hrest)

/-- What every step that answers meets under an invariant, an execution meets throughout. -/
theorem exec_meets {I : σ → Prop} {Q : σ → ℓ → Prop}
    (keep : ∀ s l s', I s → step s l = some s' → I s')
    (meet : ∀ s l s', I s → step s l = some s' → Q s l) {ls : List ℓ} {s s' : σ} (hs : I s)
    (h : exec step s ls = some s') : Meets step Q s ls :=
  exec_meets_of (fun s l m hI _ => meet s l m hI) (fun s l m hI _ => keep s l m hI) hs
    (meets_true s ls) h

/-- What one label's step brings about and every step keeps holds at the end of an execution with
that label. -/
theorem exec_brings {I : σ → Prop} {l : ℓ} (bring : ∀ s s', step s l = some s' → I s')
    (keep : ∀ s k s', I s → step s k = some s' → I s') {ls : List ℓ} {s s' : σ} (hl : l ∈ ls)
    (h : exec step s ls = some s') : I s' := by
  obtain ⟨before, after, rfl⟩ := List.append_of_mem hl
  rw [exec_append, Option.bind_eq_some_iff] at h
  obtain ⟨m, _, hafter⟩ := h
  obtain ⟨m', hm', hrest⟩ := exec_cons.mp hafter
  exact exec_keeps keep (bring m m' hm') hrest

end Base
