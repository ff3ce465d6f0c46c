import Jbm.Base.Exec

/-!
# What is observed along an execution

A machine's steps answer a state; an observer says what is worth recording about a step from the
state it starts in. `trail` is everything recorded along an execution, in order.

Two rules go with it. `forall_trail`: what every observation satisfies under an invariant, all of
the trail satisfies. `exec_with_trail`: an invariant that speaks of a record containing all
observations so far is one that speaks of the whole trail.
-/

set_option autoImplicit false

namespace Base

variable {σ ℓ β : Type}

/-- What `obs` records along the execution of the labels. -/
def trail (step : σ → ℓ → Option σ) (obs : σ → ℓ → List β) : σ → List ℓ → List β
  | _, [] => []
  | s, l :: ls => obs s l ++
    match step s l with
    | none => []
    | some s' => trail step obs s' ls

variable {step : σ → ℓ → Option σ} {obs : σ → ℓ → List β}

theorem trail_cons {s s' : σ} {l : ℓ} (h : step s l = some s') (ls : List ℓ) :
    trail step obs s (l :: ls) = obs s l ++ trail step obs s' ls := by
  rw [trail, h]

/-- What the observations of every step that meets `ok` satisfy, the trail satisfies. -/
theorem forall_trail {ok : σ → ℓ → Prop} {I : σ → Prop} {P : β → Prop}
    (keep : ∀ s l s', I s → ok s l → step s l = some s' → I s')
    (observed : ∀ s l s', I s → ok s l → step s l = some s' → ∀ b ∈ obs s l, P b)
    {ls : List ℓ} {s s' : σ} (hs : I s) (hok : Meets step ok s ls) (h : exec step s ls = some s') :
    ∀ b ∈ trail step obs s ls, P b := by
  induction ls generalizing s with
  | nil => simp [trail]
  | cons l ls ih =>
    obtain ⟨m, hm, hrest⟩ := exec_cons.mp h
    rw [trail_cons hm]
    intro b hb
    rcases List.mem_append.mp hb with hb | hb
    · exact observed s l m hs hok.1 hm b hb
    · exact ih (keep s l m hs hok.1 hm) (hok.tail hm) hrest b hb

/-- What is kept by every step whose observations a record holds is kept by every execution whose
trail it holds. -/
theorem exec_with_trail {I : σ → Prop} {record : List β}
    (keep : ∀ s l s', I s → obs s l ⊆ record → step s l = some s' → I s')
    {ls : List ℓ} {s s' : σ} (hs : I s) (hrecord : trail step obs s ls ⊆ record)
    (h : exec step s ls = some s') : I s' := by
  induction ls generalizing s with
  | nil =>
    obtain rfl : s = s' := by simpa using h
    exact hs
  | cons l ls ih =>
    obtain ⟨m, hm, hrest⟩ := exec_cons.mp h
    rw [trail_cons hm, List.append_subset] at hrecord
    exact ih (keep s l m hs hrecord.1 hm) hrecord.2 hrest

end Base
