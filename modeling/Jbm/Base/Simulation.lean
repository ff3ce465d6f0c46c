import Jbm.Base.Exec

/-!
# Simulations between labelled machines

One machine refines another when there is a view of its states under which each of its steps is a
step of the other or changes nothing. The view may need an invariant. `Refines.run` lifts this to
runs: what holds of every run of the upper machine holds of the view of every run of the lower.

Where the label alone says which step of the other machine it is, if any, `exec_part` names the
run: the one of the labels that are kept.
-/

set_option autoImplicit false

namespace Base

variable {σ τ ℓ κ : Type}

/-- Under the invariant `I`, which is kept, a step of the lower machine seen through `view` is a
step of the upper machine, or none. -/
structure Refines (step : σ → ℓ → Option σ) (I : σ → Prop) (step' : τ → κ → Option τ)
    (view : σ → τ) : Prop where
  keep : ∀ s l s', I s → step s l = some s' → I s'
  sim : ∀ s l s', I s → step s l = some s' →
    view s' = view s ∨ ∃ k, step' (view s) k = some (view s')

/-- A run of the lower machine is a run of the upper one. -/
theorem Refines.run {step : σ → ℓ → Option σ} {I : σ → Prop} {step' : τ → κ → Option τ}
    {view : σ → τ} (h : Refines step I step' view) {ls : List ℓ} {s s' : σ} (hs : I s)
    (hrun : exec step s ls = some s') : ∃ ks, exec step' (view s) ks = some (view s') := by
  induction ls generalizing s with
  | nil =>
    obtain rfl : s = s' := by simpa using hrun
    exact ⟨[], rfl⟩
  | cons l ls ih =>
    obtain ⟨m, hm, hrest⟩ := exec_cons.mp hrun
    obtain ⟨ks, hks⟩ := ih (h.keep s l m hs hm) hrest
    rcases h.sim s l m hs hm with hsame | ⟨k, hk⟩
    · exact ⟨ks, hsame ▸ hks⟩
    · exact ⟨k :: ks, exec_cons.mpr ⟨_, hk, hks⟩⟩

/-- Where every step that meets `ok` is, through `view`, the step of what `part` keeps of its label,
and nothing when that is nothing, a run whose steps meet `ok` is the run of the labels kept. -/
theorem exec_part {step : σ → ℓ → Option σ} {ok : σ → ℓ → Prop} {step' : τ → κ → Option τ}
    {view : σ → τ} {part : ℓ → Option κ}
    (sim : ∀ s l s', ok s l → step s l = some s' →
      exec step' (view s) (part l).toList = some (view s')) {ls : List ℓ} {s s' : σ}
    (hok : Meets step ok s ls) (hrun : exec step s ls = some s') :
    exec step' (view s) (ls.filterMap part) = some (view s') := by
  induction ls generalizing s with
  | nil =>
    obtain rfl : s = s' := by simpa using hrun
    rfl
  | cons l ls ih =>
    obtain ⟨m, hm, hrest⟩ := exec_cons.mp hrun
    have hfirst := sim s l m hok.1 hm
    have hls := ih (hok.tail hm) hrest
    cases hpart : part l with
    | none =>
      rw [hpart] at hfirst
      rw [List.filterMap_cons_none hpart, Option.some.inj hfirst]
      exact hls
    | some k =>
      rw [hpart] at hfirst
      rw [List.filterMap_cons_some hpart, ← List.singleton_append, exec_append]
      exact Option.bind_eq_some_iff.mpr ⟨_, hfirst, hls⟩

end Base
