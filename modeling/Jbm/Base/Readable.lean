import Mathlib.Data.List.Basic
import Mathlib.Data.Nat.Basic

/-!
# Texts that can be read back

When does a printed text say what was printed? The lemmas here take the equation of two texts apart
from the left, one word at a time. A word ends at a mark it holds a known number of times
(`word_inj`), or at a mark that does not come again for as long as the word may be (`short_inj`); a
numeral ends at anything that is not a digit (`numeral_inj`). A list of items ends where no item can
begin (`Items.inj`).
-/

set_option autoImplicit false

namespace Base

variable {α γ : Type}

/-! ## Words -/

/-- Two texts cut at a mark: at the same place, or one behind a mark in the other's word. -/
theorem mark_cases {c : γ} {u v r s : List γ} (h : u ++ c :: r = v ++ c :: s) :
    (u = v ∧ r = s) ∨ (∃ w, v = u ++ c :: w ∧ r = w ++ c :: s) ∨
      ∃ w, u = v ++ c :: w ∧ s = w ++ c :: r := by
  rcases List.append_eq_append_iff.mp h with ⟨w, rfl, hr⟩ | ⟨w, rfl, hs⟩
  · cases w with
    | nil =>
      cases hr
      exact .inl ⟨(List.append_nil u).symm, rfl⟩
    | cons d w =>
      obtain ⟨rfl, rfl⟩ := List.cons_eq_cons.mp hr
      exact .inr (.inl ⟨w, rfl, rfl⟩)
  · cases w with
    | nil =>
      cases hs
      exact .inl ⟨List.append_nil v, rfl⟩
    | cons d w =>
      obtain ⟨rfl, rfl⟩ := List.cons_eq_cons.mp hs
      exact .inr (.inr ⟨w, rfl, rfl⟩)

/-- A word with a known number of marks ends at the next one. -/
theorem word_inj [DecidableEq γ] {c : γ} {k : Nat} {u v r s : List γ} (hu : u.count c = k)
    (hv : v.count c = k) (h : u ++ c :: r = v ++ c :: s) : u = v ∧ r = s := by
  rcases mark_cases h with heq | ⟨w, rfl, _⟩ | ⟨w, rfl, _⟩
  · exact heq
  · rw [List.count_append, List.count_cons_self] at hv
    omega
  · rw [List.count_append, List.count_cons_self] at hu
    omega

/-- A word of at most `n` letters ends at the mark behind which none comes for `n` letters. -/
theorem short_inj {c : γ} {n : Nat} {u v r s : List γ} (hu : u.length ≤ n) (hv : v.length ≤ n)
    (hr : c ∉ r.take n) (hs : c ∉ s.take n) (h : u ++ c :: r = v ++ c :: s) : u = v ∧ r = s := by
  have early : ∀ {w t : List γ}, w.length < n → c ∈ (w ++ c :: t).take n := by
    intro w t hw
    refine List.mem_take_iff_getElem.mpr ⟨w.length, ?_, by simp⟩
    simp only [List.length_append, List.length_cons]
    omega
  rcases mark_cases h with heq | ⟨w, rfl, rfl⟩ | ⟨w, rfl, rfl⟩
  · exact heq
  · simp only [List.length_append, List.length_cons] at hv
    exact absurd (early (by omega)) hr
  · simp only [List.length_append, List.length_cons] at hu
    exact absurd (early (by omega)) hs

/-! ## Numerals -/

/-- The digits of the bases up to 16. -/
def digits : List Char := "0123456789abcdef".toList

theorem digitChar_inj : ∀ m < 16, ∀ n < 16, Nat.digitChar m = Nat.digitChar n → m = n := by decide

theorem digitChar_mem : ∀ n < 16, Nat.digitChar n ∈ digits := by decide

section Base

variable {b : Nat} (hb : 1 < b) (hb16 : b ≤ 16)

include hb

/-- A numeral and its last digit. -/
theorem toDigits_concat (n : Nat) : Nat.toDigits b n =
    (if n < b then [] else Nat.toDigits b (n / b)) ++ [Nat.digitChar (n % b)] := by
  rw [Nat.toDigits_eq_if hb]
  split
  · next h => rw [Nat.mod_eq_of_lt h, List.nil_append]
  · rfl

include hb16

/-- A numeral consists of digits. -/
theorem mem_digits {n : Nat} : ∀ {c : Char}, c ∈ Nat.toDigits b n → c ∈ digits := by
  induction n using Nat.strongRecOn with
  | ind n ih =>
    intro c hc
    rw [toDigits_concat hb, List.mem_append] at hc
    rcases hc with hc | hc
    · split at hc
      · cases hc
      · exact ih (n / b) (Nat.div_lt_self (by omega) hb) hc
    · rw [List.mem_singleton.mp hc]
      exact digitChar_mem _ (Nat.lt_of_lt_of_le (Nat.mod_lt n (by omega)) hb16)

/-- A numeral says its number. -/
theorem toDigits_inj {m : Nat} : ∀ {n : Nat}, Nat.toDigits b m = Nat.toDigits b n → m = n := by
  induction m using Nat.strongRecOn with
  | ind m ih =>
    intro n h
    rw [toDigits_concat hb m, toDigits_concat hb n] at h
    obtain ⟨hfront, hlast⟩ := List.append_inj' h rfl
    have below : ∀ k, k % b < 16 := fun k => Nat.lt_of_lt_of_le (Nat.mod_lt k (by omega)) hb16
    have hmod : m % b = n % b :=
      digitChar_inj _ (below m) _ (below n) (List.cons_eq_cons.mp hlast).1
    split at hfront
    · next hm =>
      split at hfront
      · next hn => rwa [Nat.mod_eq_of_lt hm, Nat.mod_eq_of_lt hn] at hmod
      · exact absurd hfront.symm Nat.toDigits_ne_nil
    · next hm =>
      split at hfront
      · exact absurd hfront Nat.toDigits_ne_nil
      · have hdiv := ih (m / b) (Nat.div_lt_self (by omega) hb) hfront
        calc
          m = b * (m / b) + m % b := (Nat.div_add_mod m b).symm
          _ = b * (n / b) + n % b := by rw [hdiv, hmod]
          _ = n := Nat.div_add_mod n b

/-- A numeral ends at what is not a digit. -/
theorem numeral_inj {c : Char} (hc : c ∉ digits) {m n : Nat} {r s : List Char}
    (h : Nat.toDigits b m ++ c :: r = Nat.toDigits b n ++ c :: s) : m = n ∧ r = s := by
  have none : ∀ k, (Nat.toDigits b k).count c = 0 := fun k =>
    List.count_eq_zero.mpr fun hmem => hc (mem_digits hb hb16 hmem)
  obtain ⟨hdigits, hrest⟩ := word_inj (none m) (none n) h
  exact ⟨toDigits_inj hb hb16 hdigits, hrest⟩

end Base

/-! ## Items -/

/-- The items of a list one behind the other, each printed with its number. -/
def numbered (p : Nat → α → List γ) (l : List α) (start : Nat) : List γ :=
  (l.zipIdx start).flatMap fun x => p x.2 x.1

@[simp] theorem numbered_nil (p : Nat → α → List γ) (start : Nat) : numbered p [] start = [] := rfl

@[simp] theorem numbered_cons (p : Nat → α → List γ) (a : α) (l : List α) (start : Nat) :
    numbered p (a :: l) start = p start a ++ numbered p l (start + 1) := rfl

/-- A separator in front of every item but the first, and one behind the last, is one behind every
item. -/
theorem numbered_separated (p : Nat → α → List γ) (sep : List γ) {l : List α} (h : l ≠ []) :
    numbered (fun i a => (if i = 0 then [] else sep) ++ p i a) l 0 ++ sep =
      numbered (fun i a => p i a ++ sep) l 0 := by
  have later : ∀ (l : List α) (start : Nat),
      numbered (fun i a => (if i = 0 then [] else sep) ++ p i a) l (start + 1) ++ sep =
        sep ++ numbered (fun i a => p i a ++ sep) l (start + 1) := by
    intro l
    induction l with
    | nil => simp
    | cons a l ih =>
      intro start
      rw [numbered_cons, List.append_assoc, ih, numbered_cons]
      simp
  cases l with
  | nil => exact absurd rfl h
  | cons a l =>
    rw [numbered_cons, List.append_assoc, later, numbered_cons]
    simp

/-- A printer of list items: it can be read back on `dom` before any text in `next`, and the texts
in `fin`, before which a list may end, are told from those of another item. -/
structure Items (dom : α → Prop) (next fin : List γ → Prop) (p : Nat → α → List γ) : Prop where
  item : ∀ {i a b r s}, dom a → dom b → next r → next s → p i a ++ r = p i b ++ s → a = b ∧ r = s
  goes_on : ∀ {i a r}, next r → next (p i a ++ r)
  ends : ∀ {r}, fin r → next r
  tells : ∀ {i a r}, ¬ fin (p i a ++ r)

section Items

variable {dom : α → Prop} {next fin : List γ → Prop} {p : Nat → α → List γ}

theorem Items.next_numbered (h : Items dom next fin p) (l : List α) {start : Nat} {r : List γ}
    (hr : fin r) : next (numbered p l start ++ r) := by
  induction l generalizing start with
  | nil => exact h.ends hr
  | cons a l ih =>
    rw [numbered_cons, List.append_assoc]
    exact h.goes_on ih

/-- The text of a list says its items, and where it ends. -/
theorem Items.inj (h : Items dom next fin p) {l l' : List α} {start : Nat} {r s : List γ}
    (hl : ∀ a ∈ l, dom a) (hl' : ∀ a ∈ l', dom a) (hr : fin r) (hs : fin s)
    (heq : numbered p l start ++ r = numbered p l' start ++ s) : l = l' ∧ r = s := by
  induction l generalizing l' start with
  | nil =>
    cases l' with
    | nil => exact ⟨rfl, heq⟩
    | cons b l' =>
      rw [numbered_nil, numbered_cons, List.nil_append, List.append_assoc] at heq
      exact absurd (heq ▸ hr) h.tells
  | cons a l ih =>
    cases l' with
    | nil =>
      rw [numbered_nil, numbered_cons, List.nil_append, List.append_assoc] at heq
      exact absurd (heq ▸ hs) h.tells
    | cons b l' =>
      rw [numbered_cons, numbered_cons, List.append_assoc, List.append_assoc] at heq
      obtain ⟨rfl, hrest⟩ := h.item (hl a List.mem_cons_self) (hl' b List.mem_cons_self)
        (h.next_numbered l hr) (h.next_numbered l' hs) heq
      obtain ⟨rfl, hend⟩ := ih (fun a ha => hl a (List.mem_cons_of_mem _ ha))
        (fun a ha => hl' a (List.mem_cons_of_mem _ ha)) hrest
      exact ⟨rfl, hend⟩

end Items

end Base
