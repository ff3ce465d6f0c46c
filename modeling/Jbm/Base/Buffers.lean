import Mathlib.Data.List.Basic
import Mathlib.Data.List.Perm.Basic

/-!
# Buffers by index

A list of buffers of which a step changes one: what the buffers hold together changes by what the
step puts in or takes out, up to order. And buffers of encoded elements all of which decode: a read
of the first few decodes to the first few.
-/

set_option autoImplicit false

namespace Base

variable {α β γ : Type}

/-! ## One buffer changes -/

/-- Replacing one buffer exchanges its content for the new one. -/
theorem perm_flatMap_set {f : α → List β} {l : List α} {i : Nat} {a b : α} (h : l[i]? = some a) :
    ((l.set i b).flatMap f ++ f a).Perm (l.flatMap f ++ f b) := by
  induction l generalizing i with
  | nil => cases h
  | cons x l ih =>
    cases i with
    | zero =>
      obtain rfl : x = a := by simpa using h
      rw [List.set_cons_zero, List.flatMap_cons, List.flatMap_cons, List.append_assoc]
      exact List.perm_append_comm.trans (List.perm_append_comm.append_right _)
    | succ i =>
      simp only [List.set_cons_succ, List.flatMap_cons, List.append_assoc]
      exact (ih (by simpa using h)).append_left _

/-- What is put into one buffer is put into the buffers. -/
theorem perm_flatMap_modify {f : α → List β} {l : List α} {i : Nat} {g : α → α} {new : List β}
    (hi : i < l.length) (h : ∀ a, f (g a) = f a ++ new) :
    ((l.modify i g).flatMap f).Perm (l.flatMap f ++ new) := by
  induction l generalizing i with
  | nil => cases hi
  | cons x l ih =>
    cases i with
    | zero =>
      simp only [List.modify_zero_cons, List.flatMap_cons, h, List.append_assoc]
      exact List.perm_append_comm.append_left _
    | succ i =>
      simp only [List.modify_succ_cons, List.flatMap_cons, List.append_assoc]
      exact (ih (by simpa using hi)).append_left _

/-- A change of one buffer, seen through a function. -/
theorem map_modify {f : α → β} {g : α → α} {g' : β → β} (h : ∀ a, f (g a) = g' (f a))
    (l : List α) (i : Nat) : (l.modify i g).map f = (l.map f).modify i g' := by
  induction l generalizing i with
  | nil => simp
  | cons x l ih =>
    cases i with
    | zero => simp [h]
    | succ i => simp [ih]

/-! ## Buffers that decode -/

section Decode

variable {f : α → Option β} {l : List α}

/-- Reading a list all of which decodes. -/
theorem mapM_eq_filterMap (h : ∀ a ∈ l, (f a).isSome) : l.mapM f = some (l.filterMap f) := by
  induction l with
  | nil => rfl
  | cons a l ih =>
    obtain ⟨b, hb⟩ := Option.isSome_iff_exists.mp (h a List.mem_cons_self)
    rw [List.mapM_cons, ih fun x hx => h x (List.mem_cons_of_mem _ hx), hb,
      List.filterMap_cons_some hb]
    rfl

/-- The first elements decode to the first decoded elements. -/
theorem filterMap_take (h : ∀ a ∈ l, (f a).isSome) (n : Nat) :
    (l.take n).filterMap f = (l.filterMap f).take n := by
  induction l generalizing n with
  | nil => simp
  | cons a l ih =>
    obtain ⟨b, hb⟩ := Option.isSome_iff_exists.mp (h a List.mem_cons_self)
    cases n with
    | zero => simp
    | succ n =>
      rw [List.take_succ_cons, List.filterMap_cons_some hb, List.filterMap_cons_some hb,
        List.take_succ_cons, ih fun x hx => h x (List.mem_cons_of_mem _ hx)]

theorem filterMap_drop (h : ∀ a ∈ l, (f a).isSome) (n : Nat) :
    (l.drop n).filterMap f = (l.filterMap f).drop n := by
  induction l generalizing n with
  | nil => simp
  | cons a l ih =>
    obtain ⟨b, hb⟩ := Option.isSome_iff_exists.mp (h a List.mem_cons_self)
    cases n with
    | zero => simp
    | succ n =>
      rw [List.drop_succ_cons, List.filterMap_cons_some hb, List.drop_succ_cons,
        ih fun x hx => h x (List.mem_cons_of_mem _ hx)]

end Decode

end Base
