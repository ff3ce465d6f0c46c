import Mathlib.Data.Finmap

/-!
# Maps with a capacity

A finite map with room for a fixed number of keys, as a kernel's hash map has: an insert of a
key that is present overwrites it, an insert of an absent key fails when the map is full, and a
removal of an absent key fails. That the map is never over its capacity is part of the carrier.
-/

set_option autoImplicit false

namespace Base

/-- A finite map of at most `cap` entries. -/
structure BoundedMap (κ ν : Type) [DecidableEq κ] (cap : Nat) where
  map : Finmap (fun _ : κ => ν)
  bounded : map.keys.card ≤ cap

namespace BoundedMap

variable {κ ν : Type} [DecidableEq κ] {cap : Nat}

def get? (m : BoundedMap κ ν cap) (k : κ) : Option ν := m.map.lookup k

/-- The keys present. -/
def keys (m : BoundedMap κ ν cap) : Finset κ := m.map.keys

/-- The number of entries. -/
def size (m : BoundedMap κ ν cap) : Nat := m.keys.card

def empty : BoundedMap κ ν cap := ⟨∅, by simp⟩

@[simp] theorem get?_empty (k : κ) : (empty : BoundedMap κ ν cap).get? k = none := by
  simp [get?, empty]

theorem mem_keys {m : BoundedMap κ ν cap} {k : κ} : k ∈ m.keys ↔ (m.get? k).isSome := by
  rw [keys, get?, Finmap.mem_keys, Finmap.lookup_isSome]

theorem not_mem_keys {m : BoundedMap κ ν cap} {k : κ} : k ∉ m.keys ↔ m.get? k = none := by
  rw [mem_keys, Bool.not_eq_true, Option.isSome_eq_false_iff, Option.isNone_iff_eq_none]

/-- Whether an insert of `k` finds room: the key is present, or the map is not full. -/
def hasRoom (m : BoundedMap κ ν cap) (k : κ) : Bool := decide (k ∈ m.keys ∨ m.size < cap)

private theorem keys_insert (m : Finmap (fun _ : κ => ν)) (k : κ) (v : ν) :
    (m.insert k v).keys = insert k m.keys := by
  ext x
  simp [Finmap.mem_keys, Finmap.mem_insert]

/-- Write `v` under `k`; `none` is the failure of an absent key in a full map. -/
def insert (m : BoundedMap κ ν cap) (k : κ) (v : ν) : Option (BoundedMap κ ν cap) :=
  if h : k ∈ m.keys ∨ m.size < cap then
    some
      { map := m.map.insert k v
        bounded := by
          rw [keys_insert]
          rcases h with h | h
          · rw [Finset.insert_eq_self.mpr (show k ∈ m.map.keys from h)]; exact m.bounded
          · exact (Finset.card_insert_le _ _).trans h }
  else none

/-- Drop `k`; `none` is the failure of an absent key. -/
def remove (m : BoundedMap κ ν cap) (k : κ) : Option (BoundedMap κ ν cap) :=
  if k ∈ m.keys then
    some
      { map := m.map.erase k
        bounded := by rw [Finmap.keys_erase]; exact Finset.card_erase_le.trans m.bounded }
  else none

theorem insert_eq_none {m : BoundedMap κ ν cap} {k : κ} {v : ν} :
    m.insert k v = none ↔ m.get? k = none ∧ m.size = cap := by
  unfold insert
  split
  · next h =>
    simp only [reduceCtorEq, false_iff, not_and]
    intro hk
    rcases h with h | h
    · exact absurd h (not_mem_keys.mpr hk)
    · exact Nat.ne_of_lt h
  · next h =>
    simp only [not_or, Nat.not_lt] at h
    exact ⟨fun _ => ⟨not_mem_keys.mp h.1, Nat.le_antisymm m.bounded h.2⟩, fun _ => rfl⟩

/-- An insert that finds room does not fail. -/
theorem insert_ne_none {m : BoundedMap κ ν cap} {k : κ} (h : m.hasRoom k = true) (v : ν) :
    m.insert k v ≠ none := by
  unfold insert
  rw [dif_pos (of_decide_eq_true h)]
  exact Option.some_ne_none _

/-- An insert that finds no room fails. -/
theorem insert_of_no_room {m : BoundedMap κ ν cap} {k : κ} (h : m.hasRoom k = false) (v : ν) :
    m.insert k v = none := by
  unfold insert
  rw [dif_neg (of_decide_eq_false h)]

/-- What a successful insert leaves under each key. -/
theorem get?_of_insert {m m' : BoundedMap κ ν cap} {k : κ} {v : ν} (h : m.insert k v = some m')
    (k' : κ) : m'.get? k' = if k' = k then some v else m.get? k' := by
  unfold insert at h
  split at h
  · cases h
    unfold get?
    by_cases hk : k' = k
    · subst hk
      simp [Finmap.lookup_insert]
    · simp [hk, Finmap.lookup_insert_of_ne _ hk]
  · cases h

theorem remove_eq_none {m : BoundedMap κ ν cap} {k : κ} : m.remove k = none ↔ m.get? k = none := by
  unfold remove
  split
  · next h => simpa using fun hk => not_mem_keys.mpr hk h
  · next h => simpa using not_mem_keys.mp h

/-- What a successful removal leaves under each key. -/
theorem get?_of_remove {m m' : BoundedMap κ ν cap} {k : κ} (h : m.remove k = some m')
    (k' : κ) : m'.get? k' = if k' = k then none else m.get? k' := by
  unfold remove at h
  split at h
  · cases h
    unfold get?
    by_cases hk : k' = k
    · subst hk
      simp
    · simp [hk, Finmap.lookup_erase_ne hk]
  · cases h

end BoundedMap

end Base
