import Mathlib.Data.Finmap

/-!
# Queues filed by key

A finite map from keys to queues, as a program keeps one when it appends every item to the queue
of the item's own key (`entry(key).or_insert_with(new).push_back(item)`) and removes a key once
its queue has run empty. Two facts about such a map are part of the carrier, so no operation can
lose them: an item lies only in the queue of its own key, and no key holds an empty queue. The
second makes the map a function of its queues (`ext_queue`).

`Visits` is an iteration order of the keys: every key exactly once, in any order, which is all an
unordered map promises.
-/

set_option autoImplicit false

namespace Base

variable {κ α : Type} [DecidableEq κ]

/-- A finite map of non-empty queues, each item under its own key. -/
structure Filing (key : α → κ) where
  map : Finmap (fun _ : κ => List α)
  filed : ∀ k q, map.lookup k = some q → q ≠ [] ∧ ∀ a ∈ q, key a = k

namespace Filing

variable {key : α → κ}

/-- The queue of one key, empty when the key is absent. -/
def queue (m : Filing key) (k : κ) : List α := (m.map.lookup k).getD []

/-- Every item of a queue carries the queue's key. -/
theorem key_of_mem (m : Filing key) {k : κ} {a : α} (h : a ∈ m.queue k) : key a = k := by
  unfold queue at h
  cases hl : m.map.lookup k with
  | none => rw [hl] at h; simp at h
  | some q => rw [hl] at h; exact (m.filed k q hl).2 a h

/-- A key is present exactly when its queue holds something. -/
theorem lookup_eq (m : Filing key) (k : κ) :
    m.map.lookup k = if m.queue k = [] then none else some (m.queue k) := by
  unfold queue
  cases hl : m.map.lookup k with
  | none => simp
  | some q => simp [(m.filed k q hl).1]

theorem mem_map_iff (m : Filing key) (k : κ) : k ∈ m.map ↔ m.queue k ≠ [] := by
  rw [← Finmap.lookup_isSome, lookup_eq]
  split <;> simp_all

/-- The map is a function of its queues. -/
theorem ext_queue {m m' : Filing key} (h : ∀ k, m.queue k = m'.queue k) : m = m' := by
  have hmap : m.map = m'.map := Finmap.ext_lookup fun k => by
    rw [lookup_eq, lookup_eq, h k]
  cases m
  cases m'
  cases hmap
  rfl

/-- No key at all. -/
def empty : Filing key := ⟨∅, fun k q h => by simp at h⟩

@[simp] theorem queue_empty (k : κ) : (empty : Filing key).queue k = [] := by
  simp [queue, empty]

/-- `entry(key a).or_insert_with(new).push_back(a)`. -/
def push (m : Filing key) (a : α) : Filing key where
  map := m.map.insert (key a) (m.queue (key a) ++ [a])
  filed := fun k q h => by
    by_cases hk : k = key a
    · subst hk
      rw [Finmap.lookup_insert, Option.some.injEq] at h
      subst h
      refine ⟨by simp, fun b hb => ?_⟩
      rcases List.mem_append.mp hb with hb | hb
      · exact m.key_of_mem hb
      · rw [List.mem_singleton.mp hb]
    · rw [Finmap.lookup_insert_of_ne _ hk] at h
      exact m.filed k q h

/-- A push appends to the item's own queue and touches no other. -/
theorem queue_push (m : Filing key) (a : α) (k : κ) :
    (m.push a).queue k = m.queue k ++ [a].filter (key · = k) := by
  unfold push
  by_cases hk : k = key a
  · subst hk
    simp [queue, Finmap.lookup_insert]
  · have hk' : ¬ key a = k := fun h => hk h.symm
    simp [queue, Finmap.lookup_insert_of_ne _ hk, hk']

theorem queue_push_self (m : Filing key) {a : α} {k : κ} (h : key a = k) :
    (m.push a).queue k = m.queue k ++ [a] := by
  rw [queue_push, List.filter_cons_of_pos (by simpa using h), List.filter_nil]

theorem queue_push_of_ne (m : Filing key) {a : α} {k : κ} (h : key a ≠ k) :
    (m.push a).queue k = m.queue k := by
  rw [queue_push, List.filter_cons_of_neg (by simpa using h), List.filter_nil, List.append_nil]

/-- Push a list of items, first to last. -/
def pushAll (m : Filing key) (as : List α) : Filing key := as.foldl push m

theorem queue_pushAll (m : Filing key) (as : List α) (k : κ) :
    (m.pushAll as).queue k = m.queue k ++ as.filter (key · = k) := by
  unfold pushAll
  induction as generalizing m with
  | nil => simp
  | cons a as ih =>
    rw [List.foldl_cons, ih, queue_push, List.append_assoc, ← List.filter_append,
      List.singleton_append]

theorem pushAll_append (m : Filing key) (as bs : List α) :
    m.pushAll (as ++ bs) = (m.pushAll as).pushAll bs := List.foldl_append

/-- The items of a queue all carry its key. -/
theorem filter_queue (m : Filing key) (k k' : κ) :
    (m.queue k).filter (key · = k') = if k' = k then m.queue k else [] := by
  by_cases hk : k' = k
  · subst hk
    rw [if_pos rfl, List.filter_eq_self]
    exact fun a ha => decide_eq_true (m.key_of_mem ha)
  · rw [if_neg hk, List.filter_eq_nil_iff]
    intro a ha
    rw [m.key_of_mem ha]
    simpa using Ne.symm hk

/-- The queue of one key, the others left out. -/
def only (m : Filing key) (k : κ) : Filing key := empty.pushAll (m.queue k)

@[simp] theorem queue_only (m : Filing key) (k k' : κ) :
    (m.only k).queue k' = if k' = k then m.queue k else [] := by
  rw [only, queue_pushAll, queue_empty, List.nil_append, filter_queue]

/-- Pushing and leaving out the other keys commute, where the items of other keys are not pushed. -/
theorem only_pushAll (m : Filing key) (as : List α) (k : κ) :
    (m.pushAll as).only k = (m.only k).pushAll (as.filter (key · = k)) := by
  refine ext_queue fun k' => ?_
  rw [queue_only, queue_pushAll, queue_pushAll, queue_only, List.filter_filter]
  by_cases hk : k' = k
  · subst hk
    simp
  · rw [if_neg hk, if_neg hk, List.nil_append, eq_comm, List.filter_eq_nil_iff]
    intro a _
    simp only [Bool.and_eq_true, decide_eq_true_eq, not_and]
    rintro rfl rfl
    exact hk rfl

/-- Leave `q` in the queue of `k`, what is left of it after removals from its front, and drop
the key when nothing is left. -/
def settle (m : Filing key) (k : κ) (q : List α) (left : q <:+ m.queue k) : Filing key where
  map := if q = [] then m.map.erase k else m.map.insert k q
  filed := fun k' q' h => by
    by_cases hk : k' = k
    · subst hk
      split at h
      · simp at h
      · next hq =>
        rw [Finmap.lookup_insert, Option.some.injEq] at h
        subst h
        exact ⟨hq, fun a ha => m.key_of_mem (left.subset ha)⟩
    · split at h
      · rw [Finmap.lookup_erase_ne hk] at h
        exact m.filed k' q' h
      · rw [Finmap.lookup_insert_of_ne _ hk] at h
        exact m.filed k' q' h

@[simp] theorem queue_settle_self (m : Filing key) (k : κ) (q : List α)
    (left : q <:+ m.queue k) : (m.settle k q left).queue k = q := by
  unfold settle queue
  by_cases hq : q = []
  · simp [hq]
  · simp [hq, Finmap.lookup_insert]

theorem queue_settle_of_ne (m : Filing key) {k k' : κ} (q : List α)
    (left : q <:+ m.queue k) (hne : k' ≠ k) : (m.settle k q left).queue k' = m.queue k' := by
  unfold settle queue
  split
  · rw [Finmap.lookup_erase_ne hne]
  · rw [Finmap.lookup_insert_of_ne _ hne]

/-- The keys present. -/
def keys (m : Filing key) : Finset κ := m.map.keys

theorem mem_keys {m : Filing key} {k : κ} : k ∈ m.keys ↔ m.queue k ≠ [] := by
  rw [keys, Finmap.mem_keys, mem_map_iff]

/-- `order` lists every key exactly once. -/
def Visits (m : Filing key) (order : List κ) : Prop :=
  order.Nodup ∧ order.toFinset = m.keys

instance (m : Filing key) (order : List κ) : Decidable (m.Visits order) :=
  inferInstanceAs (Decidable (_ ∧ _))

theorem Visits.mem_iff {m : Filing key} {order : List κ} (h : m.Visits order) (k : κ) :
    k ∈ order ↔ m.queue k ≠ [] := by
  rw [← List.mem_toFinset, h.2, mem_keys]

theorem visits_iff {m : Filing key} {order : List κ} :
    m.Visits order ↔ order.Nodup ∧ ∀ k, k ∈ order ↔ m.queue k ≠ [] := by
  refine ⟨fun h => ⟨h.1, h.mem_iff⟩, fun h => ⟨h.1, ?_⟩⟩
  ext k
  rw [List.mem_toFinset, mem_keys]
  exact h.2 k

/-- An order without the other keys is one of the map without them. -/
theorem Visits.only {m : Filing key} {order : List κ} (h : m.Visits order) (k : κ) :
    (m.only k).Visits (order.filter (· = k)) := by
  refine visits_iff.mpr ⟨h.1.filter _, fun k' => ?_⟩
  rw [List.mem_filter, h.mem_iff, decide_eq_true_eq, queue_only]
  by_cases hk : k' = k
  · subst hk
    simp
  · simp [hk]

/-- Two orders of the keys are permutations of each other, and so is whatever one permutes to. -/
theorem Visits.perm_iff {m : Filing key} {order order' : List κ} (h : m.Visits order) :
    m.Visits order' ↔ order.Perm order' := by
  constructor
  · intro h'
    apply (List.perm_ext_iff_of_nodup h.1 h'.1).mpr
    exact fun k => (h.mem_iff k).trans (h'.mem_iff k).symm
  · intro hp
    exact ⟨hp.nodup_iff.mp h.1, (List.toFinset_eq_of_perm _ _ hp).symm.trans h.2⟩

/-- Of all queues, one behind the other, a key's part is its queue. -/
theorem Visits.filter_flatMap {m : Filing key} {order : List κ} (h : m.Visits order) (k : κ) :
    (order.flatMap m.queue).filter (key · = k) = m.queue k := by
  have part : ∀ ks : List κ, ks.Nodup →
      (ks.flatMap m.queue).filter (key · = k) = if k ∈ ks then m.queue k else [] := by
    intro ks
    induction ks with
    | nil => intro _; rfl
    | cons k' ks ih =>
      intro hn
      obtain ⟨hk', hn⟩ := List.nodup_cons.mp hn
      rw [List.flatMap_cons, List.filter_append, filter_queue, ih hn]
      by_cases hk : k = k'
      · subst hk
        simp [hk']
      · simp [hk]
  rw [part order h.1]
  by_cases hk : k ∈ order
  · rw [if_pos hk]
  · rw [if_neg hk]
    by_contra hne
    exact hk ((h.mem_iff k).mpr (Ne.symm hne))

/-- When only `k` may be present, an order is empty or visits `k` alone. -/
theorem Visits.single {m : Filing key} {order : List κ} (h : m.Visits order) {k : κ}
    (only : ∀ k', k' ≠ k → m.queue k' = []) :
    (m.queue k = [] ∧ order = []) ∨ (m.queue k ≠ [] ∧ order = [k]) := by
  have hall : ∀ x ∈ order, x = k := by
    intro x hx
    by_contra hne
    exact (h.mem_iff x).mp hx (only x hne)
  by_cases hq : m.queue k = []
  · refine .inl ⟨hq, List.eq_nil_iff_forall_not_mem.mpr fun x hx => ?_⟩
    have hxk := hall x hx
    rw [hxk] at hx
    exact (h.mem_iff k).mp hx hq
  · refine .inr ⟨hq, ?_⟩
    have hk : k ∈ order := (h.mem_iff k).mpr hq
    obtain ⟨n, hn⟩ : ∃ n, order = List.replicate n k := ⟨_, List.eq_replicate_of_mem hall⟩
    subst hn
    have hle : n ≤ 1 := List.nodup_replicate.mp h.1
    obtain rfl : n = 1 := by
      have : 0 < n := Nat.pos_of_ne_zero (List.mem_replicate.mp hk).1
      omega
    rfl

/-- The order when `k` alone is present. -/
theorem visits_singleton {m : Filing key} {k : κ} (only : ∀ k', k' ≠ k → m.queue k' = [])
    (hq : m.queue k ≠ []) : m.Visits [k] := by
  refine visits_iff.mpr ⟨List.nodup_singleton k, fun k' => ?_⟩
  rw [List.mem_singleton]
  constructor
  · rintro rfl
    exact hq
  · intro hq'
    by_contra hne
    exact hq' (only k' hne)

/-- Some iteration order exists. -/
theorem exists_visits (m : Filing key) : ∃ order, m.Visits order :=
  ⟨m.keys.toList, m.keys.nodup_toList, Finset.toList_toFinset _⟩

/-- Any keys present can be visited first, in any order among themselves. -/
theorem exists_visits_prefix (m : Filing key) (ks : List κ) (hn : ks.Nodup)
    (hk : ∀ k ∈ ks, m.queue k ≠ []) : ∃ rest, m.Visits (ks ++ rest) := by
  obtain ⟨order, ho⟩ := m.exists_visits
  refine ⟨order.filter (· ∉ ks), visits_iff.mpr ⟨?_, fun k => ?_⟩⟩
  · refine List.Nodup.append hn (ho.1.filter _) fun k hk₁ hk₂ => ?_
    simp only [List.mem_filter, decide_eq_true_eq] at hk₂
    exact hk₂.2 hk₁
  · simp only [List.mem_append, List.mem_filter, decide_eq_true_eq, ho.mem_iff]
    constructor
    · rintro (h | h)
      · exact hk k h
      · exact h.1
    · intro h
      by_cases hm : k ∈ ks
      · exact .inl hm
      · exact .inr ⟨h, hm⟩

end Filing

/-- Two lists whose parts under every key are the same hold the same items. -/
theorem perm_of_filter_eq [DecidableEq α] {key : α → κ} {l l' : List α}
    (h : ∀ k, l.filter (key · = k) = l'.filter (key · = k)) : l.Perm l' := by
  rw [List.perm_iff_count]
  intro a
  have hpart : ∀ as : List α, (as.filter (key · = key a)).count a = as.count a := fun as =>
    List.count_filter (by simp)
  rw [← hpart l, ← hpart l', h]

end Base
