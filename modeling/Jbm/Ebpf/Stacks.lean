import Jbm.Ebpf.TryJbm

/-!
# `STACK_TRACES`

The map both stack ids of an event point into. The map is the kernel's, and user space reads it
through a library: `StackMap` is whatever the two do. What is documented of them are `Retains`,
`Names` and `Lists`, and a result that rests on one of these assumes it by name. `slotMap` keeps all
three.

`submits` says whether a run of `try_jbm` gets as far as asking for the two ids, and `stackIds`
what it is answered then.
-/

set_option autoImplicit false

namespace Jbm

open Base

/-- The stack maps of a kernel: those with room for `cap` stacks, what `get_stackid` does to one,
and what user space reads of it. -/
structure StackMap where
  Map : Nat → Type
  /-- the map the loader creates -/
  create (cap : Nat) : Map cap
  /-- `get_stackid` of a thread whose stack has these instruction pointers -/
  getStackid {cap : Nat} (stack : List UInt64) (m : Map cap) : Except Int64 Int64 × Map cap
  /-- `stack_traces.get(&id, 0)` -/
  get {cap : Nat} (m : Map cap) (id : UInt32) : Option (List UInt64)
  /-- the ids `stack_traces.iter()` goes through -/
  ids {cap : Nat} (m : Map cap) : List UInt32
  /-- what is stored of a stack, and read back -/
  shown (stack : List UInt64) : List UInt64

namespace StackMap

/-- `stack_traces.iter().count()` -/
def size (M : StackMap) {cap : Nat} (m : M.Map cap) : Nat := (M.ids m).length

/-- `get_stackid` discards no stack, since the program does not ask for it. -/
structure Retains (M : StackMap) : Prop where
  get {cap : Nat} (stack : List UInt64) (m : M.Map cap) (id : UInt32) (ips : List UInt64) :
    M.get m id = some ips → M.get (M.getStackid stack m).2 id = some ips

/-- The id of a stack names it. -/
structure Names (M : StackMap) : Prop where
  get {cap : Nat} (stack : List UInt64) (m : M.Map cap) (id : Int64) :
    (M.getStackid stack m).1 = .ok id →
      M.get (M.getStackid stack m).2 id.toUInt64.toUInt32 = some (M.shown stack)

/-- `iter` goes once through the ids of the stored stacks, and there are no more of them than the
map has room for. -/
structure Lists (M : StackMap) : Prop where
  nodup {cap : Nat} (m : M.Map cap) : (M.ids m).Nodup
  mem_iff {cap : Nat} (m : M.Map cap) (id : UInt32) : id ∈ M.ids m ↔ (M.get m id).isSome
  room {cap : Nat} (m : M.Map cap) : M.size m ≤ cap

section Laws

variable {M : StackMap} {cap : Nat}

/-- Every stack of `m` is in `m'`, under its id. -/
def Keeps (m m' : M.Map cap) : Prop := ∀ id ips, M.get m id = some ips → M.get m' id = some ips

theorem Keeps.refl (m : M.Map cap) : Keeps m m := fun _ _ h => h

theorem Keeps.trans {m m' m'' : M.Map cap} (h : Keeps m m') (h' : Keeps m' m'') : Keeps m m'' :=
  fun id ips hm => h' id ips (h id ips hm)

theorem Lists.ids_subset (hM : M.Lists) {m m' : M.Map cap} (h : Keeps m m') :
    M.ids m ⊆ M.ids m' := by
  intro id hid
  rw [hM.mem_iff] at hid ⊢
  obtain ⟨ips, hips⟩ := Option.isSome_iff_exists.mp hid
  rw [h id ips hips]
  rfl

/-- A map that keeps its stacks does not get smaller. -/
theorem Lists.size_le (hM : M.Lists) {m m' : M.Map cap} (h : Keeps m m') : M.size m ≤ M.size m' :=
  (List.subperm_of_subset (hM.nodup m) (hM.ids_subset h)).length_le

/-- A full map that keeps its stacks stays as it is. -/
theorem Lists.get_of_full (hM : M.Lists) {m m' : M.Map cap} (h : Keeps m m')
    (hfull : M.size m = cap) (id : UInt32) : M.get m' id = M.get m id := by
  have hsub := List.subperm_of_subset (hM.nodup m) (hM.ids_subset h)
  have hperm := hsub.perm_of_length_le ((hM.room m').trans hfull.ge)
  cases hid : M.get m id with
  | some ips => exact h id ips hid
  | none =>
    have hout : id ∉ M.ids m := by
      rw [hM.mem_iff, hid]
      exact Bool.false_ne_true
    rw [← Option.not_isSome_iff_eq_none, ← hM.mem_iff, ← hperm.mem_iff]
    exact hout

end Laws

end StackMap

/-- The stacks of the current thread, as `get_stackid` walks them. -/
structure Walks where
  kernel : List UInt64
  user : List UInt64
  deriving DecidableEq

section Asking

variable {M : StackMap} {cap : Nat}

/-- `STACK_TRACES.get_stackid`: the helper may fail before it gets to the map. -/
def askStack (helper : Except Int64 Int64) (stack : List UInt64) (m : M.Map cap) :
    Except Int64 Int64 × M.Map cap :=
  match helper with
  | .error e => (.error e, m)
  | .ok _ => M.getStackid stack m

/-- Whether a run gets as far as "create and submit an event". -/
def submits (config : Config) (prev current : TaskStruct) (h : Helpers) (startTimes : StartTimes) :
    Bool :=
  decide h.reads &&
    match recordPrev config prev h startTimes with
    | .error _ => false
    | .ok startTimes =>
      match startTimes.get? current.pid with
      | none => false
      | some tStart =>
        (removeStart current.pid h startTimes).toBool &&
          decide (Qualifies config current tStart h.tEnd)

/-- The helpers of a run on the stack map `m`, their two stack ids answered by the map, and the map
the run leaves. The second stack is only asked for when the first is there. -/
def stackIds (config : Config) (prev current : TaskStruct) (h : Helpers) (walks : Walks)
    (startTimes : StartTimes) (m : M.Map cap) : Helpers × M.Map cap :=
  if submits config prev current h startTimes then
    match askStack h.kernelStackId walks.kernel m with
    | (.error e, m) => ({ h with kernelStackId := .error e }, m)
    | (.ok id, m) =>
      let user := askStack h.userStackId walks.user m
      ({ h with kernelStackId := .ok id, userStackId := user.1 }, user.2)
  else (h, m)

section StackIds

variable {config : Config} {prev current : TaskStruct} {h : Helpers} {walks : Walks}
  {startTimes : StartTimes} {m : M.Map cap}

/-- The other answers are the label's. -/
theorem stackIds_helpers : ∃ k u,
    (stackIds config prev current h walks startTimes m).1 =
      { h with kernelStackId := k, userStackId := u } := by
  unfold stackIds
  split
  · split
    · exact ⟨_, _, rfl⟩
    · exact ⟨_, _, rfl⟩
  · exact ⟨_, _, rfl⟩

@[simp] theorem stackIds_tEnd :
    (stackIds config prev current h walks startTimes m).1.tEnd = h.tEnd := by
  obtain ⟨k, u, hk⟩ := @stackIds_helpers M cap config prev current h walks startTimes m
  rw [hk]

theorem keeps_askStack (hM : M.Retains) (helper : Except Int64 Int64) (stack : List UInt64)
    (m : M.Map cap) : StackMap.Keeps m (askStack helper stack m).2 := by
  cases helper with
  | error e => exact .refl m
  | ok _ => exact hM.get stack m

theorem keeps_stackIds (hM : M.Retains) :
    StackMap.Keeps m (stackIds config prev current h walks startTimes m).2 := by
  unfold stackIds
  split
  · have hkernel := keeps_askStack hM h.kernelStackId walks.kernel m
    split
    · next e m' hk => rwa [hk] at hkernel
    · next id m' hk =>
      rw [hk] at hkernel
      exact hkernel.trans (keeps_askStack hM h.userStackId walks.user m')
  · exact .refl m

/-- The id that is answered names the stack. -/
theorem get_askStack (hM : M.Names) {helper : Except Int64 Int64} {stack : List UInt64}
    {m : M.Map cap} {id : Int64} (h : (askStack helper stack m).1 = .ok id) :
    M.get (askStack helper stack m).2 id.toUInt64.toUInt32 = some (M.shown stack) := by
  cases helper with
  | error e => cases h
  | ok _ => exact hM.get stack m id h

end StackIds

/-! ## What a run asks for -/

section Submits

variable {config : Config} {prev current : TaskStruct} {h : Helpers} {startTimes : StartTimes}

/-- Where it stands does not depend on the answers to come. -/
@[simp] theorem submits_ids (k u : Except Int64 Int64) :
    submits config prev current { h with kernelStackId := k, userStackId := u } startTimes =
      submits config prev current h startTimes := rfl

/-- A run that outputs an event has asked for its stacks. -/
theorem submits_of_output {event : BlockEvent}
    (he : event ∈ (tryJbm config prev current h startTimes).output) :
    submits config prev current h startTimes = true := by
  obtain ⟨hsucceed, m', tStart, hrec, hget, hq, _⟩ :=
    (probes_tryJbm config prev current h _).output he
  have hremove : (removeStart current.pid h m').toBool = true := by
    unfold removeStart
    rw [hsucceed.remove]
    cases hr : m'.remove current.pid with
    | none =>
      rw [BoundedMap.remove_eq_none, hget] at hr
      cases hr
    | some _ => rfl
  simp [submits, hsucceed.reads, hrec, hget, hremove, hq]

/-- The event of a run names the stacks it was answered. -/
theorem Probes.output_stacks {r : Probed} (hr : Probes config prev current h startTimes r)
    {event : BlockEvent} (he : event ∈ r.output) :
    h.kernelStackId = .ok event.kernelStackId ∧ h.userStackId = .ok event.userStackId ∧
      h.comm = .ok event.name := by
  cases hr with
  | unread _ => cases he
  | full _ _ _ => cases he
  | recorded _ _ hrep =>
    cases hrep with
    | absent _ => cases he
    | stuck _ _ => cases he
    | silent _ _ _ _ => cases he
    | failed _ _ _ _ => cases he
    | reported _ _ _ _ hs =>
      obtain rfl := List.mem_singleton.mp he
      exact submit_answers hs

/-- The stacks an event names are the two that were walked. -/
theorem output_stacks (hnames : M.Names) (hretains : M.Retains) {walks : Walks} {m : M.Map cap}
    {event : BlockEvent} (he : event ∈ (tryJbm config prev current
      (stackIds config prev current h walks startTimes m).1 startTimes).output) :
    M.get (stackIds config prev current h walks startTimes m).2
        event.kernelStackId.toUInt64.toUInt32 = some (M.shown walks.kernel) ∧
      M.get (stackIds config prev current h walks startTimes m).2
        event.userStackId.toUInt64.toUInt32 = some (M.shown walks.user) := by
  obtain ⟨hkernel, huser, _⟩ := (probes_tryJbm config prev current _ _).output_stacks he
  have hsub : submits config prev current h startTimes = true := by
    obtain ⟨k, u, hk⟩ := @stackIds_helpers M cap config prev current h walks startTimes m
    have hs := submits_of_output he
    rwa [hk, submits_ids] at hs
  have hnamed := @get_askStack M cap hnames h.kernelStackId walks.kernel m
  unfold stackIds at hkernel huser ⊢
  rw [if_pos hsub] at hkernel huser ⊢
  split at hkernel
  · cases hkernel
  · next id m' hk =>
    rw [hk] at hnamed
    simp only [hk] at huser ⊢
    cases hkernel
    exact ⟨keeps_askStack hretains h.userStackId walks.user m' _ _ (hnamed rfl),
      get_askStack hnames huser⟩

end Submits

end Asking

/-! ## A map that keeps its laws -/

/-- Stacks in slots. -/
structure Slots (cap : Nat) where
  entries : List (UInt32 × List UInt64)
  nodup : (entries.map Prod.fst).Nodup
  room : entries.length ≤ cap

/-- The return codes of a slot that another stack holds, and of a map without room. -/
def eexist : Int64 := -17

def enomem : Int64 := -12

/-- The id of a slot. -/
def stackId (slot : UInt32) : Int64 := slot.toUInt64.toInt64

/-- A stored stack as user space reads it: up to the first empty frame. -/
def framesOf (ips : List UInt64) : List UInt64 := ips.takeWhile (· ≠ 0)

/-- The id of a slot is read back as the slot. -/
@[simp] theorem stackId_toUInt32 (slot : UInt32) : (stackId slot).toUInt64.toUInt32 = slot := by
  simp [stackId]

theorem not_mem_slots {entries : List (UInt32 × List UInt64)} {slot : UInt32}
    (h : entries.lookup slot = none) : slot ∉ entries.map Prod.fst := by
  intro hmem
  obtain ⟨p, hp, rfl⟩ := List.mem_map.mp hmem
  have hne := List.lookup_eq_none_iff.mp h p hp
  simp at hne

/-- A stack goes to the slot its hash says: a free slot takes it if the map has room, a slot that
holds the same stack is shared, and one that holds another makes the call fail. -/
def Slots.insert {cap : Nat} (slot : UInt32) (stack : List UInt64) (m : Slots cap) :
    Except Int64 Int64 × Slots cap :=
  match hslot : m.entries.lookup slot with
  | some stored => if stored = stack then (.ok (stackId slot), m) else (.error eexist, m)
  | none =>
    if hroom : m.entries.length < cap then
      (.ok (stackId slot),
        { entries := (slot, stack) :: m.entries
          nodup := List.nodup_cons.mpr ⟨not_mem_slots hslot, m.nodup⟩
          room := hroom })
    else (.error enomem, m)

/-- The stack map of a hash function. -/
def slotMap (hash : List UInt64 → UInt32) : StackMap where
  Map := Slots
  create _ := ⟨[], List.nodup_nil, Nat.zero_le _⟩
  getStackid stack m := m.insert (hash stack) stack
  get m id := (m.entries.lookup id).map framesOf
  ids m := m.entries.map Prod.fst
  shown := framesOf

/-- What an insert can do. -/
theorem Slots.insert_cases {cap : Nat} (slot : UInt32) (stack : List UInt64) (m : Slots cap) :
    (m.insert slot stack).2 = m ∧
        (∀ id, (m.insert slot stack).1 = .ok id →
          id = stackId slot ∧ m.entries.lookup slot = some stack) ∨
      m.entries.lookup slot = none ∧ (m.insert slot stack).1 = .ok (stackId slot) ∧
        (m.insert slot stack).2.entries = (slot, stack) :: m.entries := by
  unfold Slots.insert
  split
  · next stored hslot =>
    split
    · next heq =>
      refine .inl ⟨rfl, fun id hid => ?_⟩
      cases hid
      exact ⟨rfl, heq ▸ hslot⟩
    · exact .inl ⟨rfl, by simp⟩
  · next hslot =>
    split
    · exact .inr ⟨hslot, rfl, rfl⟩
    · exact .inl ⟨rfl, by simp⟩

theorem slotMap_retains (hash : List UInt64 → UInt32) : (slotMap hash).Retains where
  get stack m id ips hget := by
    rcases Slots.insert_cases (hash stack) stack m with ⟨hsame, _⟩ | ⟨hslot, _, hnew⟩
    · show ((m.insert (hash stack) stack).2.entries.lookup id).map framesOf = some ips
      rw [hsame]
      exact hget
    · show ((m.insert (hash stack) stack).2.entries.lookup id).map framesOf = some ips
      have hne : id ≠ hash stack := by
        rintro rfl
        change (m.entries.lookup (hash stack)).map framesOf = some ips at hget
        rw [hslot] at hget
        cases hget
      rw [hnew, List.lookup_cons, beq_eq_false_iff_ne.mpr hne]
      exact hget

theorem slotMap_names (hash : List UInt64 → UInt32) : (slotMap hash).Names where
  get stack m id hid := by
    change (m.insert (hash stack) stack).1 = .ok id at hid
    show ((m.insert (hash stack) stack).2.entries.lookup id.toUInt64.toUInt32).map framesOf =
      some (framesOf stack)
    rcases Slots.insert_cases (hash stack) stack m with ⟨hsame, hok⟩ | ⟨_, hok, hnew⟩
    · obtain ⟨rfl, hslot⟩ := hok id hid
      rw [hsame, stackId_toUInt32, hslot]
      rfl
    · rw [hok] at hid
      cases hid
      rw [hnew, stackId_toUInt32, List.lookup_cons, beq_self_eq_true]
      rfl

theorem slotMap_lists (hash : List UInt64 → UInt32) : (slotMap hash).Lists where
  nodup m := m.nodup
  mem_iff m id := by
    show id ∈ m.entries.map Prod.fst ↔ ((m.entries.lookup id).map framesOf).isSome
    rw [Option.isSome_map, List.lookup_isSome_iff]
    simp
  room m := by
    show (m.entries.map Prod.fst).length ≤ _
    rw [List.length_map]
    exact m.room

end Jbm
