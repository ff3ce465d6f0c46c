import Jbm.Base.BoundedMap
import Jbm.Common

/-!
# `try_jbm`

The eBPF program, attached to `finish_task_switch`: it runs on every context switch, with the
thread that has just left the CPU as its argument and the thread that enters as the current one.
It stamps the leaving thread in `START_TIMES` if it belongs to the target process, and turns the
entering thread's stamp, if there is one, into a `BlockEvent` and a signal.

`Helpers` is what the helper calls of one run answer, each of which may fail on its own; the hash
map is `Base.BoundedMap`, so its insert fails for an absent key in a full map only. `Probes` and
`Reports` are the inversions: every way a run can go.
-/

set_option autoImplicit false

namespace Jbm

open Base

/-- A thread: an identity no other thread ever has, and its ids as the kernel reports them. `pid`
is the thread id, `tgid` the process id. -/
structure TaskStruct where
  serial : Nat
  pid : UInt32
  tgid : UInt32
  deriving DecidableEq, Repr

/-- The type of `START_TIMES`. -/
abbrev StartTimes : Type := BoundedMap UInt32 UInt64 10240

/-- What the helper calls of one run answer; an error is a helper's return code. -/
structure Helpers where
  /-- whether `ctx.arg(0)` is there -/
  arg : Bool
  /-- the errors of the two reads of the leaving thread's fields -/
  pidRead : Option Int64
  tgidRead : Option Int64
  /-- `bpf_ktime_get_ns` for the leaving thread -/
  ts : UInt64
  /-- `bpf_ktime_get_ns` for the entering thread -/
  tEnd : UInt64
  /-- the error of removing a key that is present -/
  removeError : Option Int64
  kernelStackId : Except Int64 Int64
  userStackId : Except Int64 Int64
  comm : Except Int64 (Vector UInt8 taskCommLen)

/-- Whether the program learns who is leaving. -/
def Helpers.reads (h : Helpers) : Prop := h.arg = true ∧ h.pidRead = none ∧ h.tgidRead = none

instance (h : Helpers) : Decidable h.reads := inferInstanceAs (Decidable (_ ∧ _))

/-- Every helper of the run succeeds. -/
structure Helpers.Succeed (h : Helpers) : Prop where
  reads : h.reads
  remove : h.removeError = none
  kernelStackId : h.kernelStackId.isOk = true
  userStackId : h.userStackId.isOk = true
  comm : h.comm.isOk = true

instance (h : Helpers) : Decidable h.Succeed :=
  decidable_of_iff (h.reads ∧ h.removeError = none ∧ h.kernelStackId.isOk = true ∧
      h.userStackId.isOk = true ∧ h.comm.isOk = true)
    ⟨fun h => ⟨h.1, h.2.1, h.2.2.1, h.2.2.2.1, h.2.2.2.2⟩,
      fun h => ⟨h.reads, h.remove, h.kernelStackId, h.userStackId, h.comm⟩⟩

/-- The return codes of an insert into a full map, and of a removal of an absent key. -/
def e2big : Int64 := -7

def enoent : Int64 := -2

/-- What a run leaves and does: the map, the events it outputs, the signals it sends to the
entering thread, and its result. -/
structure Probed where
  startTimes : StartTimes
  output : List BlockEvent
  signals : List UInt32
  result : Except Int64 UInt32

/-- `bpf_get_current_pid_tgid`. -/
def pidTgid (current : TaskStruct) : UInt64 :=
  current.tgid.toUInt64 <<< 32 ||| current.pid.toUInt64

/-- "record previous thread sleep time" -/
def recordPrev (config : Config) (prev : TaskStruct) (h : Helpers) (startTimes : StartTimes) :
    Except Int64 StartTimes :=
  if prev.tgid = config.targetTgid then
    match startTimes.insert prev.pid h.ts with
    | none => .error e2big
    | some startTimes => .ok startTimes
  else .ok startTimes

/-- `START_TIMES.remove(&pid)` -/
def removeStart (pid : UInt32) (h : Helpers) (startTimes : StartTimes) :
    Except Int64 StartTimes :=
  match h.removeError, startTimes.remove pid with
  | some e, _ => .error e
  | none, none => .error enoent
  | none, some startTimes => .ok startTimes

/-- "create and submit an event", and the signal -/
def submit (pid tgid : UInt32) (offtime tStart : UInt64) (h : Helpers) :
    Except Int64 BlockEvent := do
  let kernelStackId ← h.kernelStackId
  let userStackId ← h.userStackId
  let name ← h.comm
  return { pid, tgid, userStackId, kernelStackId, name, offtime, tStart, tEnd := h.tEnd }

/-- The second half of `try_jbm`, from "get the current thread's start time" on. -/
def reportCurrent (config : Config) (current : TaskStruct) (h : Helpers) (startTimes : StartTimes) :
    Probed :=
  let pid := (pidTgid current).toUInt32
  let tgid := (pidTgid current >>> 32).toUInt32
  match startTimes.get? pid with
  | none => ⟨startTimes, [], [], .ok 0⟩
  | some tStart =>
    match removeStart pid h startTimes with
    | .error e => ⟨startTimes, [], [], .error e⟩
    | .ok startTimes =>
      -- the id may have been reused by a thread of another process
      if tgid ≠ config.targetTgid then ⟨startTimes, [], [], .ok 0⟩
      else if h.tEnd < tStart then ⟨startTimes, [], [], .ok 0⟩
      else
        let offtime := (h.tEnd - tStart) / 1000
        if offtime < config.minBlockUs ∨ config.maxBlockUs < offtime then
          ⟨startTimes, [], [], .ok 0⟩
        else
          match submit pid tgid offtime tStart h with
          | .error e => ⟨startTimes, [], [], .error e⟩
          | .ok event => ⟨startTimes, [event], [27], .ok 0⟩

/-- `try_jbm`. -/
def tryJbm (config : Config) (prev current : TaskStruct) (h : Helpers) (startTimes : StartTimes) :
    Probed :=
  if h.arg then
    match h.pidRead, h.tgidRead with
    | some e, _ => ⟨startTimes, [], [], .error e⟩
    | none, some e => ⟨startTimes, [], [], .error e⟩
    | none, none =>
      match recordPrev config prev h startTimes with
      | .error e => ⟨startTimes, [], [], .error e⟩
      | .ok startTimes => reportCurrent config current h startTimes
  else ⟨startTimes, [], [], .error 1⟩

/-! ## What one run can do -/

/-- The two halves of `bpf_get_current_pid_tgid` are the ids. -/
@[simp] theorem pidTgid_pid (t : TaskStruct) : (pidTgid t).toUInt32 = t.pid := by
  apply UInt32.toBitVec_inj.mp
  ext i hi
  simp [pidTgid]

@[simp] theorem pidTgid_tgid (t : TaskStruct) : (pidTgid t >>> 32).toUInt32 = t.tgid := by
  apply UInt32.toBitVec_inj.mp
  ext i hi
  have hword : i < 64 := by omega
  have hhigh : 32 + i < 64 := by omega
  simp [pidTgid, hword, hhigh, BitVec.getLsbD_eq_getElem hi]

/-- The two stamps make a block of the target process whose length lies within the bounds. -/
structure Qualifies (config : Config) (current : TaskStruct) (tStart tEnd : UInt64) : Prop where
  target : current.tgid = config.targetTgid
  ordered : tStart ≤ tEnd
  long : config.minBlockUs ≤ (tEnd - tStart) / 1000
  short : (tEnd - tStart) / 1000 ≤ config.maxBlockUs

instance (config : Config) (current : TaskStruct) (tStart tEnd : UInt64) :
    Decidable (Qualifies config current tStart tEnd) :=
  decidable_of_iff (current.tgid = config.targetTgid ∧ tStart ≤ tEnd ∧
      config.minBlockUs ≤ (tEnd - tStart) / 1000 ∧ (tEnd - tStart) / 1000 ≤ config.maxBlockUs)
    ⟨fun h => ⟨h.1, h.2.1, h.2.2.1, h.2.2.2⟩,
      fun h => ⟨h.target, h.ordered, h.long, h.short⟩⟩

/-- The ways the second half can go. -/
inductive Reports (config : Config) (current : TaskStruct) (h : Helpers) (m : StartTimes) :
    Probed → Prop
  /-- the entering thread has no stamp -/
  | absent :
      m.get? current.pid = none → Reports config current h m ⟨m, [], [], .ok 0⟩
  /-- the removal failed -/
  | stuck {tStart : UInt64} {e e' : Int64} :
      m.get? current.pid = some tStart → h.removeError = some e →
      Reports config current h m ⟨m, [], [], .error e'⟩
  /-- the stamps make no block to report -/
  | silent {tStart : UInt64} {m' : StartTimes} :
      m.get? current.pid = some tStart → h.removeError = none →
      m.remove current.pid = some m' →
      ¬ Qualifies config current tStart h.tEnd →
      Reports config current h m ⟨m', [], [], .ok 0⟩
  /-- a helper failed on the event -/
  | failed {tStart : UInt64} {m' : StartTimes} {e : Int64} :
      m.get? current.pid = some tStart → h.removeError = none →
      m.remove current.pid = some m' →
      submit current.pid current.tgid ((h.tEnd - tStart) / 1000) tStart h = .error e →
      Reports config current h m ⟨m', [], [], .error e⟩
  | reported {tStart : UInt64} {m' : StartTimes} {event : BlockEvent} :
      m.get? current.pid = some tStart → h.removeError = none →
      m.remove current.pid = some m' →
      Qualifies config current tStart h.tEnd →
      submit current.pid current.tgid ((h.tEnd - tStart) / 1000) tStart h = .ok event →
      Reports config current h m ⟨m', [event], [27], .ok 0⟩

theorem reports_reportCurrent (config : Config) (current : TaskStruct) (h : Helpers)
    (m : StartTimes) : Reports config current h m (reportCurrent config current h m) := by
  unfold reportCurrent
  simp only [pidTgid_pid, pidTgid_tgid]
  split
  · next hget => exact .absent hget
  · next tStart hget =>
    have hpresent : m.remove current.pid ≠ none := fun hr => by
      rw [BoundedMap.remove_eq_none, hget] at hr
      cases hr
    unfold removeStart
    cases he : h.removeError with
    | some e => exact .stuck hget he
    | none =>
      cases hr : m.remove current.pid with
      | none => exact absurd hr hpresent
      | some m' =>
        simp only
        split
        · next htgid => exact .silent hget he hr fun hq => htgid hq.target
        · next htgid =>
          split
          · next hlt => exact .silent hget he hr fun hq => UInt64.not_lt.mpr hq.ordered hlt
          · next hle =>
            split
            · next hbounds =>
              refine .silent hget he hr fun hq => ?_
              rcases hbounds with hb | hb
              · exact UInt64.not_lt.mpr hq.long hb
              · exact UInt64.not_lt.mpr hq.short hb
            · next hbounds =>
              rw [not_or] at hbounds
              have hq : Qualifies config current tStart h.tEnd :=
                ⟨not_not.mp htgid, UInt64.not_lt.mp hle, UInt64.not_lt.mp hbounds.1,
                  UInt64.not_lt.mp hbounds.2⟩
              split
              · next hs => exact .failed hget he hr hs
              · next hs => exact .reported hget he hr hq hs

/-- The ways a run can go. -/
inductive Probes (config : Config) (prev current : TaskStruct) (h : Helpers) (m : StartTimes) :
    Probed → Prop
  /-- the program does not learn who is leaving -/
  | unread {e : Int64} : ¬ h.reads → Probes config prev current h m ⟨m, [], [], .error e⟩
  /-- there is no room for the leaving thread -/
  | full {e : Int64} :
      h.reads → prev.tgid = config.targetTgid → m.insert prev.pid h.ts = none →
      Probes config prev current h m ⟨m, [], [], .error e⟩
  | recorded {m' : StartTimes} {r : Probed} :
      h.reads → recordPrev config prev h m = .ok m' → Reports config current h m' r →
      Probes config prev current h m r

theorem probes_tryJbm (config : Config) (prev current : TaskStruct) (h : Helpers)
    (m : StartTimes) : Probes config prev current h m (tryJbm config prev current h m) := by
  unfold tryJbm
  split
  · next harg =>
    split
    · next hpid => exact .unread fun hr => Option.some_ne_none _ (hpid.symm.trans hr.2.1)
    · next htgid => exact .unread fun hr => Option.some_ne_none _ (htgid.symm.trans hr.2.2)
    · next hpid htgid =>
      have hreads : h.reads := ⟨harg, hpid, htgid⟩
      split
      · next e hrec =>
        unfold recordPrev at hrec
        split at hrec
        · next hprev =>
          split at hrec
          · next hins => exact .full hreads hprev hins
          · cases hrec
        · cases hrec
      · next m' hrec => exact .recorded hreads hrec (reports_reportCurrent config current h m')
  · next harg => exact .unread fun hr => harg hr.1

/-- What a recorded leave writes. -/
theorem get?_of_recordPrev {config : Config} {prev : TaskStruct} {h : Helpers}
    {m m' : StartTimes} (hrec : recordPrev config prev h m = .ok m') (p : UInt32) :
    m'.get? p = if prev.tgid = config.targetTgid ∧ p = prev.pid then some h.ts else m.get? p := by
  unfold recordPrev at hrec
  split at hrec
  · next hprev =>
    split at hrec
    · cases hrec
    · next m'' hins =>
      cases hrec
      rw [BoundedMap.get?_of_insert hins]
      simp only [hprev, true_and]
  · next hprev =>
    cases hrec
    rw [if_neg fun hp => hprev hp.1]

/-- A leave is recorded only when there is room for it. -/
theorem hasRoom_of_recordPrev {config : Config} {prev : TaskStruct} {h : Helpers}
    {m m' : StartTimes} (hrec : recordPrev config prev h m = .ok m')
    (htgid : prev.tgid = config.targetTgid) : m.hasRoom prev.pid = true := by
  by_contra hroom
  rw [recordPrev, if_pos htgid,
    BoundedMap.insert_of_no_room (Bool.eq_false_of_not_eq_true hroom)] at hrec
  cases hrec

/-- The second half removes the entering thread's stamp, or nothing. -/
theorem Reports.get? {config : Config} {current : TaskStruct} {h : Helpers} {m : StartTimes}
    {r : Probed} (hr : Reports config current h m r) (p : UInt32) :
    r.startTimes.get? p = m.get? p ∨ p = current.pid ∧ r.startTimes.get? p = none := by
  have removed : ∀ {m' : StartTimes}, m.remove current.pid = some m' →
      m'.get? p = m.get? p ∨ p = current.pid ∧ m'.get? p = none := by
    intro m' hrem
    rw [BoundedMap.get?_of_remove hrem]
    by_cases hp : p = current.pid
    · exact .inr ⟨hp, if_pos hp⟩
    · exact .inl (if_neg hp)
  cases hr with
  | absent _ => exact .inl rfl
  | stuck _ _ => exact .inl rfl
  | silent _ _ hrem _ => exact removed hrem
  | failed _ _ hrem _ => exact removed hrem
  | reported _ _ hrem _ _ => exact removed hrem

/-- A stamp found after a run is the leaving thread's new one, or was there before. -/
theorem Probes.get? {config : Config} {prev current : TaskStruct} {h : Helpers}
    {m : StartTimes} {r : Probed} (hr : Probes config prev current h m r) {p : UInt32}
    {v : UInt64} (hv : r.startTimes.get? p = some v) :
    if (prev.tgid = config.targetTgid ∧ p = prev.pid) ∧ h.reads then v = h.ts
    else m.get? p = some v := by
  cases hr with
  | unread hno =>
    rw [if_neg fun hp => hno hp.2]
    exact hv
  | full _ _ hins =>
    rw [if_neg]
    · exact hv
    · rintro ⟨⟨_, rfl⟩, _⟩
      rw [(BoundedMap.insert_eq_none.mp hins).1] at hv
      cases hv
  | recorded hreads hrec hrep =>
    rcases hrep.get? p with heq | ⟨_, hnone⟩
    · rw [heq, get?_of_recordPrev hrec] at hv
      by_cases hp : prev.tgid = config.targetTgid ∧ p = prev.pid
      · rw [if_pos hp, Option.some.injEq] at hv
        rw [if_pos ⟨hp, hreads⟩]
        exact hv.symm
      · rw [if_neg hp] at hv
        rw [if_neg fun h => hp h.1]
        exact hv
    · rw [hnone] at hv
      cases hv

/-- An event is made when no helper fails on it. -/
theorem submit_eq_ok {pid tgid : UInt32} {offtime tStart : UInt64} {h : Helpers}
    {event : BlockEvent} (hs : submit pid tgid offtime tStart h = .ok event) :
    ∃ kernelStackId userStackId name, h.kernelStackId = .ok kernelStackId ∧
      h.userStackId = .ok userStackId ∧ h.comm = .ok name ∧
      event = ⟨pid, tgid, userStackId, kernelStackId, name, offtime, tStart, h.tEnd⟩ := by
  unfold submit at hs
  cases hk : h.kernelStackId with
  | error e => rw [hk] at hs; cases hs
  | ok kernelStackId =>
    cases hu : h.userStackId with
    | error e => rw [hk, hu] at hs; cases hs
    | ok userStackId =>
      cases hc : h.comm with
      | error e => rw [hk, hu, hc] at hs; cases hs
      | ok name =>
        rw [hk, hu, hc] at hs
        cases hs
        exact ⟨_, _, _, rfl, rfl, rfl, rfl⟩

/-- An event says what the run saw. -/
theorem submit_ok {pid tgid : UInt32} {offtime tStart : UInt64} {h : Helpers} {event : BlockEvent}
    (hs : submit pid tgid offtime tStart h = .ok event) :
    event.pid = pid ∧ event.tgid = tgid ∧ event.offtime = offtime ∧ event.tStart = tStart ∧
      event.tEnd = h.tEnd := by
  obtain ⟨_, _, _, _, _, _, rfl⟩ := submit_eq_ok hs
  exact ⟨rfl, rfl, rfl, rfl, rfl⟩

/-- An event holds what the helpers answered. -/
theorem submit_answers {pid tgid : UInt32} {offtime tStart : UInt64} {h : Helpers}
    {event : BlockEvent} (hs : submit pid tgid offtime tStart h = .ok event) :
    h.kernelStackId = .ok event.kernelStackId ∧ h.userStackId = .ok event.userStackId ∧
      h.comm = .ok event.name := by
  obtain ⟨_, _, _, hkernel, huser, hcomm, rfl⟩ := submit_eq_ok hs
  exact ⟨hkernel, huser, hcomm⟩

/-- The event of an interval of `current` from `s` to `e`. -/
structure IsBlock (config : Config) (current : TaskStruct) (s e : UInt64)
    (event : BlockEvent) : Prop where
  pid : event.pid = current.pid
  tgid : event.tgid = config.targetTgid
  tStart : event.tStart = s
  tEnd : event.tEnd = e
  /-- the microseconds are the nanoseconds over 1000, rounded down -/
  offtime : event.offtime.toNat = (e.toNat - s.toNat) / 1000

/-- The subtraction and the division of two stamps in order are exact. -/
theorem offtime_toNat {tStart tEnd : UInt64} (h : tStart ≤ tEnd) :
    ((tEnd - tStart) / 1000).toNat = (tEnd.toNat - tStart.toNat) / 1000 := by
  rw [UInt64.toNat_div, UInt64.toNat_sub_of_le _ _ h]
  rfl

/-- The bounds, on the exact length. -/
theorem qualifies_iff {config : Config} {current : TaskStruct} {tStart tEnd : UInt64}
    (h : tStart ≤ tEnd) : Qualifies config current tStart tEnd ↔
      current.tgid = config.targetTgid ∧
        config.minBlockUs.toNat ≤ (tEnd.toNat - tStart.toNat) / 1000 ∧
        (tEnd.toNat - tStart.toNat) / 1000 ≤ config.maxBlockUs.toNat := by
  rw [← offtime_toNat h, ← UInt64.le_iff_toNat_le, ← UInt64.le_iff_toNat_le]
  exact ⟨fun hq => ⟨hq.target, hq.long, hq.short⟩, fun hq => ⟨hq.1, h, hq.2.1, hq.2.2⟩⟩

/-- A block reported is one of the entering thread, from its stamp to now. -/
theorem Probes.output {config : Config} {prev current : TaskStruct} {h : Helpers}
    {m : StartTimes} {r : Probed} (hr : Probes config prev current h m r) {event : BlockEvent}
    (he : event ∈ r.output) : h.Succeed ∧ ∃ m' tStart, recordPrev config prev h m = .ok m' ∧
      m'.get? current.pid = some tStart ∧ Qualifies config current tStart h.tEnd ∧
      IsBlock config current tStart h.tEnd event := by
  cases hr with
  | unread _ => cases he
  | full _ _ _ => cases he
  | recorded hreads hrec hrep =>
    cases hrep with
    | absent _ => cases he
    | stuck _ _ => cases he
    | silent _ _ _ _ => cases he
    | failed _ _ _ _ => cases he
    | reported hget hremove _ hq hs =>
      obtain rfl := List.mem_singleton.mp he
      obtain ⟨hpid, htgid, hoff, hstart, hend⟩ := submit_ok hs
      obtain ⟨hkernel, huser, hcomm⟩ := submit_answers hs
      have hsucceed : h.Succeed :=
        ⟨hreads, hremove, by rw [hkernel]; rfl, by rw [huser]; rfl, by rw [hcomm]; rfl⟩
      refine ⟨hsucceed, _, _, hrec, hget, hq, hpid, htgid.trans hq.target, hstart, hend, ?_⟩
      rw [hoff, offtime_toNat hq.ordered]

/-- An event can be made when the helpers succeed. -/
theorem Helpers.Succeed.submit {h : Helpers} (hh : h.Succeed) (pid tgid : UInt32)
    (offtime tStart : UInt64) (e : Int64) : submit pid tgid offtime tStart h ≠ .error e := by
  obtain ⟨_, _, hk, hu, hc⟩ := hh
  unfold Jbm.submit
  cases hkernel : h.kernelStackId with
  | error e => rw [hkernel] at hk; cases hk
  | ok kernelStackId =>
    cases huser : h.userStackId with
    | error e => rw [huser] at hu; cases hu
    | ok userStackId =>
      cases hcomm : h.comm with
      | error e => rw [hcomm] at hc; cases hc
      | ok name => exact fun he => nomatch he

/-- What a run of `try_jbm` does when nothing fails, by the stamp it finds for the entering
thread. -/
structure Answers (config : Config) (prev current : TaskStruct) (h : Helpers) (m : StartTimes)
    (r : Probed) : Prop where
  stamps : ∀ p, r.startTimes.get? p = if p = current.pid then none
    else if prev.tgid = config.targetTgid ∧ p = prev.pid then some h.ts else m.get? p
  reported : ∀ tStart, m.get? current.pid = some tStart →
    Qualifies config current tStart h.tEnd →
    ∃ event, r.output = [event] ∧ IsBlock config current tStart h.tEnd event ∧ r.signals = [27]
  silent : (∀ tStart, m.get? current.pid = some tStart →
    ¬ Qualifies config current tStart h.tEnd) → r.output = [] ∧ r.signals = []

theorem Probes.answers {config : Config} {prev current : TaskStruct} {h : Helpers}
    {m : StartTimes} {r : Probed} (hr : Probes config prev current h m r) (hh : h.Succeed)
    (hroom : prev.tgid = config.targetTgid → m.hasRoom prev.pid = true)
    (hids : ¬ (prev.tgid = config.targetTgid ∧ current.pid = prev.pid)) :
    Answers config prev current h m r := by
  cases hr with
  | unread hno => exact absurd hh.reads hno
  | full _ htgid hins => exact absurd hins (BoundedMap.insert_ne_none (hroom htgid) _)
  | @recorded m' _ _ hrec hrep =>
    have hfound : m'.get? current.pid = m.get? current.pid := by
      rw [get?_of_recordPrev hrec, if_neg hids]
    have hremoved : ∀ {m'' : StartTimes}, m'.remove current.pid = some m'' → ∀ p,
        m''.get? p = if p = current.pid then none
          else if prev.tgid = config.targetTgid ∧ p = prev.pid then some h.ts else m.get? p := by
      intro m'' hrem p
      rw [BoundedMap.get?_of_remove hrem, get?_of_recordPrev hrec]
    cases hrep with
    | absent hget =>
      rw [hfound] at hget
      refine ⟨fun p => ?_, fun tStart hstart => ?_, fun _ => ⟨rfl, rfl⟩⟩
      · by_cases hp : p = current.pid
        · rw [if_pos hp, hp, hfound, hget]
        · rw [if_neg hp, get?_of_recordPrev hrec]
      · rw [hget] at hstart
        cases hstart
    | stuck _ herr =>
      rw [hh.remove] at herr
      cases herr
    | silent hget _ hrem hno =>
      rw [hfound] at hget
      refine ⟨hremoved hrem, fun tStart hstart hq => ?_, fun _ => ⟨rfl, rfl⟩⟩
      rw [hget, Option.some.injEq] at hstart
      exact absurd (hstart ▸ hq) hno
    | failed _ _ _ hs => exact absurd hs (hh.submit _ _ _ _ _)
    | reported hget _ hrem hq hs =>
      rw [hfound] at hget
      obtain ⟨hpid, htgid, hoff, hstart, hend⟩ := submit_ok hs
      refine ⟨hremoved hrem, fun tStart hstart' _ => ?_, fun hno => absurd hq (hno _ hget)⟩
      rw [hget, Option.some.injEq] at hstart'
      subst hstart'
      refine ⟨_, rfl, ⟨hpid, htgid.trans hq.target, hstart, hend, ?_⟩, rfl⟩
      rw [hoff, offtime_toNat hq.ordered]

end Jbm
