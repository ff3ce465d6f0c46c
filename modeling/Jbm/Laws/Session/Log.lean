import Jbm.Laws.Session.Lifecycle
import Jbm.Laws.Session.Printed
import Jbm.Laws.System.Provenance

/-!
# The log of a session can be read back

Every name that reaches a report was read out of `TASK_COMM_LEN` bytes with a NUL among them, so it
is short enough for the text to be read back (`readComm_length`). Two sessions that printed all
they had and have the same log have reported the same data (`log_says`).
-/

set_option autoImplicit false

namespace Jbm

open Base

/-- Every round of the lossy decoding consumes a byte. -/
theorem utf8Lossy_length (n : Nat) (bytes : List UInt8) : (utf8Lossy n bytes).length ≤ n := by
  induction n generalizing bytes with
  | zero => simp [utf8Lossy]
  | succ n ih =>
    cases bytes with
    | nil => simp [utf8Lossy]
    | cons b bs =>
      simp only [utf8Lossy]
      split
      · simpa using ih bs
      · split
        · simpa using ih bs
        · simpa using ih _

/-- A name is shorter than its field. -/
theorem readComm_length {name : Vector UInt8 taskCommLen} {comm : String}
    (h : readComm name = .ok comm) : comm.toList.length ≤ commMax := by
  simp only [readComm] at h
  split at h
  · next hnul =>
    cases h
    have hmem : (0 : UInt8) ∈ name.toList := by simpa using hnul
    have hfront := name.toList.takeWhile_prefix (· ≠ 0)
    have hlt : (name.toList.takeWhile (· ≠ 0)).length < name.toList.length := by
      refine Nat.lt_of_le_of_ne hfront.length_le fun heq => ?_
      have hall := List.takeWhile_eq_self_iff.mp (hfront.eq_of_length heq)
      simpa using hall 0 hmem
    rw [String.toList_ofList]
    refine Nat.le_trans (utf8Lossy_length _ _) ?_
    have hsize : name.toList.length = taskCommLen := by simp
    have hmax : commMax = taskCommLen - 1 := rfl
    omega
  · cases h

/-- Every symbol of a report fits on its line. -/
def OneLineSymbols (p : Pair) : Prop :=
  (∀ f ∈ p.1.stacktrace, OneLine f) ∧ ∀ j ∈ p.2, ∀ f ∈ j.frames.map JvmFrame.printed, OneLine f

instance (p : Pair) : Decidable (OneLineSymbols p) := inferInstanceAs (Decidable (_ ∧ _))

/-- What a sweep returned is legible where its symbols are. -/
theorem legible_of_run {M : StackMap} {config : Config} {b : Boot config} {o : Overflow}
    {decode : List Char → Option JvmEvent} {ops : List SystemOp} {s : System M config.stackCap}
    (h : System.run M b o decode ops = some s)
    (hsymbols : ∀ p ∈ s.history.returned, OneLineSymbols p) :
    ∀ p ∈ s.history.returned, Legible p := by
  intro p hp
  obtain ⟨w, _, _, hmade⟩ := (System.traced_of_run h).made.held h (.inl (List.mem_map_of_mem hp))
  exact ⟨readComm_length hmade.comm, (hsymbols p hp).1, (hsymbols p hp).2⟩

/-- A session that has printed everything, and its system. -/
theorem Session.logged_of_run {M : StackMap} {cli : Cli} {formatTime : UInt64 → Option (List Char)}
    {o : Overflow} {decode : List Char → Option JvmEvent} {ops : List (SessionOp cli.config)}
    {s : Session M cli.config} (h : Session.run M cli formatTime o decode ops = some s)
    {jbm : System M cli.config.stackCap} (hjbm : s.jbm = some jbm) (hall : s.unprinted = [])
    (hsymbols : ∀ p ∈ jbm.history.returned, OneLineSymbols p) :
    printReports formatTime jbm.history.returned = some s.log ∧
      ∀ p ∈ jbm.history.returned, Legible p := by
  rcases Session.reports_of_run h with ⟨hnone, _⟩ | ⟨jbm', hsome, hr⟩
  · rw [hnone] at hjbm
    cases hjbm
  · rw [hsome] at hjbm
    cases hjbm
    obtain ⟨b, sysOps, hrun⟩ := hr.runs
    obtain ⟨done, hdone, hlog⟩ := hr.logged
    rw [hall, List.append_nil] at hdone
    exact ⟨hdone ▸ hlog, legible_of_run hrun hsymbols⟩

/-- **The log says what was reported**: two sessions that have printed all that was returned and
have the same text on standard output have reported the same data, report by report, provided no
symbol has a line break in it; whatever the names of the threads are. Of a JVM event that is its
time as it is printed and, frame by frame, the method id and the symbol. -/
theorem log_says {M M' : StackMap} {cli cli' : Cli} {formatTime : UInt64 → Option (List Char)}
    {o o' : Overflow} {decode decode' : List Char → Option JvmEvent}
    {ops : List (SessionOp cli.config)} {ops' : List (SessionOp cli'.config)}
    {s : Session M cli.config} {s' : Session M' cli'.config} (hformat : TimeFormat formatTime)
    (h : Session.run M cli formatTime o decode ops = some s)
    (h' : Session.run M' cli' formatTime o' decode' ops' = some s')
    {jbm : System M cli.config.stackCap} {jbm' : System M' cli'.config.stackCap}
    (hjbm : s.jbm = some jbm) (hjbm' : s'.jbm = some jbm') (hall : s.unprinted = [])
    (hall' : s'.unprinted = []) (hsymbols : ∀ p ∈ jbm.history.returned, OneLineSymbols p)
    (hsymbols' : ∀ p ∈ jbm'.history.returned, OneLineSymbols p) (hlog : s.log = s'.log) :
    jbm.history.returned.map (shown formatTime) = jbm'.history.returned.map (shown formatTime) := by
  obtain ⟨htext, hlegible⟩ := Session.logged_of_run h hjbm hall hsymbols
  obtain ⟨htext', hlegible'⟩ := Session.logged_of_run h' hjbm' hall' hsymbols'
  rw [← hlog] at htext'
  exact printReports_inj hformat hlegible hlegible' htext htext'

theorem sampleTime_format : TimeFormat sampleTime where
  one_space timestamp time h := by
    cases h
    decide
  no_bracket timestamp time h := by
    cases h
    decide

theorem sampleSession_jbm : sampleSessionEnd.jbm.isSome := by decide

/-- The decoder of a JVM whose sample comes 1 ms later. -/
def sampleDecodeLater (line : List Char) : Option JvmEvent :=
  (sampleDecode line).map fun j => { j with timestamp := j.timestamp + 1 }

/-- Another session on the sample host, with this JVM and another output file. -/
def sampleSessionLater : List (SessionOp sampleCli.config) :=
  .start (some "/tmp/jbm-ap-1") (.exited (some 0)) :: sampleSession.tail

theorem sampleSessionLater_runs : (Session.run sampleStackMap sampleCli sampleTime .abort
    sampleDecodeLater sampleSessionLater).isSome := by decide

theorem sampleSessionLater_jbm : (Option.get _ sampleSessionLater_runs).jbm.isSome := by decide

set_option maxRecDepth 4000 in
theorem sampleSessionLater_log :
    sampleSessionEnd.log = (Option.get _ sampleSessionLater_runs).log := by decide

/-- The two sessions report different JVM events, whose times are printed alike. -/
theorem log_says_sampleSession :
    let jbm := Option.get _ sampleSession_jbm
    let jbm' := Option.get _ sampleSessionLater_jbm
    jbm.history.returned ≠ jbm'.history.returned ∧ jbm.history.returned.map (shown sampleTime) =
      jbm'.history.returned.map (shown sampleTime) :=
  ⟨by decide, log_says sampleTime_format (Option.some_get sampleSession_runs).symm
    (Option.some_get sampleSessionLater_runs).symm (Option.some_get sampleSession_jbm).symm
    (Option.some_get sampleSessionLater_jbm).symm (by decide) (by decide) (by decide) (by decide)
    sampleSessionLater_log⟩

end Jbm
