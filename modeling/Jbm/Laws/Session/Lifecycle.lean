import Jbm.Laws.System.Custody
import Jbm.Session.Main

/-!
# A session from its start to its end

`Session.Steps` says once what a step does. From it: the profiler's start is issued once, and its
stop once when the target is alive at the drop, on every way out (`profiler_stopped`); and everything
a sweep returned is printed, in order, before the next call begins, while no call has failed, so that
in the loop the only events missing are those a perf buffer lost (`session_reports`).
-/

set_option autoImplicit false

namespace Jbm

open Base

namespace Session

variable {M : StackMap} {cli : Cli} {formatTime : UInt64 → Option (List Char)} {o : Overflow}
  {decode : List Char → Option JvmEvent}

/-- `process` or its printing is under way, or about to be. -/
def InLoop (s : Session M cli.config) : Prop :=
  s.phase = .polling ∨ s.phase = .calling ∨ s.phase = .printing

/-- What a step does, by the operation. -/
inductive Steps (cli : Cli) (formatTime : UInt64 → Option (List Char)) (o : Overflow)
    (decode : List Char → Option JvmEvent) (s : Session M cli.config) :
    SessionOp cli.config → Session M cli.config → Prop
  | unmade {exec : Exec} : s.phase = .starting →
      Steps cli formatTime o decode s (.start none exec) { s with phase := .exited false }
  | start {file : String} {exec : Exec} : s.phase = .starting →
      Steps cli formatTime o decode s (.start (some file) exec)
        { s with
          phase := if exec.ok then .loading else .leaving false
          outputFile := some file
          commands := s.commands ++ [(profilerCmd cli file "start", exec)] }
  | load {l : Loading} {b : Boot cli.config} : s.phase = .loading →
      Steps cli formatTime o decode s (.load l b)
        { s with phase := .polling, jbm := some (.boot M b) }
  | unloaded {l : Loading} {b : Boot cli.config} : s.phase = .loading →
      Steps cli formatTime o decode s (.load l b) { s with phase := .leaving false }
  | poll {interrupted alive : Bool} : s.phase = .polling →
      Steps cli formatTime o decode s (.poll interrupted alive)
        { s with phase := if interrupted || !alive then .leaving true else .calling }
  | kernel {op : SystemOp} {jbm jbm' : System M cli.config.stackCap} :
      s.jbm = some jbm → op.ofKernel → jbm.step cli.config o decode op = some jbm' →
      Steps cli formatTime o decode s (.system op) { s with jbm := some jbm' }
  | call {op : SystemOp} {jbm jbm' : System M cli.config.stackCap} :
      s.phase = .calling → s.jbm = some jbm → op.ofKernel = false →
      jbm.step cli.config o decode op = some jbm' →
      Steps cli formatTime o decode s (.system op) (s.afterCall jbm jbm' op)
  | printed : s.phase = .printing → s.unprinted = [] →
      Steps cli formatTime o decode s .print { s with phase := .polling }
  | unformatted {p : Pair} {ps : List Pair} : s.phase = .printing → s.unprinted = p :: ps →
      Steps cli formatTime o decode s .print { s with phase := .leaving false }
  | print {p : Pair} {ps : List Pair} {out : List Char} : s.phase = .printing →
      s.unprinted = p :: ps → report formatTime p = some out →
      Steps cli formatTime o decode s .print
        { s with unprinted := ps, log := s.log ++ (out ++ ['\n']) }
  | panic : s.phase = .loading ∨ s.phase = .calling ∨ s.phase = .printing →
      Steps cli formatTime o decode s .panic { s with phase := .leaving false }
  | drop {ok alive : Bool} {exec : Exec} {file : String} :
      s.phase = .leaving ok → s.outputFile = some file →
      Steps cli formatTime o decode s (.drop alive exec)
        { s with
          phase := .exited ok
          commands :=
            if alive then s.commands ++ [(profilerCmd cli file "stop", exec)] else s.commands }

theorem steps_of_step {s s' : Session M cli.config} {op : SessionOp cli.config}
    (h : s.step cli formatTime o decode op = some s') : Steps cli formatTime o decode s op s' := by
  cases op with
  | start outputFile exec =>
    simp only [step] at h
    split at h
    · next hphase =>
      cases outputFile with
      | none =>
        cases h
        exact .unmade hphase
      | some file =>
        cases h
        exact .start hphase
    · cases h
  | load l b =>
    simp only [step] at h
    split at h
    · next hphase =>
      split at h
      · cases h
        exact .load hphase
      · cases h
        exact .unloaded hphase
    · cases h
  | poll interrupted alive =>
    simp only [step] at h
    split at h
    · next hphase =>
      cases h
      exact .poll hphase
    · cases h
  | system op =>
    simp only [step] at h
    split at h
    · cases h
    · cases h
    · next phase jbm hjbm _ =>
      split at h
      · next hop =>
        obtain ⟨jbm', hstep, rfl⟩ := Option.map_eq_some_iff.mp h
        exact .kernel hjbm hop hstep
      · next hop =>
        split at h
        · next hphase =>
          obtain ⟨jbm', hstep, rfl⟩ := Option.map_eq_some_iff.mp h
          exact .call hphase hjbm (Bool.eq_false_iff.mpr hop) hstep
        · cases h
  | print =>
    simp only [step] at h
    split at h
    · next hphase =>
      split at h
      · next hnil =>
        cases h
        exact .printed hphase hnil
      · next p ps hcons =>
        split at h
        · cases h
          exact .unformatted hphase hcons
        · next out hout =>
          cases h
          exact .print hphase hcons hout
    · cases h
  | panic =>
    simp only [step] at h
    split at h
    · next hphase =>
      cases h
      exact .panic hphase
    · cases h
  | drop alive exec =>
    simp only [step] at h
    split at h
    · next ok file hphase hfile =>
      cases h
      exact .drop hphase hfile
    · cases h

/-- What becomes of `main` behind a step of the current call. -/
theorem afterCall_cases {s : Session M cli.config} (jbm jbm' : System M cli.config.stackCap)
    (op : SystemOp) :
    (∃ now order, op = .sweep now order ∧ s.afterCall jbm jbm' op =
      { s with
        phase := .printing
        jbm := some jbm'
        unprinted := jbm'.history.returned.drop jbm.history.returned.length }) ∨
    ((∀ now order, op ≠ .sweep now order) ∧
      s.afterCall jbm jbm' op = { s with phase := .leaving false, jbm := some jbm' }) ∨
    ((∀ now order, op ≠ .sweep now order) ∧ (∀ host, op = .add host → jbm'.stage.results? = none) ∧
      s.afterCall jbm jbm' op = { s with jbm := some jbm' }) := by
  cases op with
  | sweep now order => exact .inl ⟨now, order, rfl, rfl⟩
  | add host =>
    cases hstage : jbm'.stage with
    | reading results => exact .inr (.inl ⟨by simp, by simp [afterCall, hstage]⟩)
    | adding batch => exact .inr (.inr ⟨by simp, fun _ _ => rfl, by simp [afterCall, hstage]⟩)
    | sweeping => exact .inr (.inr ⟨by simp, fun _ _ => rfl, by simp [afterCall, hstage]⟩)
  | fill text ok =>
    cases hstage : jbm'.stage with
    | reading results => exact .inr (.inl ⟨by simp, by simp [afterCall, hstage]⟩)
    | adding batch => exact .inr (.inr ⟨by simp, by simp, by simp [afterCall, hstage]⟩)
    | sweeping => exact .inr (.inr ⟨by simp, by simp, by simp [afterCall, hstage]⟩)
  | fork t => exact .inr (.inr ⟨by simp, by simp, rfl⟩)
  | switch cpu next exits h walks padding lost => exact .inr (.inr ⟨by simp, by simp, rfl⟩)
  | read cpu => exact .inr (.inr ⟨by simp, by simp, rfl⟩)
  | join => exact .inr (.inr ⟨by simp, by simp, rfl⟩)

/-! ## The profiler -/

end Session

/-- The start of the profiler, once its output file is made: the file, and how the command ends. -/
def SessionOp.started? {config : Config} : SessionOp config → Option (String × Exec)
  | .start (some file) exec => some (file, exec)
  | _ => none

/-- The drop of the provider: whether the target is alive, and how the stop command would end. -/
def SessionOp.dropped? {config : Config} : SessionOp config → Option (Bool × Exec)
  | .drop alive exec => some (alive, exec)
  | _ => none

namespace Session

variable {M : StackMap} {cli : Cli} {formatTime : UInt64 → Option (List Char)} {o : Overflow}
  {decode : List Char → Option JvmEvent}

/-- What has been done with the profiler, by its starts and by the drops of its provider. -/
inductive Profiled (cli : Cli) :
    List (String × Exec) → List (Bool × Exec) → Session M cli.config → Prop
  /-- there is no output file yet, or none could be made -/
  | idle {s : Session M cli.config} : s.outputFile = none → s.commands = [] →
      s.phase = .starting ∨ s.phase = .exited false → Profiled cli [] [] s
  /-- its start was issued, and the session is not over -/
  | started {s : Session M cli.config} {file : String} {exec : Exec} : s.outputFile = some file →
      s.commands = [(profilerCmd cli file "start", exec)] → s.phase ≠ .starting →
      (∀ ok, s.phase ≠ .exited ok) → Profiled cli [(file, exec)] [] s
  /-- the session is over, and its stop was issued if the target was alive -/
  | stopped {s : Session M cli.config} {file : String} {exec exec' : Exec} {alive ok : Bool} :
      s.commands = (profilerCmd cli file "start", exec) ::
        (if alive then [(profilerCmd cli file "stop", exec')] else []) →
      s.phase = .exited ok → Profiled cli [(file, exec)] [(alive, exec')] s

section Profiled

variable {starts : List (String × Exec)} {drops : List (Bool × Exec)} {s s' : Session M cli.config}

/-- A step inside the session leaves the profiler alone. -/
theorem Profiled.inside (h : Profiled cli starts drops s) (hstart : s.phase ≠ .starting)
    (hexit : ∀ ok, s.phase ≠ .exited ok) (hfile : s'.outputFile = s.outputFile)
    (hcommands : s'.commands = s.commands) (hstart' : s'.phase ≠ .starting)
    (hexit' : ∀ ok, s'.phase ≠ .exited ok) : Profiled cli starts drops s' := by
  cases h with
  | idle _ _ hphase => exact absurd hphase (by simp [hstart, hexit])
  | started hf hc _ _ => exact .started (hfile.trans hf) (hcommands.trans hc) hstart' hexit'
  | stopped _ hphase => exact absurd hphase (hexit _)

/-- A step that leaves the phase and the profiler alone. -/
theorem Profiled.frame (h : Profiled cli starts drops s) (hphase : s'.phase = s.phase)
    (hfile : s'.outputFile = s.outputFile) (hcommands : s'.commands = s.commands) :
    Profiled cli starts drops s' := by
  cases h with
  | idle hf hc hp => exact .idle (hfile.trans hf) (hcommands.trans hc) (hphase ▸ hp)
  | started hf hc hs he =>
    exact .started (hfile.trans hf) (hcommands.trans hc) (hphase ▸ hs) (hphase ▸ he)
  | stopped hc hp => exact .stopped (hcommands.trans hc) (hphase.trans hp)

/-- A step that neither starts the profiler nor drops its provider. -/
theorem Profiled.step {op : SessionOp cli.config} (h : Profiled cli starts drops s)
    (hstarted : op.started? = none) (hdropped : op.dropped? = none)
    (hstep : Steps cli formatTime o decode s op s') : Profiled cli starts drops s' := by
  cases hstep with
  | unmade hphase =>
    cases h with
    | idle hf hc _ => exact .idle hf hc (.inr rfl)
    | started _ _ hs _ => exact absurd hphase hs
    | stopped _ hp => simp [hphase] at hp
  | start _ => cases hstarted
  | load hphase =>
    exact h.inside (by simp [hphase]) (by simp [hphase]) rfl rfl (by simp) (by simp)
  | unloaded hphase =>
    exact h.inside (by simp [hphase]) (by simp [hphase]) rfl rfl (by simp) (by simp)
  | @poll interrupted alive hphase =>
    refine h.inside (by simp [hphase]) (by simp [hphase]) rfl rfl ?_ ?_
    · cases interrupted <;> cases alive <;> simp
    · cases interrupted <;> cases alive <;> simp
  | kernel _ _ _ => exact h.frame rfl rfl rfl
  | @call op jbm jbm' hphase _ _ _ =>
    rcases s.afterCall_cases jbm jbm' op with ⟨_, _, _, heq⟩ | ⟨_, heq⟩ | ⟨_, _, heq⟩
    · rw [heq]
      exact h.inside (by simp [hphase]) (by simp [hphase]) rfl rfl (by simp) (by simp)
    · rw [heq]
      exact h.inside (by simp [hphase]) (by simp [hphase]) rfl rfl (by simp) (by simp)
    · rw [heq]
      exact h.frame rfl rfl rfl
  | printed hphase _ =>
    exact h.inside (by simp [hphase]) (by simp [hphase]) rfl rfl (by simp) (by simp)
  | unformatted hphase _ =>
    exact h.inside (by simp [hphase]) (by simp [hphase]) rfl rfl (by simp) (by simp)
  | print _ _ _ => exact h.frame rfl rfl rfl
  | panic hphase =>
    have hnow : s.phase ≠ .starting ∧ ∀ ok, s.phase ≠ .exited ok := by
      rcases hphase with hphase | hphase | hphase <;> simp [hphase]
    exact h.inside hnow.1 hnow.2 rfl rfl (by simp) (by simp)
  | drop _ _ => cases hdropped

/-- The start of the profiler. -/
theorem Profiled.start {file : String} {exec : Exec} (h : Profiled cli starts drops s)
    (hstep : Steps cli formatTime o decode s (.start (some file) exec) s') :
    Profiled cli (starts ++ [(file, exec)]) drops s' := by
  cases hstep with
  | start hphase =>
    cases h with
    | idle hf hc _ =>
      have hnext : (if exec.ok then Phase.loading else .leaving false) ≠ .starting ∧
          ∀ ok, (if exec.ok then Phase.loading else .leaving false) ≠ .exited ok := by
        split <;> simp
      exact .started rfl (congrArg (· ++ _) hc) hnext.1 hnext.2
    | started _ _ hs _ => exact absurd hphase hs
    | stopped _ hp => simp [hphase] at hp

/-- The drop of the provider. -/
theorem Profiled.drop {alive : Bool} {exec : Exec} (h : Profiled cli starts drops s)
    (hstep : Steps cli formatTime o decode s (.drop alive exec) s') :
    Profiled cli starts (drops ++ [(alive, exec)]) s' := by
  cases hstep with
  | @drop ok _ _ file hphase hfile =>
    cases h with
    | idle hf _ _ =>
      rw [hf] at hfile
      cases hfile
    | @started _ _ first hf hc _ _ =>
      rw [hf] at hfile
      cases hfile
      have hcommands : (if alive then s.commands ++ [(profilerCmd cli file "stop", exec)]
            else s.commands) = (profilerCmd cli file "start", first) ::
          (if alive then [(profilerCmd cli file "stop", exec)] else []) := by
        cases alive <;> simp [hc]
      exact .stopped hcommands rfl
    | stopped _ hp => simp [hphase] at hp

end Profiled

/-! ## The reports -/

end Session

/-- A step of the kernel leaves the stream and the dropped events alone. -/
theorem System.Steps.of_kernel {M : StackMap} {cap : Nat} {config : Config} {o : Overflow}
    {decode : List Char → Option JvmEvent} {s s' : System M cap} {op : SystemOp}
    (h : System.Steps config o decode s op s') (hop : op.ofKernel) :
    s'.history = s.history ∧ s'.dropped = s.dropped := by
  cases h with
  | fork _ => exact ⟨rfl, rfl⟩
  | switch _ _ _ _ _ => exact ⟨rfl, rfl⟩
  | read _ _ _ _ | add _ _ | join _ | fill _ | sweep _ => cases hop

/-- Only a sweep returns events. -/
theorem Monitor.returned_of_step {o : Overflow} {decode : List Char → Option JvmEvent}
    {m m' : Monitor} {act : Act} (h : m.step o decode act = some m')
    (hact : ∀ now order, act ≠ .sweep now order) : m'.history.returned = m.history.returned := by
  cases Monitor.steps_of_step h with
  | wake _ | read _ _ | join _ | failed => rfl
  | added _ hadd => cases hadd with | add _ => rfl
  | fill hfill => cases hfill with | fill => rfl
  | sweep _ => exact absurd rfl (hact _ _)

/-- A sweep of the system returns events behind those returned before, and nothing else returns
any. -/
theorem System.Steps.returned {M : StackMap} {cap : Nat} {config : Config} {o : Overflow}
    {decode : List Char → Option JvmEvent} {s s' : System M cap} {op : SystemOp}
    (h : System.Steps config o decode s op s') :
    s.history.returned <+: s'.history.returned ∧
      ((∀ now order, op ≠ .sweep now order) → s'.history.returned = s.history.returned) := by
  cases h with
  | fork _ | switch _ _ _ _ _ | read _ _ _ _ => exact ⟨List.prefix_refl _, fun _ => rfl⟩
  | add _ hm =>
    have hsame : _ = s.history.returned := Monitor.returned_of_step hm (by simp)
    exact ⟨hsame ▸ List.prefix_refl _, fun _ => hsame⟩
  | join hm =>
    have hsame : _ = s.history.returned := Monitor.returned_of_step hm (by simp)
    exact ⟨hsame ▸ List.prefix_refl _, fun _ => hsame⟩
  | fill hm =>
    have hsame : _ = s.history.returned := Monitor.returned_of_step hm (by simp)
    exact ⟨hsame ▸ List.prefix_refl _, fun _ => hsame⟩
  | @sweep now order m hm =>
    cases Monitor.steps_of_step hm with
    | sweep hsweep =>
      cases hsweep with
      | sweep _ _ => exact ⟨List.prefix_append _ _, fun hno => absurd rfl (hno now order)⟩

/-- A call that does not fail drops nothing. -/
theorem System.Steps.dropped {M : StackMap} {cap : Nat} {config : Config} {o : Overflow}
    {decode : List Char → Option JvmEvent} {s s' : System M cap} {op : SystemOp}
    (h : System.Steps config o decode s op s')
    (hadd : ∀ host, op = .add host → s'.stage.results? = none) : s'.dropped = s.dropped := by
  cases h with
  | @add host m _ hm =>
    obtain ⟨event, batch, hstage, ⟨hadded, _⟩ | ⟨hfailed, _⟩⟩ := Monitor.stage_of_add hm
    · rw [System.afterAdd_added hadded]
      rfl
    · have hnone := hadd host rfl
      simp [System.adopt, hfailed, Monitor.begin, Stage.results?] at hnone
  | fork _ | switch _ _ _ _ _ | read _ _ _ _ | join _ | fill _ | sweep _ => rfl

namespace Session

variable {M : StackMap} {cli : Cli} {formatTime : UInt64 → Option (List Char)} {o : Overflow}
  {decode : List Char → Option JvmEvent}

/-- What has become of the events, in a session with a `Jbm`. -/
structure Reported (cli : Cli) (formatTime : UInt64 → Option (List Char)) (o : Overflow)
    (decode : List Char → Option JvmEvent) (s : Session M cli.config)
    (jbm : System M cli.config.stackCap) : Prop where
  late : s.phase ≠ .starting ∧ s.phase ≠ .loading
  /-- the session drives the system -/
  runs : ∃ b sysOps, System.run M b o decode sysOps = some jbm
  /-- the log is what the sweeps returned, up to what is still to print -/
  logged : ∃ done, jbm.history.returned = done ++ s.unprinted ∧
    printReports formatTime done = some s.log
  /-- no call begins before everything is printed -/
  printed : s.phase = .polling ∨ s.phase = .calling → s.unprinted = []
  /-- no call has failed -/
  kept : s.InLoop → jbm.dropped = []

/-- A session before its `Jbm`, or with one. -/
def Reports (cli : Cli) (formatTime : UInt64 → Option (List Char)) (o : Overflow)
    (decode : List Char → Option JvmEvent) (s : Session M cli.config) : Prop :=
  (s.jbm = none ∧ s.log = [] ∧ s.unprinted = [] ∧ ¬ s.InLoop) ∨
    ∃ jbm, s.jbm = some jbm ∧ Reported cli formatTime o decode s jbm

/-- One more report is printed behind the others. -/
theorem printReports_concat {ps : List Pair} {p : Pair} {text out : List Char}
    (h : printReports formatTime ps = some text) (hout : report formatTime p = some out) :
    printReports formatTime (ps ++ [p]) = some (text ++ (out ++ ['\n'])) := by
  induction ps generalizing text with
  | nil =>
    cases h
    simp [printReports, hout]
  | cons q ps ih =>
    obtain ⟨first, hfirst, h⟩ := Option.bind_eq_some_iff.mp h
    obtain ⟨rest, hrest, h⟩ := Option.bind_eq_some_iff.mp h
    cases h
    simp [printReports, hfirst, ih hrest]

/-- A step that leaves the system and what is printed of it alone. -/
theorem Reported.frame {s s' : Session M cli.config} {jbm : System M cli.config.stackCap}
    (h : Reported cli formatTime o decode s jbm) (hunprinted : s'.unprinted = s.unprinted)
    (hlog : s'.log = s.log) (hlate : s'.phase ≠ .starting ∧ s'.phase ≠ .loading)
    (hprinted : s'.phase = .polling ∨ s'.phase = .calling → s.unprinted = [])
    (hloop : s'.InLoop → s.InLoop) : Reported cli formatTime o decode s' jbm where
  late := hlate
  runs := h.runs
  logged := by
    rw [hunprinted, hlog]
    exact h.logged
  printed hphase := hunprinted.trans (hprinted hphase)
  kept hin := h.kept (hloop hin)

/-- A step on the way out leaves what was printed as it is. -/
theorem Reports.leave {s s' : Session M cli.config} (h : Reports cli formatTime o decode s)
    (hjbm : s'.jbm = s.jbm) (hunprinted : s'.unprinted = s.unprinted) (hlog : s'.log = s.log)
    (hphase : (∃ ok, s'.phase = .leaving ok) ∨ ∃ ok, s'.phase = .exited ok) :
    Reports cli formatTime o decode s' := by
  have hout : ¬ s'.InLoop ∧ (s'.phase ≠ .starting ∧ s'.phase ≠ .loading) ∧
      ¬ (s'.phase = .polling ∨ s'.phase = .calling) := by
    rcases hphase with ⟨ok, hphase⟩ | ⟨ok, hphase⟩
    · simp [InLoop, hphase]
    · simp [InLoop, hphase]
  rcases h with ⟨hnone, hl, hu, _⟩ | ⟨jbm, hsome, hr⟩
  · exact .inl ⟨hjbm.trans hnone, hlog.trans hl, hunprinted.trans hu, hout.1⟩
  · exact .inr ⟨jbm, hjbm.trans hsome, hr.frame hunprinted hlog hout.2.1
      (fun hp => absurd hp hout.2.2) fun hin => absurd hin hout.1⟩

/-- A session in its loop has its `Jbm`. -/
theorem Reports.inLoop {s : Session M cli.config} (h : Reports cli formatTime o decode s)
    (hin : s.InLoop) : ∃ jbm, s.jbm = some jbm ∧ Reported cli formatTime o decode s jbm := by
  rcases h with ⟨_, _, _, hout⟩ | h
  · exact absurd hin hout
  · exact h

/-- A session that still has to load its `Jbm` has printed nothing. -/
theorem Reports.early {s : Session M cli.config} (h : Reports cli formatTime o decode s)
    (hphase : s.phase = .starting ∨ s.phase = .loading) :
    s.jbm = none ∧ s.log = [] ∧ s.unprinted = [] := by
  rcases h with ⟨hnone, hlog, hunprinted, _⟩ | ⟨jbm, _, hr⟩
  · exact ⟨hnone, hlog, hunprinted⟩
  · rcases hphase with hphase | hphase
    · exact absurd hphase hr.late.1
    · exact absurd hphase hr.late.2

/-- The system of the session takes a step. -/
theorem Reported.extends {s : Session M cli.config} {jbm jbm' : System M cli.config.stackCap}
    {op : SystemOp} (h : Reported cli formatTime o decode s jbm)
    (hstep : jbm.step cli.config o decode op = some jbm') :
    ∃ b sysOps, System.run M b o decode sysOps = some jbm' := by
  obtain ⟨b, sysOps, hrun⟩ := h.runs
  exact ⟨b, sysOps ++ [op], exec_concat.mpr ⟨jbm, hrun, hstep⟩⟩

/-- A step of the current call. -/
theorem Reported.call {s : Session M cli.config} {jbm jbm' : System M cli.config.stackCap}
    {op : SystemOp} (h : Reported cli formatTime o decode s jbm) (hphase : s.phase = .calling)
    (hstep : jbm.step cli.config o decode op = some jbm') :
    Reported cli formatTime o decode (s.afterCall jbm jbm' op) jbm' := by
  have hsteps := System.steps_of_step hstep
  have hruns := h.extends hstep
  have hnone : s.unprinted = [] := h.printed (.inr hphase)
  have hkept : jbm.dropped = [] := h.kept (.inr (.inl hphase))
  obtain ⟨done, hdone, hlog⟩ := h.logged
  rw [hnone, List.append_nil] at hdone
  rcases s.afterCall_cases jbm jbm' op with ⟨now, order, hop, heq⟩ | ⟨hno, heq⟩ | ⟨hno, hadd, heq⟩
  · subst hop
    obtain ⟨out, hout⟩ := hsteps.returned.1
    rw [heq]
    refine ⟨by simp, hruns, ⟨done, ?_, hlog⟩, by simp, fun _ => ?_⟩
    · rw [← hout, List.drop_left, ← hdone]
    · rw [hsteps.dropped (by simp), hkept]
  · have hsame := hsteps.returned.2 hno
    rw [heq]
    refine ⟨by simp, hruns, ⟨done, ?_, hlog⟩, by simp, fun hin => ?_⟩
    · simpa [hnone, hsame] using hdone
    · simp [InLoop] at hin
  · have hsame := hsteps.returned.2 hno
    rw [heq]
    refine ⟨by simp [hphase], hruns, ⟨done, ?_, hlog⟩, fun _ => hnone, fun _ => ?_⟩
    · simpa [hnone, hsame] using hdone
    · rw [hsteps.dropped hadd, hkept]

/-- A step of the kernel during the session. -/
theorem Reported.kernel {s : Session M cli.config} {jbm jbm' : System M cli.config.stackCap}
    {op : SystemOp} (h : Reported cli formatTime o decode s jbm) (hop : op.ofKernel)
    (hstep : jbm.step cli.config o decode op = some jbm') :
    Reported cli formatTime o decode { s with jbm := some jbm' } jbm' := by
  obtain ⟨hhistory, hdropped⟩ := (System.steps_of_step hstep).of_kernel hop
  refine ⟨h.late, h.extends hstep, ?_, h.printed, fun hin => hdropped.trans (h.kept hin)⟩
  rw [hhistory]
  exact h.logged

/-- A report is printed. -/
theorem Reported.print {s : Session M cli.config} {jbm : System M cli.config.stackCap} {p : Pair}
    {ps : List Pair} {out : List Char} (h : Reported cli formatTime o decode s jbm)
    (hphase : s.phase = .printing) (hcons : s.unprinted = p :: ps)
    (hout : report formatTime p = some out) : Reported cli formatTime o decode
      { s with unprinted := ps, log := s.log ++ (out ++ ['\n']) } jbm := by
  obtain ⟨done, hdone, hlog⟩ := h.logged
  refine ⟨h.late, h.runs, ⟨done ++ [p], ?_, printReports_concat hlog hout⟩, ?_, h.kept⟩
  · rw [hdone, hcons, List.append_assoc]
    rfl
  · intro hp
    simp [hphase] at hp

theorem Reports.step {s s' : Session M cli.config} {op : SessionOp cli.config}
    (h : Reports cli formatTime o decode s) (hstep : Steps cli formatTime o decode s op s') :
    Reports cli formatTime o decode s' := by
  cases hstep with
  | unmade hphase => exact h.leave rfl rfl rfl (.inr ⟨false, rfl⟩)
  | @start file exec hphase =>
    obtain ⟨hnone, hlog, hunprinted⟩ := h.early (.inl hphase)
    refine .inl ⟨hnone, hlog, hunprinted, ?_⟩
    cases hok : exec.ok <;> simp [InLoop]
  | @load l b hphase =>
    obtain ⟨_, hlog, hunprinted⟩ := h.early (.inr hphase)
    refine .inr ⟨.boot M b, rfl, by simp, ⟨b, [], rfl⟩, ⟨[], ?_, ?_⟩, fun _ => hunprinted,
      fun _ => rfl⟩
    · rw [hunprinted]
      rfl
    · rw [hlog]
      rfl
  | unloaded hphase => exact h.leave rfl rfl rfl (.inl ⟨false, rfl⟩)
  | @poll interrupted alive hphase =>
    obtain ⟨jbm, hjbm, hr⟩ := h.inLoop (.inl hphase)
    have hnone := hr.printed (.inl hphase)
    refine .inr ⟨jbm, hjbm, hr.frame rfl rfl ?_ (fun _ => hnone) fun _ => .inl hphase⟩
    cases interrupted <;> cases alive <;> simp
  | kernel hjbm hop hstep =>
    rcases h with ⟨hnone, _⟩ | ⟨jbm, hsome, hr⟩
    · rw [hnone] at hjbm
      cases hjbm
    · rw [hsome] at hjbm
      cases hjbm
      exact .inr ⟨_, rfl, hr.kernel hop hstep⟩
  | @call op jbm jbm' hphase hjbm _ hstep =>
    obtain ⟨jbm₀, hsome, hr⟩ := h.inLoop (.inr (.inl hphase))
    rw [hjbm] at hsome
    cases hsome
    have hnow : (s.afterCall jbm jbm' op).jbm = some jbm' := by
      rcases s.afterCall_cases jbm jbm' op with ⟨_, _, _, heq⟩ | ⟨_, heq⟩ | ⟨_, _, heq⟩ <;> rw [heq]
    exact .inr ⟨jbm', hnow, hr.call hphase hstep⟩
  | printed hphase hnil =>
    obtain ⟨jbm, hjbm, hr⟩ := h.inLoop (.inr (.inr hphase))
    exact .inr ⟨jbm, hjbm, hr.frame rfl rfl (by simp) (fun _ => hnil) fun _ => .inr (.inr hphase)⟩
  | unformatted hphase _ => exact h.leave rfl rfl rfl (.inl ⟨false, rfl⟩)
  | print hphase hcons hout =>
    obtain ⟨jbm, hjbm, hr⟩ := h.inLoop (.inr (.inr hphase))
    exact .inr ⟨jbm, hjbm, hr.print hphase hcons hout⟩
  | panic hphase => exact h.leave rfl rfl rfl (.inl ⟨false, rfl⟩)
  | drop hphase _ => exact h.leave rfl rfl rfl (.inr ⟨_, rfl⟩)

theorem reports_of_run {ops : List (SessionOp cli.config)} {s : Session M cli.config}
    (h : Session.run M cli formatTime o decode ops = some s) : Reports cli formatTime o decode s :=
  exec_keeps (fun _ _ _ hI hstep => hI.step (steps_of_step hstep))
    (.inl ⟨rfl, rfl, rfl, by simp [Session.new, InLoop]⟩) h

end Session

/-! ## A sample session -/

/-- The options under which the sample host is watched. -/
def sampleCli : Cli := { Cli.default 100 with maxBlockTime := 1000000 }

/-- The time of the sample host, whose clock shows less than a second. -/
def sampleTime (_ : UInt64) : Option (List Char) := some "1970-01-01 00:00:00".toList

/-- A session on the sample host: one call of `process`, its report, and an interrupt. -/
def sampleSession : List (SessionOp sampleCli.config) :=
  [.start (some "/tmp/jbm-ap-0") (.exited (some 0)),
    .load ⟨.loaded, false, .loaded, true⟩ sampleBoot, .poll false true] ++
  sampleSystem.map SessionOp.system ++
  [.print, .print, .poll true true, .drop true (.exited (some 0))]

theorem sampleSession_runs : (Session.run sampleStackMap sampleCli sampleTime .abort sampleDecode
    sampleSession).isSome := by decide

def sampleSessionEnd : Session sampleStackMap sampleCli.config :=
  Option.get _ sampleSession_runs

/-- The same session before the interrupt. -/
theorem sampleLoop_runs : (Session.run sampleStackMap sampleCli sampleTime .abort sampleDecode
    (sampleSession.take 12)).isSome := by decide

theorem sampleLoop_jbm : (Option.get _ sampleLoop_runs).jbm.isSome := by decide

/-! ## The two laws -/

/-- **The profiler's start is issued once and so is its stop**: in every session, whatever fails, no
command is issued before an output file is made; then the start command is, and nothing else until
the session is over; and then the stop command, exactly if the target was alive at the drop, which
comes once, on every way out behind the output file. Each command is recorded with how it ended, so
those that ran are those that could be spawned. -/
theorem profiler_stopped {M : StackMap} {cli : Cli} {formatTime : UInt64 → Option (List Char)}
    {o : Overflow} {decode : List Char → Option JvmEvent} {ops : List (SessionOp cli.config)}
    {s : Session M cli.config} (h : Session.run M cli formatTime o decode ops = some s) :
    Session.Profiled cli (ops.filterMap SessionOp.started?) (ops.filterMap SessionOp.dropped?)
      s := by
  induction ops using List.reverseRecOn generalizing s with
  | nil =>
    cases h
    exact .idle rfl rfl (.inl rfl)
  | append_singleton ops op ih =>
    obtain ⟨m, hm, hlast⟩ := exec_concat.mp h
    have hsteps := Session.steps_of_step hlast
    have hold := ih hm
    rw [List.filterMap_append, List.filterMap_append]
    cases hstarted : op.started? with
    | some start =>
      -- a start is no drop
      cases op with
      | start outputFile exec =>
        cases outputFile with
        | none => cases hstarted
        | some file =>
          show Session.Profiled cli (_ ++ [(file, exec)]) (_ ++ []) s
          rw [List.append_nil]
          exact hold.start hsteps
      | load _ _ | poll _ _ | system _ | print | panic | drop _ _ => cases hstarted
    | none =>
      have hstarts : [op].filterMap SessionOp.started? = [] := by simp [hstarted]
      rw [hstarts, List.append_nil]
      cases hdropped : op.dropped? with
      | some drop =>
        cases op with
        | drop alive exec => exact hold.drop hsteps
        | start _ _ | load _ _ | poll _ _ | system _ | print | panic => cases hdropped
      | none =>
        have hdrops : [op].filterMap SessionOp.dropped? = [] := by simp [hdropped]
        rw [hdrops, List.append_nil]
        exact hold.step hstarted hdropped hsteps

/-- The start cannot be spawned; the target is alive at the drop, and the stop command fails. -/
def sampleUnspawned : List (SessionOp sampleCli.config) :=
  [.start (some "/tmp/jbm-ap-0") .unspawned, .drop true (.exited (some 1))]

theorem sampleUnspawned_runs :
    (Session.run sampleStackMap sampleCli sampleTime .abort sampleDecode
      sampleUnspawned).isSome := by decide

theorem profiler_stopped_sampleSession :
    Session.Profiled sampleCli [("/tmp/jbm-ap-0", .exited (some 0))] [(true, .exited (some 0))]
        sampleSessionEnd ∧
      Session.Profiled sampleCli [("/tmp/jbm-ap-0", .unspawned)] [(true, .exited (some 1))]
        (Option.get _ sampleUnspawned_runs) :=
  ⟨profiler_stopped (Option.some_get sampleSession_runs).symm,
    profiler_stopped (Option.some_get sampleUnspawned_runs).symm⟩

/-- **Everything returned is printed, and nothing else is missing**: in every session the text on
standard output is that of what the sweeps returned, in order, up to what is still to print, which
is nothing when a call begins; and as long as the session is in its loop, the events the eBPF
program output are, each exactly once, those a perf buffer lost, those in the buffers, those in hand
and those added. -/
theorem session_reports {M : StackMap} {cli : Cli} {formatTime : UInt64 → Option (List Char)}
    {o : Overflow} {decode : List Char → Option JvmEvent} {ops : List (SessionOp cli.config)}
    {s : Session M cli.config} (h : Session.run M cli formatTime o decode ops = some s)
    {jbm : System M cli.config.stackCap} (hjbm : s.jbm = some jbm) :
    (∃ done, jbm.history.returned = done ++ s.unprinted ∧
        printReports formatTime done = some s.log) ∧
      (s.phase = .polling ∨ s.phase = .calling → s.unprinted = []) ∧
      (s.InLoop → jbm.kernel.outputs.Perm
        (jbm.lost ++ jbm.buffered ++ jbm.stage.inHand ++ jbm.added)) := by
  rcases Session.reports_of_run h with ⟨hnone, _⟩ | ⟨jbm', hsome, hr⟩
  · rw [hnone] at hjbm
    cases hjbm
  · rw [hsome] at hjbm
    cases hjbm
    obtain ⟨b, sysOps, hrun⟩ := hr.runs
    refine ⟨hr.logged, hr.printed, fun hin => ?_⟩
    have haccount := (System.accounted_of_run hrun).account
    rw [hr.kept hin, List.append_nil] at haccount
    exact haccount

theorem session_reports_sampleSession :
    let s := Option.get _ sampleLoop_runs
    let jbm := Option.get _ sampleLoop_jbm
    (∃ done, jbm.history.returned = done ++ s.unprinted ∧
        printReports sampleTime done = some s.log) ∧
      (s.phase = .polling ∨ s.phase = .calling → s.unprinted = []) ∧
      (s.InLoop → jbm.kernel.outputs.Perm
        (jbm.lost ++ jbm.buffered ++ jbm.stage.inHand ++ jbm.added)) :=
  session_reports (Option.some_get sampleLoop_runs).symm (Option.some_get sampleLoop_jbm).symm

end Jbm
