import Jbm.Session.Report
import Jbm.System

/-!
# `main`

A session: async-profiler is started on the target, the eBPF program is loaded, and the loop calls
`process` and prints what it returns, until an interrupt, the end of the target, or a failure. The
profiler is stopped where its provider is dropped, and the provider is dropped on every way out of
`main` behind its construction, a panic included.

A step carries what the world answers: the profiler's exit codes, whether `Jbm::new` gets its
resources, whether an interrupt came and whether the target is alive. The kernel runs from the end
of `Jbm::new` to the drop of the `Jbm`.
-/

set_option autoImplicit false

namespace Jbm

open Base

/-- The options of the command line that are read. -/
structure Cli where
  pid : UInt32
  minBlockTime : UInt64
  maxBlockTime : UInt64
  stackStorageSize : UInt32
  asyncProfilerBin : Option String

/-- The options when only the pid is given. -/
def Cli.default (pid : UInt32) : Cli := ⟨pid, 1000, 18446744073709551615, 10240, none⟩

def Cli.config (cli : Cli) : Config where
  targetTgid := cli.pid
  minBlockUs := cli.minBlockTime
  maxBlockUs := cli.maxBlockTime
  stackStorageSize := cli.stackStorageSize

/-! ## The profiler -/

/-- `DEFAULT_ASYNC_PROFILER_BIN`. -/
def defaultAsyncProfilerBin : String := "./async-profiler/profiler.sh"

/-- A command with its arguments. -/
structure Command where
  program : String
  args : List String
  deriving DecidableEq

/-- The command of `exec_profiler_cmd`. -/
def profilerCmd (cli : Cli) (outputFile subcommand : String) : Command where
  program := cli.asyncProfilerBin.getD defaultAsyncProfilerBin
  args := ["-e", "none", "-o", "stream", "-f", outputFile, subcommand, toString cli.pid.toNat]

/-- How a command ends: it cannot be spawned, it cannot be waited for, or it exits, with a code
unless by a signal. -/
inductive Exec
  | unspawned
  | unwaited
  | exited (code : Option Int32)
  deriving DecidableEq

/-- `exec_profiler_cmd` succeeds. -/
def Exec.ok : Exec → Bool
  | .unspawned | .unwaited => false
  | .exited code => code.getD (-1) = 0

/-! ## `Jbm::new` -/

/-- What `load_bpf` answers. -/
inductive LoadBpf
  | loaded
  | mapError
  | otherError

/-- What `Jbm::new` meets. -/
structure Loading where
  first : LoadBpf
  setrlimit : Bool
  second : LoadBpf
  /-- the program is attached and the perf buffer of every online CPU is open -/
  attached : Bool

/-- `Jbm::new` succeeds; a map error is met by lifting the limit on locked memory, once. -/
def Loading.ok (l : Loading) : Bool :=
  match l.first with
  | .loaded => l.attached
  | .mapError => l.setrlimit && (match l.second with | .loaded => l.attached | _ => false)
  | .otherError => false

/-! ## The session -/

/-- Where `main` stands. -/
inductive Phase
  /-- before `AsyncProfilerStackTraceProvider::start` -/
  | starting
  /-- in `Jbm::new` -/
  | loading
  /-- at the head of the loop -/
  | polling
  /-- in `process` -/
  | calling
  /-- printing what `process` returned -/
  | printing
  /-- on the way out, `ok` saying whether without a failure -/
  | leaving (ok : Bool)
  | exited (ok : Bool)
  deriving DecidableEq

/-- `main` with what it did to the world: the profiler commands it issued, each with how it ended,
and the text of the `println!` calls that returned. `outputFile` is the profiler's output file, `jbm`
the system from the end of `Jbm::new` to the drop, `unprinted` what is left of the last result of
`process`. -/
structure Session (M : StackMap) (config : Config) where
  phase : Phase
  outputFile : Option String
  commands : List (Command × Exec)
  jbm : Option (System M config.stackCap)
  unprinted : List Pair
  log : List Char

/-- Before anything is done. -/
def Session.new (M : StackMap) (config : Config) : Session M config :=
  ⟨.starting, none, [], none, [], []⟩

/-- The operation is one of the kernel. -/
def SystemOp.ofKernel : SystemOp → Bool
  | .fork _ | .switch .. => true
  | _ => false

inductive SessionOp (config : Config)
  /-- `start`: the output file unless it cannot be made, and how the command ends -/
  | start (outputFile : Option String) (exec : Exec)
  | load (l : Loading) (b : Boot config)
  | poll (interrupted alive : Bool)
  /-- a step of the kernel, or one of the current call of `process` -/
  | system (op : SystemOp)
  | print
  /-- `Jbm::new`, `process` or a `println!` panics -/
  | panic
  /-- the locals of `main` are dropped -/
  | drop (alive : Bool) (exec : Exec)

namespace Session

variable {M : StackMap} {config : Config}

/-- `main` behind a step of the current call: where the call goes on, fails, or returns. -/
def afterCall (s : Session M config) (jbm jbm' : System M config.stackCap) (op : SystemOp) :
    Session M config :=
  match op, jbm'.stage with
  | .sweep _ _, _ =>
    { s with
      phase := .printing
      jbm := some jbm'
      unprinted := jbm'.history.returned.drop jbm.history.returned.length }
  | .add _, .reading _ => { s with phase := .leaving false, jbm := some jbm' }
  | .fill _ _, .reading _ => { s with phase := .leaving false, jbm := some jbm' }
  | _, _ => { s with jbm := some jbm' }

end Session

section Machine

variable (M : StackMap) (cli : Cli) (formatTime : UInt64 → Option (List Char)) (o : Overflow)
  (decode : List Char → Option JvmEvent)

variable {M} in
/-- One step. -/
def Session.step (s : Session M cli.config) : SessionOp cli.config → Option (Session M cli.config)
  | .start outputFile exec =>
    if s.phase = .starting then
      match outputFile with
      | none => some { s with phase := .exited false }
      | some file =>
        some
          { s with
            phase := if exec.ok then .loading else .leaving false
            outputFile := some file
            commands := s.commands ++ [(profilerCmd cli file "start", exec)] }
    else none
  | .load l b =>
    if s.phase = .loading then
      if l.ok then some { s with phase := .polling, jbm := some (.boot M b) }
      else some { s with phase := .leaving false }
    else none
  | .poll interrupted alive =>
    if s.phase = .polling then
      some { s with phase := if interrupted || !alive then .leaving true else .calling }
    else none
  | .system op =>
    match s.phase, s.jbm with
    | .exited _, _ => none
    | _, none => none
    | phase, some jbm =>
      if op.ofKernel then
        (jbm.step cli.config o decode op).map fun jbm' => { s with jbm := some jbm' }
      else if phase = .calling then
        (jbm.step cli.config o decode op).map fun jbm' => s.afterCall jbm jbm' op
      else none
  | .print =>
    if s.phase = .printing then
      match s.unprinted with
      | [] => some { s with phase := .polling }
      | p :: ps =>
        match report formatTime p with
        -- `format_time` panics
        | none => some { s with phase := .leaving false }
        | some out => some { s with unprinted := ps, log := s.log ++ (out ++ ['\n']) }
    else none
  | .panic =>
    if s.phase = .loading ∨ s.phase = .calling ∨ s.phase = .printing then
      some { s with phase := .leaving false }
    else none
  | .drop alive exec =>
    match s.phase, s.outputFile with
    | .leaving ok, some file =>
      some
        { s with
          phase := .exited ok
          commands :=
            if alive then s.commands ++ [(profilerCmd cli file "stop", exec)] else s.commands }
    | _, _ => none

/-- A run of `main`. -/
def Session.run (ops : List (SessionOp cli.config)) : Option (Session M cli.config) :=
  exec (Session.step cli formatTime o decode) (.new M cli.config) ops

end Machine

end Jbm
