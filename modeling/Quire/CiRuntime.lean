import Quire.JobPipeline
import Quire.Panicking
import Quire.RunEvents

namespace Quire.CiRuntime
open Text Secret Primitives JobPipeline Panicking RunEvents

structure RunMeta where
  sha : String
  ref : String
  pushedAt : String
  deriving DecidableEq, Repr

-- Everything outside the process, with the answers it gives in each of its
-- states. Times are nanoseconds; an exit code is none after a signal.
structure Host (World : Type) where
  now : World → Int × World
  showTimestamp : Int → String
  readToString : String → World → Except String String × World
  output : Cmd → ShOpts → String → World → Except String (Option Int × String × String) × World
  createDirAll : String → World → Except String Unit × World
  writeFile : String → List String → World → Except String Unit × World
  sources : World → Sources × World

structure Runtime where
  registry : SecretRegistry
  inputs : List (String × List (String × Option PushOutputs))
  currentJob : Option String
  outputs : AList (fun _ : String => List ShOutput)
  shTimings : AList (fun _ : String => List (Int × Int))
  logDir : String
  workspace : String

-- `currentJob` is the executor's own pointer, beside the cursor of the runtime.
structure State (World Vm : Type) where
  world : World
  vm : Vm
  runtime : Runtime
  currentJob : Option String
  sink : List Event

abbrev Exec (World Vm α : Type) := Program (State World Vm) α

variable {World Vm : Type}

def ask (question : World → α × World) : Exec World Vm α :=
  modifyGet fun s => ((question s.world).1,{ s with world := (question s.world).2 })

def asMillisecond (timestamp : Int) : Int := timestamp.tdiv 1000000

def emit (host : Host World) (kind : EventKind) : Exec World Vm Unit := do
  let timestamp ← ask host.now
  modify fun s => { s with sink := s.sink ++ [⟨asMillisecond timestamp,kind⟩] }

inductive RuntimeEvent where
  | shStarted (cmd : String)
  | shFinished (exit : Int)
  deriving DecidableEq, Repr

def RuntimeEvent.kind (jobId : String) : RuntimeEvent → EventKind
  | .shStarted cmd => .shStarted jobId cmd
  | .shFinished exit => .shFinished jobId exit

-- The callback that `run_pipeline` installs.
def eventCallback (host : Host World) (event : RuntimeEvent) : Exec World Vm Unit := do
  let jobId ← expecting "runtime fires sh events only inside enter_job/leave_job" (← get).currentJob
  emit host (event.kind jobId)

def joinPath (dir name : String) : String := dir ++ "/" ++ name

-- Signal-killed processes have no exit code; they count as -1.
def Cmd.run (host : Host World) (cmd : Cmd) (opts : ShOpts) (cwd : String) : Exec World Vm (Except String ShOutput) := do
  let output ← ask (host.output cmd opts cwd)
  return output.map fun (code,stdout,stderr) => ⟨code.getD (-1),stdout,stderr,cmd.display⟩

def criLog (output : ShOutput) (timestamp : String) : List String :=
  (lines output.stdout).map (timestamp ++ " stdout F " ++ ·) ++ (lines output.stderr).map (timestamp ++ " stderr F " ++ ·)

def ShOutput.redacted (output : ShOutput) (registry : SecretRegistry) : ShOutput :=
  ⟨output.exit,redact output.stdout registry,redact output.stderr registry,redact output.cmd registry⟩

def Runtime.record (self : Runtime) (jobId : String) (recorded : ShOutput) (timing : Int × Int) : Runtime :=
  { self with
    outputs := self.outputs.insert jobId ((self.outputs.lookup jobId).getD [] ++ [recorded])
    shTimings := self.shTimings.insert jobId ((self.shTimings.lookup jobId).getD [] ++ [timing]) }

-- The log of the call and its record, after the process has exited.
def recordSh (host : Host World) (jobId : String) (output : ShOutput) (startedAt finishedAt : Int) :
    Exec World Vm (Except RuntimeError Unit) := do
  let s ← get
  let recorded := ShOutput.redacted output s.runtime.registry
  let jobDir := joinPath (joinPath s.runtime.logDir "jobs") jobId
  match ← ask (host.createDirAll jobDir) with
  | .error source => return .error (.logWriteFailed jobDir source)
  | .ok () =>
    let n := ((s.runtime.outputs.lookup jobId).getD []).length + 1
    let logPath := joinPath jobDir ("sh-" ++ toString n ++ ".log")
    match ← ask (host.writeFile logPath (criLog recorded (host.showTimestamp startedAt))) with
    | .error source => return .error (.logWriteFailed logPath source)
    | .ok () =>
      modify fun s => { s with runtime := s.runtime.record jobId recorded (startedAt,finishedAt) }
      return .ok ()

def Runtime.sh (host : Host World) (cmd : Cmd) (opts : ShOpts) : Exec World Vm (Except RuntimeError ShOutput) := do
  let startedAt ← ask host.now
  let s ← get
  let currentJob := s.runtime.currentJob
  if currentJob.isSome then
    eventCallback host (.shStarted (redact cmd.display s.runtime.registry))
  match ← Cmd.run host cmd opts s.runtime.workspace with
  | .error source => return .error (.commandSpawnFailed cmd.program s.runtime.workspace source)
  | .ok output =>
    let finishedAt ← ask host.now
    match currentJob with
    | none => return .ok output
    | some jobId =>
      eventCallback host (.shFinished output.exit)
      let recorded ← recordSh host jobId output startedAt finishedAt
      return recorded.map fun _ => output

def Runtime.secret (host : Host World) (name : String) : Exec World Vm (Except RuntimeError String) := do
  let sources ← ask host.sources
  let s ← get
  let (value,registry) := s.runtime.registry.resolve sources name
  modify fun s => { s with runtime := { s.runtime with registry := registry } }
  return value.mapError .secret

def outsideJob : String :=
  "runtime accessed outside a job — primitives are only available while a run-fn is executing"

-- The `jobs` primitive. A value that is not recorded reads as nil.
def Runtime.jobs (name : String) : Exec World Vm (Except String (Option PushOutputs)) := do
  let s ← get
  match s.runtime.currentJob with
  | none => return .error outsideJob
  | some calling =>
    let view ← expecting ("no inputs view for calling job '" ++ calling ++ "'") (s.runtime.inputs.lookup calling)
    match view.lookup name with
    | some value => return .ok value
    | none =>
      if name = calling then return .error ("Job '" ++ calling ++ "' cannot read its own outputs")
      else return .error ("Job '" ++ calling ++ "' cannot read outputs from '" ++ name ++ "' — not in transitive inputs")

def Runtime.enterJob (name : String) : Exec World Vm Unit := do
  let s ← get
  asserting ("enter_job called with unknown job id '" ++ name ++ "'") (s.runtime.inputs.lookup name).isSome
  modify fun s => { s with runtime := { s.runtime with currentJob := some name } }

def Runtime.leaveJob : Exec World Vm Unit :=
  modify fun s => { s with runtime := { s.runtime with currentJob := none } }

def Runtime.new (pipeline : Pipeline petgraph Vm) (registry : SecretRegistry) (runMeta : RunMeta)
    (workspace logDir : String) : Runtime :=
  let push : PushOutputs := ⟨runMeta.sha,runMeta.ref,runMeta.pushedAt⟩
  let view (names : List String) := names.map fun name => (name,if name = "quire/push" then some push else none)
  ⟨registry,pipeline.transitiveInputs.map fun (jobId,reachable) => (jobId,view reachable),none,∅,∅,logDir,workspace⟩

-- A run-fn in the hands of the VM: each of its calls reaches the runtime.
def perform {Failure : Type} (host : Host World) : Conduct Vm Failure → Exec World Vm (Except Failure Unit)
  | .done vm result => do
    modify fun s => { s with vm := vm }
    return result
  | .sh cmd opts next => do perform host (next (← Runtime.sh host cmd opts))
  | .secret name next => do perform host (next (← Runtime.secret host name))
  | .jobs name next => do perform host (next (← Runtime.jobs name))

end Quire.CiRuntime
