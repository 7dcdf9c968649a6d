import Quire.CiRuntime

namespace Quire.RunPipeline
open Secret Primitives JobPipeline Panicking RunEvents CiRuntime

structure Env (World Vm : Type) where
  host : Host World
  lua : Lua Vm
  petgraph : Petgraph
  workspace : String
  logDir : String
  runMeta : RunMeta

inductive JobError where
  | fennel (source sourceName error : String)
  | runtime (error : RuntimeError)
  deriving DecidableEq, Repr

variable {World Vm : Type}

def compileAt (env : Env World Vm) (world : World) :
    Except CompileError (Pipeline env.petgraph Vm) × World :=
  let path := joinPath (joinPath env.workspace ".quire") "ci.fnl"
  match env.host.readToString path world with
  | (.error error,world) => (.error (.io error),world)
  | (.ok source,world) => (compile env.petgraph env.lua source path,world)

def callRunFn (env : Env World Vm) (pipeline : Pipeline env.petgraph Vm) :
    RunFn Vm → Exec World Vm (Except JobError Unit)
  | .lua call => do
    let result ← perform env.host (call (← get).vm)
    return result.mapError (.fennel pipeline.source pipeline.sourceName)
  | .rust call => do
    let result ← perform env.host (call (← get).vm)
    return result.mapError .runtime

def jobOutcome : Except JobError Unit → JobOutcome
  | .ok () => .succeeded
  | .error _ => .failed

-- One turn of the loop over the jobs.
def runJob (env : Env World Vm) (pipeline : Pipeline env.petgraph Vm) (jobId : String) :
    Exec World Vm (Except JobError Unit) := do
  modify fun s => { s with currentJob := some jobId }
  emit env.host (.jobStarted jobId)
  let job ← expecting "pipeline.jobs() returns valid ids" (pipeline.job jobId)
  Runtime.enterJob jobId
  let s ← get
  asserting "runtime table should be installed" (env.lua.runtimeTable s.vm)
  let result ← callRunFn env pipeline job.runFn
  Runtime.leaveJob
  emit env.host (.jobFinished jobId (jobOutcome result))
  modify fun s => { s with currentJob := none }
  return result

def runJobs (env : Env World Vm) (pipeline : Pipeline env.petgraph Vm) :
    List String → Exec World Vm (Option (String × JobError))
  | [] => pure none
  | jobId :: rest => do
    match ← runJob env pipeline jobId with
    | .error error => return some (jobId,error)
    | .ok () => runJobs env pipeline rest

def runOutcome (failedJob : Option (String × JobError)) : RunOutcome :=
  if failedJob.isSome then .pipelineFailure else .succeeded

def execute (env : Env World Vm) (pipeline : Pipeline env.petgraph Vm) (jobIds : List String) : Exec World Vm Unit := do
  let s ← get
  let vm ← expecting "install runtime on Lua VM" (env.lua.install s.vm)
  modify fun s => { s with vm := vm }
  let failedJob ← runJobs env pipeline jobIds
  emit env.host (.runFinished (runOutcome failedJob))

def start (env : Env World Vm) (pipeline : Pipeline env.petgraph Vm) (registry : SecretRegistry) (world : World) :
    State World Vm :=
  ⟨world,pipeline.fennel,Runtime.new pipeline registry env.runMeta env.workspace env.logDir,none,[]⟩

-- The stream of a run that ends before its first job.
def onlyFinished (env : Env World Vm) (outcome : RunOutcome) (world : World) : List Event :=
  [⟨asMillisecond (env.host.now world).1,.runFinished outcome⟩]

-- How the process ends, and the events it has handed to its sink by then.
def runPipeline (env : Env World Vm) (registry : SecretRegistry) (world : World) : Except String Unit × List Event :=
  match compileAt env world with
  | (.error _,world) => (.ok (),onlyFinished env .pipelineFailure world)
  | (.ok pipeline,world) =>
    match pipeline.jobs with
    | none => (.error "pipeline is validated as acyclic",[])
    | some jobs =>
      let jobIds := jobs.map Job.id
      if jobIds = [] then (.ok (),onlyFinished env .succeeded world)
      else
        let (ended,s) := exec (execute env pipeline jobIds) (start env pipeline registry world)
        (ended,s.sink)

end Quire.RunPipeline
