import Quire.RunProtocol

namespace Quire.RunRequests
open Secret Primitives JobPipeline JobOrder Panicking RunEvents CiRuntime RunPipeline RunTrace RunProtocol
variable {World Vm : Type}

-- What a run-fn asks the runtime for.
inductive Request where
  | sh (cmd : Cmd) (opts : ShOpts)
  | secret (name : String)
  | jobs (name : String)
  deriving DecidableEq, Repr

-- A run-fn called in the first state makes the request in the second.
inductive Asks {Failure : Type} (host : Host World) : Conduct Vm Failure → State World Vm → Request → State World Vm → Prop
  | sh : Asks host (.sh cmd opts next) s (.sh cmd opts) s
  | secret : Asks host (.secret name next) s (.secret name) s
  | jobs : Asks host (.jobs name next) s (.jobs name) s
  | afterSh (ran : exec (Runtime.sh host cmd opts) s = (.ok answer,m)) (later : Asks host (next answer) m request t) :
      Asks host (.sh cmd opts next) s request t
  | afterSecret (ran : exec (Runtime.secret host name) s = (.ok answer,m)) (later : Asks host (next answer) m request t) :
      Asks host (.secret name next) s request t
  | afterJobs (ran : exec (Runtime.jobs name) s = (.ok answer,m)) (later : Asks host (next answer) m request t) :
      Asks host (.jobs name next) s request t

def RunFnAsks (host : Host World) (runFn : RunFn Vm) (s : State World Vm) (request : Request) (t : State World Vm) : Prop :=
  match runFn with
  | .lua call => Asks host (call s.vm) s request t
  | .rust call => Asks host (call s.vm) s request t

-- The loop over the jobs comes to a job.
inductive Arrives (env : Env World Vm) (pipeline : Pipeline env.petgraph Vm) :
    List String → State World Vm → String → State World Vm → Prop
  | here : Arrives env pipeline (jobId :: rest) s jobId s
  | next (ran : exec (runJob env pipeline first) s = (.ok (.ok ()),m)) (later : Arrives env pipeline rest m jobId t) :
      Arrives env pipeline (first :: rest) s jobId t

-- In a run of the pipeline, the run-fn of a job makes a request.
structure Asked (env : Env World Vm) (pipeline : Pipeline env.petgraph Vm) (registry : SecretRegistry) (started : World)
    (jobId : String) (request : Request) (s : State World Vm) : Prop where
  run : ∃ jobs vm turn job, pipeline.jobs = some jobs ∧ env.lua.install pipeline.fennel = some vm ∧
    Arrives env pipeline (jobs.map Job.id) (ready env pipeline registry started vm) jobId turn ∧
    env.lua.runtimeTable turn.vm = true ∧ pipeline.job jobId = some job ∧
    RunFnAsks env.host job.runFn (entered env.host jobId turn) request s

variable {inputs : List (String × List (String × Option PushOutputs))} {s t : State World Vm}

theorem within_ran {program : Exec World Vm α} {shape : List Event → Prop} (within : Within inputs jobId program shape)
    (inside : Inside inputs jobId s) (ran : exec program s = (.ok value,t)) : Inside inputs jobId t := by
  obtain ⟨other,m,_,same,_,_,kept⟩ := within s inside
  cases ran.symm.trans same
  exact kept

-- Between its requests a run-fn stays in the window of its job.
theorem asks_inside {Failure : Type} {host : Host World} {conduct : Conduct Vm Failure}
    (viewed : (inputs.lookup jobId).isSome = true) (asks : Asks host conduct s request t) (inside : Inside inputs jobId s) :
    Inside inputs jobId t := by
  induction asks with
  | sh | secret | jobs => exact inside
  | afterSh ran _ ih => exact ih (within_ran (sh_adds host _ _) inside ran)
  | afterSecret ran _ ih => exact ih (within_ran (secret_quiet host _) inside ran)
  | afterJobs ran _ ih => exact ih (within_ran (jobs_quiet viewed _) inside ran)

theorem runFnAsks_inside {host : Host World} {runFn : RunFn Vm} (viewed : (inputs.lookup jobId).isSome = true)
    (asks : RunFnAsks host runFn s request t) (inside : Inside inputs jobId s) : Inside inputs jobId t := by
  cases runFn with
  | lua call | rust call => exact asks_inside viewed asks inside

variable {env : Env World Vm} {pipeline : Pipeline env.petgraph Vm}

theorem runJob_inputs (known : Known pipeline s.runtime.inputs (jobId :: rest))
    (ran : exec (runJob env pipeline jobId) s = (.ok result,t)) : t.runtime.inputs = s.runtime.inputs := by
  obtain ⟨⟨job,found⟩,viewed⟩ := known jobId List.mem_cons_self
  by_cases installed : env.lua.runtimeTable s.vm = true
  · obtain ⟨other,m,_,same,_,kept,_⟩ := runJob_adds found viewed s ⟨rfl,installed⟩
    cases ran.symm.trans same
    exact kept
  · obtain ⟨m,_,stopped,_⟩ := runJob_stops found viewed installed
    cases ran.symm.trans stopped

theorem arrives_inputs (arrives : Arrives env pipeline ids s jobId t) (known : Known pipeline s.runtime.inputs ids) :
    jobId ∈ ids ∧ t.runtime.inputs = s.runtime.inputs := by
  induction arrives with
  | here => exact ⟨List.mem_cons_self,rfl⟩
  | next ran _ ih =>
    have same := runJob_inputs known ran
    obtain ⟨member,kept⟩ := ih (same ▸ known.rest)
    exact ⟨List.mem_cons_of_mem _ member,kept.trans same⟩

-- A request is made by a job of the pipeline, in its window.
theorem Asked.inside (asked : Asked env pipeline registry started jobId request s)
    (documented : Documented env.petgraph pipeline.graph.shape) :
    (∃ job ∈ pipeline.graph.jobs, job.id = jobId) ∧
      Inside (Runtime.new pipeline registry env.runMeta env.workspace env.logDir).inputs jobId s := by
  obtain ⟨jobs,vm,turn,job,sorted,_,arrives,_,_,asks⟩ := asked.run
  obtain ⟨others,same,ordered⟩ := jobs_order documented
  cases sorted.symm.trans same
  have known := order_known ordered registry started vm
  obtain ⟨member,inputs⟩ := arrives_inputs arrives known
  exact ⟨(ordered.members jobId).mp member,runFnAsks_inside (known jobId member).2 asks ⟨rfl,rfl,inputs⟩⟩

end Quire.RunRequests
