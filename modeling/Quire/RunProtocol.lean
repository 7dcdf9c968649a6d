import Mathlib.Tactic.IntervalCases
import Quire.RunStreams
import Quire.RunTrace

namespace Quire.RunProtocol
open Relation Secret Primitives JobPipeline JobOrder Panicking RunEvents RunStreams CiRuntime RunPipeline RunTrace
variable {World Vm : Type} {env : Env World Vm} {pipeline : Pipeline env.petgraph Vm}

-- The loop runs jobs up to the first one that fails.
inductive Stopped : List String → List JobRun → Option (String × JobError) → Prop where
  | done : Stopped [] [] none
  | failed : run.id = jobId → run.outcome = .failed → Stopped (jobId :: rest) [run] (some error)
  | next {run : JobRun} {runs : List JobRun} : run.id = jobId → run.outcome = .succeeded → Stopped rest runs failedJob →
      Stopped (jobId :: rest) (run :: runs) failedJob

theorem Stopped.follows (stopped : Stopped ids runs failedJob) (finishedAt : Int) :
    Follows ids ⟨runs,runOutcome failedJob,finishedAt⟩ := by
  induction stopped with
  | done => exact ⟨by simp,by simp,by simp [runOutcome],fun _ => rfl⟩
  | failed same outcome => exact ⟨by simp [same],by simp,by simp [runOutcome,outcome],by simp [runOutcome]⟩
  | @next jobId rest failedJob run runs same outcome later ih =>
    obtain ⟨front,earlier,verdict,whole⟩ := ih
    refine ⟨?_,?_,?_,?_⟩
    · simpa [same] using front
    · intro other member
      cases runs with
      | nil => simp at member
      | cons first tail =>
        rcases List.mem_cons.mp member with rfl | member
        · exact outcome
        · exact earlier other member
    · rw [verdict]
      cases runs with
      | nil => simp [outcome]
      | cons first tail => simp [List.getLast?_cons_cons]
    · intro fine
      simp [same,whole fine]

-- In every job that the loop enters, the VM still has its runtime table.
def KeepsTable (env : Env World Vm) (pipeline : Pipeline env.petgraph Vm) : List String → State World Vm → Prop
  | [],_ => True
  | jobId :: rest,s => env.lua.runtimeTable s.vm = true ∧
      ∀ t, exec (runJob env pipeline jobId) s = (.ok (.ok ()),t) → KeepsTable env pipeline rest t

-- Each id of the order is a job of the pipeline and has a view of its inputs.
def Known (pipeline : Pipeline env.petgraph Vm) (inputs : List (String × List (String × Option PushOutputs)))
    (ids : List String) : Prop :=
  ∀ jobId ∈ ids, (∃ job, pipeline.job jobId = some job) ∧ (inputs.lookup jobId).isSome = true

theorem Known.rest (known : Known pipeline inputs (jobId :: ids)) : Known pipeline inputs ids :=
  fun other member => known other (List.mem_cons_of_mem _ member)

theorem runJobs_kept {s : State World Vm} (known : Known pipeline s.runtime.inputs ids) (kept : KeepsTable env pipeline ids s) :
    ∃ failedJob t runs, exec (runJobs env pipeline ids) s = (.ok failedJob,t) ∧
      t.sink = s.sink ++ runs.flatMap JobRun.events ∧ Stopped ids runs failedJob := by
  induction ids generalizing s with
  | nil => exact ⟨none,s,[],rfl,(List.append_nil _).symm,.done⟩
  | cons jobId rest ih =>
    obtain ⟨installed,later⟩ := kept
    obtain ⟨⟨job,found⟩,viewed⟩ := known jobId List.mem_cons_self
    obtain ⟨result,m,_,ran,logged,same,run,rfl,named,outcome⟩ := runJob_adds found viewed s ⟨rfl,installed⟩
    rw [runJobs,exec_bind_ok ran]
    rcases result with error | ⟨⟨⟩⟩
    · exact ⟨_,m,[run],rfl,by simpa using logged,.failed named outcome⟩
    · obtain ⟨failedJob,t,runs,ended,extended,stopped⟩ := ih (same ▸ known.rest) (later m ran)
      refine ⟨failedJob,t,run :: runs,ended,?_,.next named outcome stopped⟩
      rw [extended,logged,List.flatMap_cons,List.append_assoc]

theorem runJobs_broken {s : State World Vm} (known : Known pipeline s.runtime.inputs ids)
    (broken : ¬ KeepsTable env pipeline ids s) :
    ∃ message t, ∃ runs : List JobRun, ∃ atMs jobId, exec (runJobs env pipeline ids) s = (.error message,t) ∧
      t.sink = s.sink ++ runs.flatMap JobRun.events ++ [⟨atMs,.jobStarted jobId⟩] ∧
      runs.map JobRun.id ++ [jobId] <+: ids := by
  induction ids generalizing s with
  | nil => exact absurd trivial broken
  | cons jobId rest ih =>
    obtain ⟨⟨job,found⟩,viewed⟩ := known jobId List.mem_cons_self
    by_cases installed : env.lua.runtimeTable s.vm = true
    · obtain ⟨m,ran,broken⟩ : ∃ m, exec (runJob env pipeline jobId) s = (.ok (.ok ()),m) ∧ ¬ KeepsTable env pipeline rest m := by
        by_contra fine
        exact broken ⟨installed,fun m ran => by_contra fun broken => fine ⟨m,ran,broken⟩⟩
      obtain ⟨result,_,_,again,logged,same,run,rfl,named,_⟩ := runJob_adds found viewed s ⟨rfl,installed⟩
      cases ran.symm.trans again
      obtain ⟨message,t,runs,atMs,last,ended,extended,front⟩ := ih (same ▸ known.rest) broken
      refine ⟨message,t,run :: runs,atMs,last,(exec_bind_ok ran).trans ended,?_,by simpa [named] using front⟩
      rw [extended,logged,List.flatMap_cons,List.append_assoc s.sink]
    · obtain ⟨t,atMs,ended,logged⟩ := runJob_stops found viewed installed
      exact ⟨_,t,[],atMs,jobId,exec_bind_error ended,by simpa using logged,by simp⟩

def ready (env : Env World Vm) (pipeline : Pipeline env.petgraph Vm) (registry : SecretRegistry) (world : World) (vm : Vm) :
    State World Vm :=
  { start env pipeline registry world with vm := vm }

-- The install finds package.loaded["quire.ci"].runtime and can fill it, and no
-- run-fn that another job follows takes it away.
def KeepsRuntime (env : Env World Vm) (pipeline : Pipeline env.petgraph Vm) (registry : SecretRegistry) (world : World)
    (order : List String) : Prop :=
  ∃ vm, env.lua.install pipeline.fennel = some vm ∧ KeepsTable env pipeline order (ready env pipeline registry world vm)

theorem order_known (ordered : Order pipeline order) (registry : SecretRegistry) (world : World) (vm : Vm) :
    Known pipeline (ready env pipeline registry world vm).runtime.inputs order := by
  intro jobId member
  have job := (ordered.members jobId).mp member
  obtain ⟨names,entry⟩ := transitiveInputs_keys job
  refine ⟨job_found job,List.lookup_isSome_iff.mpr ?_⟩
  exact ⟨_,List.mem_map_of_mem entry,beq_self_eq_true _⟩

theorem exec_execute (installed : env.lua.install pipeline.fennel = some vm) :
    exec (execute env pipeline order) (start env pipeline registry world) =
      exec (runJobs env pipeline order >>= fun failedJob => emit env.host (.runFinished (runOutcome failedJob)))
        (ready env pipeline registry world vm) := by
  rw [execute,exec_bind_ok (exec_get _),start,installed]
  rfl

theorem execute_kept (ordered : Order pipeline order) (kept : KeepsRuntime env pipeline registry world order) :
    ∃ t stream, exec (execute env pipeline order) (start env pipeline registry world) = (.ok (),t) ∧
      t.sink = RunStream.events stream ∧ Follows order stream := by
  obtain ⟨vm,installed,kept⟩ := kept
  obtain ⟨failedJob,t,runs,ran,logged,stopped⟩ := runJobs_kept (order_known ordered registry world vm) kept
  have ended := ((exec_execute installed).trans (exec_bind_ok ran)).trans (exec_emit _ _ t)
  refine ⟨_,⟨runs,runOutcome failedJob,asMillisecond (env.host.now t.world).1⟩,ended,?_,stopped.follows _⟩
  rw [logged]
  rfl

-- A run that panics has shown nothing after the start of some job.
theorem execute_broken (ordered : Order pipeline order) (broken : ¬ KeepsRuntime env pipeline registry world order) :
    ∃ message t, exec (execute env pipeline order) (start env pipeline registry world) = (.error message,t) ∧
      (t.sink = [] ∨ ∃ runs : List JobRun, ∃ atMs jobId,
        t.sink = runs.flatMap JobRun.events ++ [⟨atMs,.jobStarted jobId⟩] ∧
        runs.map JobRun.id ++ [jobId] <+: order) := by
  cases installed : env.lua.install pipeline.fennel with
  | none =>
    refine ⟨"install runtime on Lua VM",start env pipeline registry world,?_,.inl rfl⟩
    rw [execute,exec_bind_ok (exec_get _),start,installed]
    rfl
  | some vm =>
    have lost : ¬ KeepsTable env pipeline order (ready env pipeline registry world vm) := fun kept =>
      broken ⟨vm,installed,kept⟩
    obtain ⟨message,t,runs,atMs,jobId,ran,logged,front⟩ := runJobs_broken (order_known ordered registry world vm) lost
    refine ⟨message,t,?_,.inr ⟨runs,atMs,jobId,logged,front⟩⟩
    rw [exec_execute installed,exec_bind_error ran]

theorem compile_push {petgraph : Petgraph} {pipeline : Pipeline petgraph Vm}
    (compiled : compile petgraph lua source name = .ok pipeline) :
    builtinPushJob ∈ pipeline.graph.jobs := by
  unfold compile at compiled
  split at compiled
  · cases compiled
  · split at compiled
    · cases compiled
    · dsimp only at compiled
      split at compiled
      · cases compiled
      · cases compiled
        simp [buildGraph]

theorem compileAt_push (compiled : compileAt env world = (.ok pipeline,started)) :
    builtinPushJob ∈ pipeline.graph.jobs := by
  simp only [compileAt] at compiled
  split at compiled
  · cases compiled
  · exact compile_push (Prod.mk.inj compiled).1

-- A compiled pipeline is never empty, so its jobs are executed.
theorem runPipeline_compiled {registry : SecretRegistry} (compiled : compileAt env world = (.ok pipeline,started))
    (sorted : pipeline.jobs.map (·.map Job.id) = some order) (ordered : Order pipeline order) :
    runPipeline env registry world =
      ((exec (execute env pipeline order) (start env pipeline registry started)).1,
        (exec (execute env pipeline order) (start env pipeline registry started)).2.sink) := by
  obtain ⟨jobs,listed,rfl⟩ := Option.map_eq_some_iff.mp sorted
  have push := (ordered.members "quire/push").mpr ⟨_,compileAt_push compiled,rfl⟩
  have nonempty : jobs.map Job.id ≠ [] := List.ne_nil_of_mem push
  simp only [runPipeline,compiled,listed,nonempty,if_false]

-- The process ends well exactly when it never misses its runtime table.
theorem runPipeline_ok_iff {registry : SecretRegistry} (compiled : compileAt env world = (.ok pipeline,started))
    (sorted : pipeline.jobs.map (·.map Job.id) = some order) (ordered : Order pipeline order) :
    (runPipeline env registry world).1 = .ok () ↔ KeepsRuntime env pipeline registry started order := by
  rw [runPipeline_compiled compiled sorted ordered]
  constructor
  · intro fine
    by_contra broken
    obtain ⟨message,t,ran,_⟩ := execute_broken ordered broken
    rw [ran] at fine
    cases fine
  · intro kept
    obtain ⟨t,stream,ran,_⟩ := execute_kept ordered kept
    rw [ran]

theorem event_protocol_iff (env : Env World Vm) (registry : SecretRegistry) (world started : World)
    (pipeline : Pipeline env.petgraph Vm) (compiled : compileAt env world = (.ok pipeline,started))
    (documented : Documented env.petgraph pipeline.graph.shape) :
    ∃ order, pipeline.jobs.map (·.map Job.id) = some order ∧ Order pipeline order ∧
      (Protocol pipeline order (runPipeline env registry world).2 ↔ KeepsRuntime env pipeline registry started order) := by
  obtain ⟨jobs,listed,ordered⟩ := jobs_order documented
  have sorted : pipeline.jobs.map (·.map Job.id) = some (jobs.map Job.id) := congrArg _ listed
  refine ⟨_,sorted,ordered,?_⟩
  rw [runPipeline_compiled compiled sorted ordered]
  by_cases kept : KeepsRuntime env pipeline registry started (jobs.map Job.id)
  · obtain ⟨t,stream,ran,shown,follows⟩ := execute_kept ordered kept
    rw [ran]
    refine iff_of_true ?_ kept
    rw [shown]
    exact protocol_of_follows ordered follows
  · obtain ⟨message,t,ran,shown⟩ := execute_broken ordered kept
    rw [ran]
    refine iff_of_false (fun protocol => ?_) kept
    obtain ⟨earlier,finishedAt,outcome,ended⟩ := protocol_ends protocol
    rcases shown with none | ⟨runs,atMs,jobId,last,_⟩
    · simp [none] at ended
    · have same := (List.append_inj' (last.symm.trans ended) rfl).2
      cases same

def quietHost : Host Unit where
  now _ := (0,())
  showTimestamp _ := ""
  readToString _ _ := (.ok "",())
  output _ _ _ _ := (.ok (some 0,"",""),())
  createDirAll _ _ := (.ok (),())
  writeFile _ _ _ := (.ok (),())
  sources _ := (⟨fun _ => .error "",fun name => .error (.unknownSecret name)⟩,())

-- A VM is here whether its runtime table is still in place. Job a makes one
-- call or two.
def callTrue (left twice : Bool) : Conduct Bool String :=
  let last : Conduct Bool String := .sh (.shell "true") ⟨[]⟩ fun _ => .done left (.ok ())
  if twice then .sh (.shell "true") ⟨[]⟩ fun _ => last else last

def twoJobs (left twice : Bool) : Lua Bool where
  new := .ok true
  eval vm _ _ := .ok ([.job "a" ["quire/push"] (fun _ => callTrue left twice) 1,.job "b" ["a"] (fun vm => .done vm (.ok ())) 2],vm)
  install vm := if vm then some vm else none
  runtimeTable vm := vm

def chain : Digraph := ⟨3,[(2,0),(0,1)]⟩

def chainPetgraph : Petgraph where
  tarjanScc _ := [[1],[0],[2]]
  toposort _ := some [2,0,1]
  bfs _ node := [[0,2],[1,0,2],[2]].getD node []

def twoJobsEnv (left twice : Bool) : Env Unit Bool :=
  ⟨quietHost,twoJobs left twice,chainPetgraph,"/work","/logs",⟨"4b825dc","refs/heads/main","2026-05-06T12:00:00Z"⟩⟩

theorem twoJobs_compiles (left twice : Bool) : ∃ pipeline, compileAt (twoJobsEnv left twice) () = (.ok pipeline,()) ∧
    pipeline.graph.shape = chain := by
  have shape : (compileAt (twoJobsEnv left twice) ()).1.toOption.map (·.graph.shape) = some chain := by
    cases left <;> cases twice <;> decide +kernel
  rcases compiled : compileAt (twoJobsEnv left twice) () with ⟨error | pipeline,⟨⟩⟩
  · rw [compiled] at shape; cases shape
  · rw [compiled] at shape
    exact ⟨pipeline,rfl,Option.some.inj shape⟩

-- The chain is 2, 0, 1: one node reaches another as their positions say.
def chainPosition (node : Nat) : Nat := [1,2,0].getD node 3

theorem chain_edge (edge : chain.Edge a b) : (a = 2 ∧ b = 0) ∨ (a = 0 ∧ b = 1) := by
  simpa [chain,Digraph.Edge] using edge

theorem chain_step (edge : chain.Edge a b) : a < 3 ∧ b < 3 ∧ chainPosition a < chainPosition b := by
  rcases chain_edge edge with ⟨rfl,rfl⟩ | ⟨rfl,rfl⟩ <;> decide

theorem chain_forward (path : ReflTransGen chain.Edge a b) : a = b ∨ (a < 3 ∧ b < 3 ∧ chainPosition a < chainPosition b) := by
  induction path with
  | refl => exact .inl rfl
  | tail path edge ih =>
    obtain ⟨boundLeft,boundRight,later⟩ := chain_step edge
    rcases ih with rfl | ⟨bound,_,before⟩
    · exact .inr ⟨boundLeft,boundRight,later⟩
    · exact .inr ⟨bound,boundRight,before.trans later⟩

theorem chain_reaches (boundA : a < 3) (boundB : b < 3) :
    ReflTransGen chain.Edge a b ↔ chainPosition a ≤ chainPosition b := by
  have first : chain.Edge 2 0 := List.mem_cons_self
  have second : chain.Edge 0 1 := List.mem_cons_of_mem _ List.mem_cons_self
  constructor
  · intro path
    rcases chain_forward path with rfl | ⟨_,_,before⟩
    · exact Nat.le_refl _
    · exact before.le
  · intro before
    interval_cases a <;> interval_cases b
    · exact .refl
    · exact .single second
    · exact absurd before (by decide)
    · exact absurd before (by decide)
    · exact .refl
    · exact absurd before (by decide)
    · exact .single first
    · exact .head first (.single second)
    · exact .refl

theorem chain_documented : Documented chainPetgraph chain where
  tarjanScc := by
    intro a b boundA boundB
    rw [chain_reaches boundA boundB,chain_reaches boundB boundA]
    change a < 3 at boundA
    change b < 3 at boundB
    interval_cases a <;> interval_cases b <;> decide
  toposort := by
    intro _
    refine ⟨[2,0,1],rfl,by decide,fun a => ?_,?_⟩
    · change a ∈ [2,0,1] ↔ a < 3
      simp
      omega
    · intro earlier b later split a edge
      rcases chain_edge edge with ⟨rfl,rfl⟩ | ⟨rfl,rfl⟩
      · cases earlier with
        | nil => simp at split
        | cons first rest => simp at split; simp [← split.1]
      · rcases earlier with _ | ⟨first,_ | ⟨second,rest⟩⟩
        · simp at split
        · simp at split
        · simp at split; simp [← split.2.1]
  bfs := by
    intro a b boundA
    change a < 3 at boundA
    rw [reversed_path]
    by_cases boundB : b < 3
    · rw [chain_reaches boundB boundA]
      interval_cases a <;> interval_cases b <;> decide
    · have unlisted : b ∉ chainPetgraph.bfs chain.reversed a := by
        intro listed
        interval_cases a <;> simp [chainPetgraph] at listed <;> omega
      apply iff_of_false unlisted
      intro path
      rcases chain_forward path with rfl | ⟨bound,_⟩ <;> omega

theorem twoJobs_end (twice : Bool) : (runPipeline (twoJobsEnv true twice) SecretRegistry.new ()).1 = .ok () := by
  have ended : (runPipeline (twoJobsEnv true twice) SecretRegistry.new ()).1.isOk = true := by
    cases twice <;> decide +kernel
  cases result : (runPipeline (twoJobsEnv true twice) SecretRegistry.new ()).1 with
  | error message => rw [result] at ended; cases ended
  | ok value => rfl

theorem event_protocol_two_jobs : ∃ (pipeline : Pipeline (twoJobsEnv true false).petgraph Bool) (order : List String),
    pipeline.jobs.map (·.map Job.id) = some order ∧ Order pipeline order ∧
      Protocol pipeline order (runPipeline (twoJobsEnv true false) SecretRegistry.new ()).2 := by
  obtain ⟨pipeline,compiled,shape⟩ := twoJobs_compiles true false
  obtain ⟨order,sorted,ordered,protocol⟩ := event_protocol_iff (twoJobsEnv true false) SecretRegistry.new () () pipeline compiled
    (shape ▸ chain_documented)
  exact ⟨pipeline,order,sorted,ordered,protocol.mpr ((runPipeline_ok_iff compiled sorted ordered).mp (twoJobs_end false))⟩

-- Job a takes the runtime table away, and the process dies in job b.
theorem table_taken_away : ¬ ∀ (env : Env Unit Bool) (registry : SecretRegistry) (world started : Unit)
    (pipeline : Pipeline env.petgraph Bool) (order : List String), compileAt env world = (.ok pipeline,started) →
    Documented env.petgraph pipeline.graph.shape → pipeline.jobs.map (·.map Job.id) = some order →
    Protocol pipeline order (runPipeline env registry world).2 := by
  intro claimed
  obtain ⟨pipeline,compiled,shape⟩ := twoJobs_compiles false false
  have documented : Documented (twoJobsEnv false false).petgraph pipeline.graph.shape := shape ▸ chain_documented
  obtain ⟨jobs,listed,_⟩ := jobs_order documented
  have protocol := claimed (twoJobsEnv false false) SecretRegistry.new () () pipeline (jobs.map Job.id) compiled documented
    (congrArg _ listed)
  obtain ⟨earlier,finishedAt,outcome,ended⟩ := protocol_ends protocol
  have last : (runPipeline (twoJobsEnv false false) SecretRegistry.new ()).2.getLast?.map Event.kind = some (.jobStarted "b") := by
    decide +kernel
  rw [ended] at last
  simp at last

end Quire.RunProtocol
