import Quire.LineFraming
import Quire.RunRequests

namespace Quire.RunWrites
open Text LineFraming Secret Primitives JobPipeline JobOrder Panicking RunEvents CiRuntime RunPipeline RunTrace RunProtocol RunRequests
variable {World Vm : Type}

-- What a run says on stderr. A panic says its message there.
inductive Report where
  | notCompiled (error : CompileError)
  | shortSecret (name : String) (length : Nat)
  | runFnFailed (jobId : String) (error : JobError)
  | panicked (message : String)
  deriving DecidableEq, Repr

-- What a run lets out: a secret's value to a run-fn, an event to the sink, the
-- log of an sh call to its file, a report to stderr.
inductive Happening where
  | returned (value : String)
  | event (kind : EventKind)
  | log (path timestamp : String) (recorded : ShOutput)
  | stderr (report : Report)
  deriving DecidableEq, Repr

-- The log of a call, written once its process has exited.
def recordWrites (host : Host World) (jobId : String) (output : ShOutput) (startedAt : Int) (s : State World Vm) :
    List Happening :=
  let jobDir := joinPath (joinPath s.runtime.logDir "jobs") jobId
  match (host.createDirAll jobDir s.world).1 with
  | .error _ => []
  | .ok () =>
    let n := ((s.runtime.outputs.lookup jobId).getD []).length + 1
    [.log (joinPath jobDir ("sh-" ++ toString n ++ ".log")) (host.showTimestamp startedAt)
      (ShOutput.redacted output s.runtime.registry)]

-- `Runtime::sh` inside a job, from the state in which it is called.
def shWrites (host : Host World) (jobId : String) (cmd : Cmd) (opts : ShOpts) (s : State World Vm) : List Happening :=
  let (startedAt,world) := host.now s.world
  .event (.shStarted jobId (redact cmd.display s.runtime.registry)) ::
  match host.output cmd opts s.runtime.workspace (host.now world).2 with
  | (.error _,_) => []
  | (.ok (code,stdout,stderr),world) =>
    let output : ShOutput := ⟨code.getD (-1),stdout,stderr,cmd.display⟩
    .event (.shFinished jobId output.exit) ::
      recordWrites host jobId output startedAt { s with world := (host.now (host.now world).2).2 }

-- `Runtime::secret`. A short value is reported before it is returned.
def secretWrites (host : Host World) (name : String) (s : State World Vm) : List Happening :=
  match (s.runtime.registry.resolve (host.sources s.world).1 name).1 with
  | .error _ => []
  | .ok value =>
    if 8 ≤ value.utf8ByteSize then [.returned value] else [.stderr (.shortSecret name value.utf8ByteSize),.returned value]

-- What follows a program that ends without a panic.
def afterwards (ran : Except String α × State World Vm) (next : α → State World Vm → List Happening) : List Happening :=
  match ran with
  | (.ok value,t) => next value t
  | (.error _,_) => []

def performWrites {Failure : Type} (host : Host World) (jobId : String) : Conduct Vm Failure → State World Vm → List Happening
  | .done _ _,_ => []
  | .sh cmd opts next,s => shWrites host jobId cmd opts s ++
      afterwards (exec (Runtime.sh host cmd opts) s) fun answer t => performWrites host jobId (next answer) t
  | .secret name next,s => secretWrites host name s ++
      afterwards (exec (Runtime.secret host name) s) fun answer t => performWrites host jobId (next answer) t
  | .jobs name next,s =>
      afterwards (exec (Runtime.jobs name) s) fun answer t => performWrites host jobId (next answer) t

def runFnWrites (host : Host World) (jobId : String) (runFn : RunFn Vm) (s : State World Vm) : List Happening :=
  match runFn with
  | .lua call => performWrites host jobId (call s.vm) s
  | .rust call => performWrites host jobId (call s.vm) s

-- A turn of the loop, from the state before it.
def turnWrites (env : Env World Vm) (pipeline : Pipeline env.petgraph Vm) (jobId : String) (s : State World Vm) :
    List Happening :=
  .event (.jobStarted jobId) ::
  match pipeline.job jobId with
  | none => []
  | some job =>
    if env.lua.runtimeTable s.vm then
      runFnWrites env.host jobId job.runFn (entered env.host jobId s) ++
        afterwards (exec (callRunFn env pipeline job.runFn) (entered env.host jobId s)) fun result _ =>
          [.event (.jobFinished jobId (jobOutcome result))]
    else []

-- A failed job is reported once the loop is left.
def loopWrites (env : Env World Vm) (pipeline : Pipeline env.petgraph Vm) : List String → State World Vm → List Happening
  | [],_ => [.event (.runFinished .succeeded)]
  | jobId :: rest,s => turnWrites env pipeline jobId s ++
      match exec (runJob env pipeline jobId) s with
      | (.ok (.ok ()),t) => loopWrites env pipeline rest t
      | (.ok (.error error),_) => [.stderr (.runFnFailed jobId error),.event (.runFinished .pipelineFailure)]
      | (.error message,_) => [.stderr (.panicked message)]

def executeWrites (env : Env World Vm) (pipeline : Pipeline env.petgraph Vm) (registry : SecretRegistry) (jobIds : List String)
    (world : World) : List Happening :=
  match env.lua.install pipeline.fennel with
  | none => [.stderr (.panicked "install runtime on Lua VM")]
  | some vm => loopWrites env pipeline jobIds (ready env pipeline registry world vm)

def runWrites (env : Env World Vm) (registry : SecretRegistry) (world : World) : List Happening :=
  match compileAt env world with
  | (.error error,_) => [.stderr (.notCompiled error),.event (.runFinished .pipelineFailure)]
  | (.ok pipeline,world) =>
    match pipeline.jobs with
    | none => [.stderr (.panicked "pipeline is validated as acyclic")]
    | some jobs =>
      let jobIds := jobs.map Job.id
      if jobIds = [] then [.event (.runFinished .succeeded)]
      else executeWrites env pipeline registry jobIds world

def Happening.kind : Happening → Option EventKind
  | .event kind => some kind
  | _ => none

-- A view of the world that nothing but a log file changes.
structure Recorder (host : Host World) (Entry : Type) where
  entries : World → List Entry
  wrote : String → List String → List Entry
  now : ∀ world, entries (host.now world).2 = entries world
  output : ∀ cmd opts cwd world, entries (host.output cmd opts cwd world).2 = entries world
  createDirAll : ∀ path world, entries (host.createDirAll path world).2 = entries world
  sources : ∀ world, entries (host.sources world).2 = entries world
  writeFile : ∀ path content world, entries (host.writeFile path content world).2 = entries world ++ wrote path content

variable {Entry : Type} {host : Host World}

def Happening.entries (recorder : Recorder host Entry) : Happening → List Entry
  | .log path timestamp recorded => recorder.wrote path (criLog recorded timestamp)
  | _ => []

-- Between the states the sink took the events of the trace, and the files its logs.
structure Shows (recorder : Recorder host Entry) (trace : List Happening) (s t : State World Vm) : Prop where
  events : t.sink.map Event.kind = s.sink.map Event.kind ++ trace.filterMap Happening.kind
  files : recorder.entries t.world = recorder.entries s.world ++ trace.flatMap (Happening.entries recorder)

variable {recorder : Recorder host Entry} {s m t : State World Vm} {inputs : List (String × List (String × Option PushOutputs))}

theorem Shows.trans (first : Shows recorder trace s m) (later : Shows recorder more m t) : Shows recorder (trace ++ more) s t :=
  ⟨by rw [later.events,first.events,List.filterMap_append,List.append_assoc],
    by rw [later.files,first.files,List.flatMap_append,List.append_assoc]⟩

theorem shows_none (events : t.sink = s.sink) (files : recorder.entries t.world = recorder.entries s.world) :
    Shows recorder [] s t :=
  ⟨by rw [events]; exact (List.append_nil _).symm,by rw [files]; exact (List.append_nil _).symm⟩

theorem shows_log (events : t.sink = s.sink) (files : recorder.entries t.world =
    recorder.entries s.world ++ recorder.wrote path (criLog recorded timestamp)) :
    Shows recorder [.log path timestamp recorded] s t :=
  ⟨by rw [events]; exact (List.append_nil _).symm,by rw [files]; simp [Happening.entries]⟩

theorem emit_shows (recorder : Recorder host Entry) (kind : EventKind) (s : State World Vm) :
    Shows recorder [.event kind] s (exec (emit host kind) s).2 := by
  rw [exec_emit]
  exact ⟨by simp [Happening.kind],by simp [recorder.now,Happening.entries]⟩

theorem exec_eventCallback (pointer : s.currentJob = some jobId) (event : RuntimeEvent) :
    exec (eventCallback host event) s = exec (emit host (event.kind jobId)) s := by
  simp only [eventCallback,exec_bind,exec_get,pointer,expecting,exec_pure]

theorem recordSh_shows (recorder : Recorder host Entry) (jobId : String) (output : ShOutput) (startedAt finishedAt : Int) (s : State World Vm) :
    Shows recorder (recordWrites host jobId output startedAt s) s (exec (recordSh host jobId output startedAt finishedAt) s).2 := by
  have made := recorder.createDirAll (joinPath (joinPath s.runtime.logDir "jobs") jobId) s.world
  simp only [recordSh,recordWrites,exec_bind,exec_get,exec_ask]
  rcases dir : host.createDirAll (joinPath (joinPath s.runtime.logDir "jobs") jobId) s.world with ⟨error | ⟨⟩,world⟩
  · rw [dir] at made
    exact shows_none rfl made
  · rw [dir] at made
    dsimp only at made ⊢
    generalize joinPath (joinPath (joinPath s.runtime.logDir "jobs") jobId) _ = path
    have wrote := recorder.writeFile path (criLog (ShOutput.redacted output s.runtime.registry) (host.showTimestamp startedAt)) world
    rw [made] at wrote
    simp only [exec_bind,exec_ask]
    rcases file : host.writeFile path _ world with ⟨error | ⟨⟩,last⟩
    · rw [file] at wrote
      exact shows_log rfl wrote
    · rw [file] at wrote
      exact shows_log rfl wrote

-- The end of a call, after its process has exited.
theorem exited_shows (recorder : Recorder host Entry) (pointer : s.currentJob = some jobId) (output : ShOutput) (startedAt : Int)
    (answer : Except RuntimeError Unit → α) :
    Shows recorder (.event (.shFinished jobId output.exit) ::
        recordWrites host jobId output startedAt { s with world := (host.now (host.now s.world).2).2 }) s
      (exec (do
        let finishedAt ← ask host.now
        eventCallback host (.shFinished output.exit)
        let recorded ← recordSh host jobId output startedAt finishedAt
        return answer recorded) s).2 := by
  let finished : State World Vm := { s with world := (host.now s.world).2 }
  have waited : Shows recorder [] s finished := shows_none rfl (recorder.now s.world)
  have closed := emit_shows recorder (.shFinished jobId output.exit) finished
  have recorded := recordSh_shows recorder jobId output startedAt (host.now s.world).1
    (exec (emit host (.shFinished jobId output.exit)) finished).2
  have told : exec (eventCallback host (.shFinished output.exit)) finished = exec (emit host (.shFinished jobId output.exit)) finished :=
    exec_eventCallback (s := finished) pointer (.shFinished output.exit)
  rw [exec_bind_ok (exec_ask _ s),exec_bind_ok (told.trans (exec_emit _ _ _)),exec_bind_pure]
  exact (waited.trans closed).trans recorded

theorem sh_shows (recorder : Recorder host Entry) (inside : Inside inputs jobId s) (cmd : Cmd) (opts : ShOpts) :
    Shows recorder (shWrites host jobId cmd opts s) s (exec (Runtime.sh host cmd opts) s).2 := by
  let called : State World Vm := { s with world := (host.now s.world).2 }
  have begun : Shows recorder [] s called := shows_none rfl (recorder.now s.world)
  have shown := begun.trans (emit_shows recorder (.shStarted jobId (redact cmd.display s.runtime.registry)) called)
  rw [exec_emit] at shown
  have ran := recorder.output cmd opts s.runtime.workspace (host.now called.world).2
  simp only [Runtime.sh,exec_bind,exec_ask,exec_get,inside.cursor,Option.isSome_some,if_true]
  rw [exec_eventCallback (s := called) inside.pointer,exec_emit]
  simp only [Cmd.run,exec_bind,exec_ask,exec_pure,shWrites]
  rcases output : host.output cmd opts s.runtime.workspace (host.now called.world).2 with ⟨error | ⟨code,stdout,stderr⟩,world⟩
  · rw [output] at ran
    exact shown.trans (shows_none rfl ran)
  · rw [output] at ran
    let left : State World Vm := { s with
      world := world
      sink := s.sink ++ [⟨asMillisecond (host.now called.world).1,.shStarted jobId (redact cmd.display s.runtime.registry)⟩] }
    have exited := exited_shows recorder (s := left) inside.pointer ⟨code.getD (-1),stdout,stderr,cmd.display⟩
      (host.now s.world).1 fun recorded => recorded.map fun _ => (⟨code.getD (-1),stdout,stderr,cmd.display⟩ : ShOutput)
    have waited : Shows recorder [] { left with world := (host.now called.world).2 } left := shows_none rfl ran
    exact (shown.trans waited).trans exited

theorem exec_secret (name : String) (s : State World Vm) :
    exec (Runtime.secret host name) s =
      (.ok ((s.runtime.registry.resolve (host.sources s.world).1 name).1.mapError .secret),{ s with
        world := (host.sources s.world).2
        runtime := { s.runtime with registry := (s.runtime.registry.resolve (host.sources s.world).1 name).2 } }) := rfl

theorem secret_shows (recorder : Recorder host Entry) (name : String) (s : State World Vm) :
    Shows recorder (secretWrites host name s) s (exec (Runtime.secret host name) s).2 := by
  have quiet : Shows recorder [] s (exec (Runtime.secret host name) s).2 := shows_none rfl (recorder.sources s.world)
  unfold secretWrites
  split
  · exact quiet
  · split
    · exact ⟨quiet.events,quiet.files⟩
    · exact ⟨quiet.events,quiet.files⟩

-- The `jobs` primitive only reads.
theorem jobs_keeps (name : String) : Keeps (fun s => s) (Runtime.jobs name : Exec World Vm _) := by
  apply keeps_get
  intro now
  cases now.runtime.currentJob with
  | none => exact keeps_pure _
  | some calling =>
    apply keeps_bind (keeps_expecting _ _)
    intro view
    cases view.lookup name with
    | some value => exact keeps_pure _
    | none =>
      dsimp only
      split
      · exact keeps_pure _
      · exact keeps_pure _

theorem jobs_same (ran : exec (Runtime.jobs name) s = (answer,t)) : t = s := by
  have kept := jobs_keeps name s
  rwa [ran] at kept

-- A run-fn goes on with what a call answered it, in the state the call left.
theorem perform_rule {Failure : Type} {motive : Conduct Vm Failure → State World Vm → State World Vm → Prop}
    (viewed : (inputs.lookup jobId).isSome = true)
    (done : ∀ vm result s, motive (.done vm result) s (exec (perform host (.done vm result)) s).2)
    (sh : ∀ cmd opts next s answer m t, Inside inputs jobId s → exec (Runtime.sh host cmd opts) s = (.ok answer,m) →
      motive (next answer) m t → motive (.sh cmd opts next) s t)
    (secret : ∀ name next s answer m t, exec (Runtime.secret host name) s = (.ok answer,m) →
      motive (next answer) m t → motive (.secret name next) s t)
    (jobs : ∀ name next s answer t, exec (Runtime.jobs name) s = (.ok answer,s) →
      motive (next answer) s t → motive (.jobs name next) s t)
    (conduct : Conduct Vm Failure) (inside : Inside inputs jobId s) : motive conduct s (exec (perform host conduct) s).2 := by
  induction conduct generalizing s with
  | done vm result => exact done vm result s
  | sh cmd opts next ih =>
    obtain ⟨answer,m,_,ran,_,_,within⟩ := sh_adds host cmd opts s inside
    rw [perform,exec_bind_ok ran]
    exact sh cmd opts next s answer m _ inside ran (ih answer within)
  | secret name next ih =>
    obtain ⟨answer,m,_,ran,_,_,within⟩ := secret_quiet host name s inside
    rw [perform,exec_bind_ok ran]
    exact secret name next s answer m _ ran (ih answer within)
  | jobs name next ih =>
    obtain ⟨answer,m,_,ran,_,_,within⟩ := jobs_quiet viewed name s inside
    have same : m = s := jobs_same ran
    subst same
    rw [perform,exec_bind_ok ran]
    exact jobs name next m answer _ ran (ih answer within)

-- What a run-fn lets out is what its calls write, one after the other.
theorem perform_shows {Failure : Type} (recorder : Recorder host Entry) (viewed : (inputs.lookup jobId).isSome = true)
    (conduct : Conduct Vm Failure) (inside : Inside inputs jobId s) :
    Shows recorder (performWrites host jobId conduct s) s (exec (perform host conduct) s).2 := by
  refine perform_rule (motive := fun conduct s t => Shows recorder (performWrites host jobId conduct s) s t) viewed ?_ ?_ ?_ ?_
    conduct inside
  · intro vm result s
    exact shows_none rfl rfl
  · intro cmd opts next s answer m t inside ran later
    have first := sh_shows recorder inside cmd opts
    rw [ran] at first
    rw [performWrites,ran]
    exact first.trans later
  · intro name next s answer m t ran later
    have first := secret_shows recorder name s
    rw [ran] at first
    rw [performWrites,ran]
    exact first.trans later
  · intro name next s answer t ran later
    rw [performWrites,ran]
    exact later

variable {env : Env World Vm} {pipeline : Pipeline env.petgraph Vm}

theorem runFn_shows (recorder : Recorder env.host Entry) (viewed : (inputs.lookup jobId).isSome = true) (runFn : RunFn Vm)
    (inside : Inside inputs jobId s) :
    Shows recorder (runFnWrites env.host jobId runFn s) s (exec (callRunFn env pipeline runFn) s).2 := by
  cases runFn with
  | lua call | rust call =>
    rw [callRunFn,exec_bind_ok (exec_get _),exec_bind_pure]
    exact perform_shows recorder viewed _ inside

theorem turn_shows (recorder : Recorder env.host Entry) (found : pipeline.job jobId = some job)
    (viewed : (s.runtime.inputs.lookup jobId).isSome = true) :
    Shows recorder (turnWrites env pipeline jobId s) s (exec (runJob env pipeline jobId) s).2 := by
  have begun : Shows recorder [.event (.jobStarted jobId)] s (entered env.host jobId s) :=
    ⟨(emit_shows recorder (.jobStarted jobId) s).events,(emit_shows recorder (.jobStarted jobId) s).files⟩
  rw [turnWrites,found,exec_runJob found viewed]
  by_cases installed : env.lua.runtimeTable s.vm = true
  · simp only [installed,if_true]
    have inside : Inside s.runtime.inputs jobId (entered env.host jobId s) := ⟨rfl,rfl,rfl⟩
    have calls : Within s.runtime.inputs jobId (callRunFn env pipeline job.runFn) _ := callRunFn_adds viewed job.runFn
    obtain ⟨result,m,_,ran,_,_,_⟩ := calls _ inside
    have called : Shows recorder _ _ (exec (callRunFn env pipeline job.runFn) _).2 := runFn_shows recorder viewed job.runFn inside
    rw [ran] at called
    rw [exec_bind_ok ran,ran]
    have finished : Shows recorder [.event (.jobFinished jobId (jobOutcome result))] m (exec (finishJob env jobId result) m).2 := by
      have shown := emit_shows recorder (.jobFinished jobId (jobOutcome result)) m
      exact ⟨shown.events,shown.files⟩
    exact begun.trans (called.trans finished)
  · simp only [installed]
    exact begun

-- The rest of a run, from a turn of the loop on.
theorem loop_shows (recorder : Recorder env.host Entry) (known : Known pipeline s.runtime.inputs ids) :
    Shows recorder (loopWrites env pipeline ids s) s
      (exec (runJobs env pipeline ids >>= fun failedJob => emit env.host (.runFinished (runOutcome failedJob))) s).2 := by
  induction ids generalizing s with
  | nil => exact emit_shows recorder (.runFinished .succeeded) s
  | cons jobId rest ih =>
    obtain ⟨⟨job,found⟩,viewed⟩ := known jobId List.mem_cons_self
    have turn := turn_shows recorder found viewed
    rw [loopWrites]
    rcases ran : exec (runJob env pipeline jobId) s with ⟨message | error | ⟨⟨⟩⟩,m⟩
    · have stopped : exec (runJobs env pipeline (jobId :: rest)) s = (.error message,m) := exec_bind_error ran
      rw [ran] at turn
      rw [exec_bind_error stopped]
      exact turn.trans ⟨by simp [Happening.kind],by simp [Happening.entries]⟩
    · have stopped : exec (runJobs env pipeline (jobId :: rest)) s = (.ok (some (jobId,error)),m) := exec_bind_ok ran
      have finished := emit_shows recorder (.runFinished .pipelineFailure) m
      rw [ran] at turn
      rw [exec_bind_ok stopped]
      exact turn.trans ⟨finished.events,finished.files⟩
    · have onward : exec (runJobs env pipeline (jobId :: rest)) s = exec (runJobs env pipeline rest) m := exec_bind_ok ran
      have later := ih (runJob_inputs known ran ▸ known.rest)
      rw [ran] at turn
      rw [exec_bind,onward,← exec_bind]
      exact turn.trans later

theorem execute_shows (recorder : Recorder env.host Entry) (ordered : Order pipeline order) (registry : SecretRegistry)
    (world : World) :
    Shows recorder (executeWrites env pipeline registry order world) (start env pipeline registry world)
      (exec (execute env pipeline order) (start env pipeline registry world)).2 := by
  unfold executeWrites
  cases installed : env.lua.install pipeline.fennel with
  | none =>
    rw [execute,exec_bind_ok (exec_get _),start,installed]
    exact ⟨(List.append_nil _).symm,(List.append_nil _).symm⟩
  | some vm =>
    have shown := loop_shows recorder (order_known ordered registry world vm)
    rw [exec_execute installed]
    exact ⟨shown.events,shown.files⟩

-- The log files stay out of sight.
def unseen (host : Host World) : Recorder host Unit where
  entries _ := []
  wrote _ _ := []
  now _ := rfl
  output _ _ _ _ := rfl
  createDirAll _ _ := rfl
  sources _ := rfl
  writeFile _ _ _ := rfl

-- The events of `runWrites` are those that `runPipeline` hands to its sink.
theorem runWrites_events {registry : SecretRegistry} (compiled : compileAt env world = (.ok pipeline,started))
    (documented : Documented env.petgraph pipeline.graph.shape) :
    (runWrites env registry world).filterMap Happening.kind = (runPipeline env registry world).2.map Event.kind := by
  obtain ⟨jobs,listed,ordered⟩ := jobs_order documented
  have nonempty : jobs.map Job.id ≠ [] := List.ne_nil_of_mem ((ordered.members "quire/push").mpr ⟨_,compileAt_push compiled,rfl⟩)
  have shown := (execute_shows (unseen env.host) ordered registry started).events
  rw [runPipeline_compiled compiled (congrArg _ listed) ordered]
  simp only [runWrites,compiled,listed,nonempty,if_false]
  simpa [start] using shown.symm

-- A host that keeps what it writes to files.
def recording (host : Host World) : Host (World × List (String × List String)) where
  now world := ((host.now world.1).1,(host.now world.1).2,world.2)
  showTimestamp := host.showTimestamp
  readToString path world := ((host.readToString path world.1).1,(host.readToString path world.1).2,world.2)
  output cmd opts cwd world := ((host.output cmd opts cwd world.1).1,(host.output cmd opts cwd world.1).2,world.2)
  createDirAll path world := ((host.createDirAll path world.1).1,(host.createDirAll path world.1).2,world.2)
  writeFile path content world :=
    ((host.writeFile path content world.1).1,(host.writeFile path content world.1).2,world.2 ++ [(path,content)])
  sources world := ((host.sources world.1).1,(host.sources world.1).2,world.2)

def kept (host : Host World) : Recorder (recording host) (String × List String) where
  entries := Prod.snd
  wrote path content := [(path,content)]
  now _ := rfl
  output _ _ _ _ := rfl
  createDirAll _ _ := rfl
  sources _ := rfl
  writeFile _ _ _ := rfl

def recordingEnv (env : Env World Vm) : Env (World × List (String × List String)) Vm :=
  ⟨recording env.host,env.lua,env.petgraph,env.workspace,env.logDir,env.runMeta⟩

-- The logs of `executeWrites` are the files that the run writes.
theorem execute_logs (env : Env World Vm) {pipeline : Pipeline env.petgraph Vm} (ordered : Order pipeline order)
    (registry : SecretRegistry) (world : World) :
    (exec (execute (recordingEnv env) pipeline order) (start (recordingEnv env) pipeline registry (world,[]))).2.world.2 =
      (executeWrites (recordingEnv env) pipeline registry order (world,[])).flatMap (Happening.entries (kept env.host)) := by
  let recorder : Recorder (recordingEnv env).host (String × List String) := kept env.host
  exact (execute_shows recorder ordered registry (world,[])).files

end Quire.RunWrites
