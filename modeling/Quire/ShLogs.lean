import Quire.LogFiles
import Quire.RunProgress
import Quire.RunWrites

namespace Quire.ShLogs
open Text LogFiles Secret Primitives JobPipeline JobOrder Panicking RunEvents CiRuntime RunPipeline RunTrace RunProtocol RunProgress RunRequests
  RunWrites
variable {World Vm : Type}

-- An sh call of a run-fn, with the file its output went to where that was written.
structure LoggedCall where
  call : ShCall
  log : Option String
  exited : log.isSome = true → call.finished.isSome = true

def shLogPath (logDir jobId : String) (n : Nat) : String := joinPath (joinPath (joinPath logDir "jobs") jobId) (shLogName n)

-- The outputs that the runtime has recorded for a job.
def recordedCount (jobId : String) (s : State World Vm) : Nat := ((s.runtime.outputs.lookup jobId).getD []).length

-- `recordSh`: the directory and the file must both be there.
def recordedLog (host : Host World) (jobId : String) (output : ShOutput) (startedAt : Int) (s : State World Vm) : Option String :=
  match host.createDirAll (joinPath (joinPath s.runtime.logDir "jobs") jobId) s.world with
  | (.error _,_) => none
  | (.ok (),world) =>
    let logPath := shLogPath s.runtime.logDir jobId (recordedCount jobId s + 1)
    let recorded := ShOutput.redacted output s.runtime.registry
    match (host.writeFile logPath (criLog recorded (host.showTimestamp startedAt)) world).1 with
    | .error _ => none
    | .ok () => some logPath

-- `Runtime::sh` inside a job, from the state in which it is called.
def shLogged (host : Host World) (jobId : String) (cmd : Cmd) (opts : ShOpts) (s : State World Vm) : LoggedCall :=
  let (startedAt,world) := host.now s.world
  let (shownAt,world) := host.now world
  let shown := redact cmd.display s.runtime.registry
  match host.output cmd opts s.runtime.workspace world with
  | (.error _,_) => ⟨⟨shown,asMillisecond shownAt,none⟩,none,id⟩
  | (.ok (code,stdout,stderr),world) =>
    let output : ShOutput := ⟨code.getD (-1),stdout,stderr,cmd.display⟩
    let (_,world) := host.now world
    let (endedAt,world) := host.now world
    ⟨⟨shown,asMillisecond shownAt,some (asMillisecond endedAt,output.exit)⟩,
      recordedLog host jobId output startedAt { s with world := world },fun _ => rfl⟩

-- What follows a program that ends without a panic.
def following {Entry : Type} (ran : Except String α × State World Vm) (next : α → State World Vm → List Entry) : List Entry :=
  match ran with
  | (.ok value,t) => next value t
  | (.error _,_) => []

def performLogged {Failure : Type} (host : Host World) (jobId : String) : Conduct Vm Failure → State World Vm → List LoggedCall
  | .done _ _,_ => []
  | .sh cmd opts next,s => shLogged host jobId cmd opts s ::
      following (exec (Runtime.sh host cmd opts) s) fun answer t => performLogged host jobId (next answer) t
  | .secret name next,s =>
      following (exec (Runtime.secret host name) s) fun answer t => performLogged host jobId (next answer) t
  | .jobs name next,s =>
      following (exec (Runtime.jobs name) s) fun answer t => performLogged host jobId (next answer) t

def runFnLogged (host : Host World) (jobId : String) (runFn : RunFn Vm) (s : State World Vm) : List LoggedCall :=
  match runFn with
  | .lua call => performLogged host jobId (call s.vm) s
  | .rust call => performLogged host jobId (call s.vm) s

-- The calls of a turn of the loop, from the state before it.
def turnLogged (env : Env World Vm) (pipeline : Pipeline env.petgraph Vm) (jobId : String) (s : State World Vm) : List LoggedCall :=
  match pipeline.job jobId with
  | none => []
  | some job => runFnLogged env.host jobId job.runFn (entered env.host jobId s)

-- The jobs that are run, each with its calls.
def loopLogged (env : Env World Vm) (pipeline : Pipeline env.petgraph Vm) : List String → State World Vm → List (String × List LoggedCall)
  | [],_ => []
  | jobId :: rest,s => (jobId,turnLogged env pipeline jobId s) ::
      match exec (runJob env pipeline jobId) s with
      | (.ok (.ok ()),t) => loopLogged env pipeline rest t
      | _ => []

def runLogged (env : Env World Vm) (registry : SecretRegistry) (world : World) : List (String × List LoggedCall) :=
  match compileAt env world with
  | (.error _,_) => []
  | (.ok pipeline,world) =>
    match pipeline.jobs,env.lua.install pipeline.fennel with
    | some jobs,some vm => loopLogged env pipeline (jobs.map Job.id) (ready env pipeline registry world vm)
    | _,_ => []

-- Between the states a job has recorded the outputs of these logs, and no other
-- job has recorded any.
structure Numbers (jobId : String) (logs : List String) (s t : State World Vm) : Prop where
  numbered : logs = (List.range' (recordedCount jobId s + 1) logs.length).map (shLogPath s.runtime.logDir jobId)
  count : recordedCount jobId t = recordedCount jobId s + logs.length
  others : ∀ other, other ≠ jobId → recordedCount other t = recordedCount other s
  logDir : t.runtime.logDir = s.runtime.logDir

-- And its sink has taken the events of these calls.
structure Accounts (jobId : String) (calls : List LoggedCall) (s t : State World Vm) : Prop where
  events : t.sink = s.sink ++ (calls.map LoggedCall.call).flatMap (ShCall.events jobId)
  numbers : Numbers jobId (calls.filterMap LoggedCall.log) s t

variable {host : Host World} {s m t : State World Vm} {jobId : String} {logs more : List String}
  {inputs : List (String × List (String × Option PushOutputs))}

theorem Numbers.trans (first : Numbers jobId logs s m) (later : Numbers jobId more m t) : Numbers jobId (logs ++ more) s t where
  numbered := by
    have left := first.numbered
    have right := later.numbered
    rw [first.count,first.logDir] at right
    rw [List.length_append,← List.range'_append_1,List.map_append,← left,Nat.add_right_comm,← right]
  count := by rw [later.count,first.count,List.length_append,Nat.add_assoc]
  others := fun other different => (later.others other different).trans (first.others other different)
  logDir := later.logDir.trans first.logDir

theorem numbers_none (outputs : t.runtime.outputs = s.runtime.outputs) (logDir : t.runtime.logDir = s.runtime.logDir) :
    Numbers jobId [] s t :=
  ⟨rfl,by rw [recordedCount,outputs]; rfl,fun other _ => by rw [recordedCount,outputs,recordedCount],logDir⟩

theorem numbers_record (recorded : ShOutput) (timing : Int × Int) (kept : t.runtime = s.runtime.record jobId recorded timing) :
    Numbers jobId [shLogPath s.runtime.logDir jobId (recordedCount jobId s + 1)] s t where
  numbered := rfl
  count := by
    rw [recordedCount,kept,Runtime.record,AList.lookup_insert,Option.getD_some,List.length_append]
    rfl
  others := by
    intro other different
    rw [recordedCount,kept,Runtime.record,AList.lookup_insert_ne different]
    rfl
  logDir := by rw [kept]; rfl

theorem recordSh_numbers (jobId : String) (output : ShOutput) (startedAt finishedAt : Int) (s : State World Vm) :
    (exec (recordSh host jobId output startedAt finishedAt) s).2.sink = s.sink ∧
      Numbers jobId (recordedLog host jobId output startedAt s).toList s (exec (recordSh host jobId output startedAt finishedAt) s).2 := by
  simp only [recordSh,recordedLog,exec_bind,exec_get,exec_ask]
  rcases dir : host.createDirAll (joinPath (joinPath s.runtime.logDir "jobs") jobId) s.world with ⟨error | ⟨⟩,world⟩
  · exact ⟨rfl,numbers_none rfl rfl⟩
  · dsimp only
    rw [exec_bind_ok (exec_ask _ _)]
    rcases file : host.writeFile _ _ world with ⟨error | ⟨⟩,last⟩
    · have refused : host.writeFile (shLogPath s.runtime.logDir jobId (recordedCount jobId s + 1))
          (criLog (ShOutput.redacted output s.runtime.registry) (host.showTimestamp startedAt)) world = (.error error,last) := file
      rw [refused]
      exact ⟨rfl,numbers_none rfl rfl⟩
    · have written : host.writeFile (shLogPath s.runtime.logDir jobId (recordedCount jobId s + 1))
          (criLog (ShOutput.redacted output s.runtime.registry) (host.showTimestamp startedAt)) world = (.ok (),last) := file
      rw [written]
      exact ⟨rfl,numbers_record (ShOutput.redacted output s.runtime.registry) (startedAt,finishedAt) rfl⟩

-- The end of a call, after its process has exited.
theorem exited_numbers (pointer : s.currentJob = some jobId) (output : ShOutput) (startedAt : Int)
    (answer : Except RuntimeError Unit → α) (ended : t = (exec (do
      let finishedAt ← ask host.now
      eventCallback host (.shFinished output.exit)
      let recorded ← recordSh host jobId output startedAt finishedAt
      return answer recorded) s).2) :
    t.sink = s.sink ++ [⟨asMillisecond (host.now (host.now s.world).2).1,.shFinished jobId output.exit⟩] ∧
      Numbers jobId (recordedLog host jobId output startedAt { s with world := (host.now (host.now s.world).2).2 }).toList s t := by
  let finished : State World Vm := { s with world := (host.now s.world).2 }
  have told : exec (eventCallback host (.shFinished output.exit)) finished = exec (emit host (.shFinished jobId output.exit)) finished :=
    exec_eventCallback (s := finished) pointer (.shFinished output.exit)
  rw [exec_bind_ok (exec_ask _ s),exec_bind_ok (told.trans (exec_emit _ _ _)),exec_bind_pure] at ended
  subst ended
  obtain ⟨shown,numbers⟩ := recordSh_numbers jobId output startedAt (host.now s.world).1
    (exec (emit host (.shFinished jobId output.exit)) finished).2
  exact ⟨shown,numbers.numbered,numbers.count,numbers.others,numbers.logDir⟩

theorem Accounts.trans (first : Accounts jobId calls s m) (later : Accounts jobId rest m t) : Accounts jobId (calls ++ rest) s t where
  events := by rw [later.events,first.events,List.map_append,List.flatMap_append,List.append_assoc]
  numbers := by
    rw [List.filterMap_append]
    exact first.numbers.trans later.numbers

theorem accounts_none (sink : t.sink = s.sink) (outputs : t.runtime.outputs = s.runtime.outputs)
    (logDir : t.runtime.logDir = s.runtime.logDir) : Accounts jobId [] s t :=
  ⟨by rw [sink]; exact (List.append_nil _).symm,numbers_none outputs logDir⟩

theorem accounts_one (events : t.sink = s.sink ++ ShCall.events jobId logged.call) (numbers : Numbers jobId logged.log.toList s t) :
    Accounts jobId [logged] s t where
  events := by simpa using events
  numbers := by
    have listed : [logged].filterMap LoggedCall.log = logged.log.toList := by cases found : logged.log <;> simp [found]
    rwa [listed]

-- A call that is made shows its events, and counts where its log was written.
theorem sh_accounts (inside : Inside inputs jobId s) (cmd : Cmd) (opts : ShOpts) :
    Accounts jobId [shLogged host jobId cmd opts s] s (exec (Runtime.sh host cmd opts) s).2 := by
  simp only [Runtime.sh,exec_bind,exec_ask,exec_get,inside.cursor,Option.isSome_some,if_true]
  rw [exec_eventCallback (s := { s with world := (host.now s.world).2 }) inside.pointer,exec_emit]
  simp only [Cmd.run,exec_bind,exec_ask,exec_pure,shLogged]
  rcases ran : host.output cmd opts s.runtime.workspace (host.now (host.now s.world).2).2 with ⟨error | ⟨code,stdout,stderr⟩,world⟩
  · exact accounts_one rfl (numbers_none rfl rfl)
  · let left : State World Vm := { s with
      world := world
      sink := s.sink ++ [⟨asMillisecond (host.now (host.now s.world).2).1,.shStarted jobId (redact cmd.display s.runtime.registry)⟩] }
    obtain ⟨shown,numbers⟩ := exited_numbers (s := left) inside.pointer ⟨code.getD (-1),stdout,stderr,cmd.display⟩
      (host.now s.world).1 (fun recorded => recorded.map fun _ => (⟨code.getD (-1),stdout,stderr,cmd.display⟩ : ShOutput)) rfl
    refine accounts_one (shown.trans ?_) ⟨numbers.numbered,numbers.count,numbers.others,numbers.logDir⟩
    rw [List.append_assoc]
    rfl

-- A run-fn makes its calls one after the other, whatever they answer.
theorem perform_accounts {Failure : Type} (viewed : (inputs.lookup jobId).isSome = true) (conduct : Conduct Vm Failure)
    (inside : Inside inputs jobId s) :
    Accounts jobId (performLogged host jobId conduct s) s (exec (perform host conduct) s).2 := by
  refine perform_rule (motive := fun conduct s t => Accounts jobId (performLogged host jobId conduct s) s t) viewed ?_ ?_ ?_ ?_
    conduct inside
  · intro vm result s
    exact accounts_none rfl rfl rfl
  · intro cmd opts next s answer m t inside ran later
    have first : Accounts jobId [shLogged host jobId cmd opts s] s (exec (Runtime.sh host cmd opts) s).2 := sh_accounts inside cmd opts
    rw [ran] at first
    rw [performLogged,ran]
    exact first.trans later
  · intro name next s answer m t ran later
    have first : Accounts jobId [] s (exec (Runtime.secret host name) s).2 := accounts_none rfl rfl rfl
    rw [ran] at first
    rw [performLogged,ran]
    exact first.trans later
  · intro name next s answer t ran later
    rw [performLogged,ran]
    exact later

variable {env : Env World Vm} {pipeline : Pipeline env.petgraph Vm}

theorem runFn_accounts (viewed : (inputs.lookup jobId).isSome = true) (runFn : RunFn Vm) (inside : Inside inputs jobId s) :
    Accounts jobId (runFnLogged env.host jobId runFn s) s (exec (callRunFn env pipeline runFn) s).2 := by
  cases runFn with
  | lua call | rust call =>
    rw [callRunFn,exec_bind_ok (exec_get _),exec_bind_pure]
    exact perform_accounts viewed _ inside

-- A turn of the loop that does not panic shows one job with its calls.
theorem turn_accounts (found : pipeline.job jobId = some job) (viewed : (s.runtime.inputs.lookup jobId).isSome = true)
    (ran : exec (runJob env pipeline jobId) s = (.ok result,t)) :
    ∃ run : JobRun, t.sink = s.sink ++ run.events ∧ run.id = jobId ∧ run.outcome = jobOutcome result ∧
      run.calls = (turnLogged env pipeline jobId s).map LoggedCall.call ∧
      Numbers jobId ((turnLogged env pipeline jobId s).filterMap LoggedCall.log) s t := by
  rw [exec_runJob found viewed] at ran
  split at ran
  · have inside : Inside s.runtime.inputs jobId (entered env.host jobId s) := ⟨rfl,rfl,rfl⟩
    have called : Within s.runtime.inputs jobId (callRunFn env pipeline job.runFn) _ := callRunFn_adds viewed job.runFn
    obtain ⟨answer,m,_,performed,_,_,_⟩ := called _ inside
    have accounts : Accounts jobId _ _ (exec (callRunFn env pipeline job.runFn) _).2 := runFn_accounts viewed job.runFn inside
    rw [performed] at accounts
    rw [exec_bind_ok performed] at ran
    have ended : exec (finishJob env jobId answer) m = (.ok answer,_) := rfl
    cases ended.symm.trans ran
    obtain ⟨events,numbers⟩ := accounts
    have calls : turnLogged env pipeline jobId s = runFnLogged env.host jobId job.runFn (entered env.host jobId s) := by
      rw [turnLogged,found]
    rw [calls]
    refine ⟨⟨jobId,asMillisecond (env.host.now s.world).1,_,jobOutcome result,asMillisecond (env.host.now m.world).1⟩,?_,rfl,rfl,rfl,
      numbers.numbered,numbers.count,numbers.others,numbers.logDir⟩
    change m.sink ++ _ = _
    rw [events]
    simp [entered,JobRun.events]
  · cases ran

-- The logs of a job's calls, numbered from one on in the order they were written.
def Numbered (logDir : String) (ran : String × List LoggedCall) : Prop :=
  ran.2.filterMap LoggedCall.log = (List.range' 1 (ran.2.filterMap LoggedCall.log).length).map (shLogPath logDir ran.1)

def shownJob (run : JobRun) : String × List ShCall := (run.id,run.calls)

def loggedJob (ran : String × List LoggedCall) : String × List ShCall := (ran.1,ran.2.map LoggedCall.call)

theorem loop_accounts (known : Known pipeline s.runtime.inputs ids) (distinct : ids.Nodup)
    (fresh : ∀ jobId ∈ ids, recordedCount jobId s = 0) (ended : exec (runJobs env pipeline ids) s = (.ok failedJob,t)) :
    ∃ runs : List JobRun, t.sink = s.sink ++ runs.flatMap JobRun.events ∧
      runs.map shownJob = (loopLogged env pipeline ids s).map loggedJob ∧
      ∀ ran ∈ loopLogged env pipeline ids s, Numbered s.runtime.logDir ran := by
  induction ids generalizing s with
  | nil =>
    cases ended
    exact ⟨[],(List.append_nil _).symm,rfl,fun ran member => absurd member List.not_mem_nil⟩
  | cons jobId rest ih =>
    obtain ⟨⟨job,found⟩,viewed⟩ := known jobId List.mem_cons_self
    obtain ⟨own,others⟩ := List.nodup_cons.mp distinct
    obtain ⟨empty,later⟩ := List.forall_mem_cons.mp fresh
    rw [loopLogged]
    rcases turn : exec (runJob env pipeline jobId) s with ⟨message | result,m⟩
    · rw [runJobs,exec_bind_error turn] at ended
      cases ended
    · obtain ⟨run,shown,named,_,calls,numbers⟩ := turn_accounts found viewed turn
      have numbered : Numbered s.runtime.logDir (jobId,turnLogged env pipeline jobId s) := by
        have listed := numbers.numbered
        rwa [empty,Nat.zero_add] at listed
      have same : shownJob run = loggedJob (jobId,turnLogged env pipeline jobId s) := by rw [shownJob,named,calls]; rfl
      rw [runJobs,exec_bind_ok turn] at ended
      rcases result with error | ⟨⟨⟩⟩
      · cases ended
        exact ⟨[run],by simpa using shown,by simp [same],by simpa using numbered⟩
      · have untouched : ∀ other ∈ rest, recordedCount other m = 0 := by
          intro other member
          have different : other ≠ jobId := fun same => own (same ▸ member)
          rw [numbers.others other different]
          exact later other member
        obtain ⟨runs,extended,jobs,all⟩ := ih (runJob_inputs known turn ▸ known.rest) others untouched ended
        rw [numbers.logDir] at all
        refine ⟨run :: runs,?_,by simp [same,jobs],?_⟩
        · rw [extended,shown,List.flatMap_cons,List.append_assoc]
        · exact List.forall_mem_cons.mpr ⟨numbered,all⟩

-- The stream of a run that ends well shows the jobs with the calls they made.
theorem run_accounts {registry : SecretRegistry} {world : World} (documented : DocumentedAt env world)
    (completed : (runPipeline env registry world).1 = .ok ()) :
    ∃ runs : List JobRun, ∃ finishedAt outcome, (runPipeline env registry world).2 = RunStream.events ⟨runs,outcome,finishedAt⟩ ∧
      runs.map shownJob = (runLogged env registry world).map loggedJob ∧
      ∀ ran ∈ runLogged env registry world, Numbered env.logDir ran := by
  rcases compiled : compileAt env world with ⟨error | pipeline,started⟩
  · refine ⟨[],asMillisecond (env.host.now started).1,.pipelineFailure,?_,?_,?_⟩
    · rw [runPipeline,compiled]
      rfl
    · rw [runLogged,compiled]
      rfl
    · rw [runLogged,compiled]
      exact fun ran member => absurd member List.not_mem_nil
  · obtain ⟨jobs,listed,ordered⟩ := jobs_order (documented pipeline started compiled)
    have sorted : pipeline.jobs.map (·.map Job.id) = some (jobs.map Job.id) := congrArg _ listed
    obtain ⟨vm,installed,kept⟩ := (runPipeline_ok_iff compiled sorted ordered).mp completed
    have known := order_known ordered registry started vm
    obtain ⟨failedJob,t,_,ran,_,_⟩ := runJobs_kept known kept
    obtain ⟨runs,shown,jobRuns,numbered⟩ := loop_accounts known ordered.nodup (fun _ _ => rfl) ran
    have logged : runLogged env registry world = loopLogged env pipeline (jobs.map Job.id) (ready env pipeline registry started vm) := by
      rw [runLogged,compiled]
      simp only [listed,installed]
    rw [logged]
    refine ⟨runs,asMillisecond (env.host.now t.world).1,runOutcome failedJob,?_,jobRuns,numbered⟩
    rw [runPipeline_compiled compiled sorted ordered,exec_execute installed,exec_bind_ok ran,exec_emit,shown]
    rfl

end Quire.ShLogs
