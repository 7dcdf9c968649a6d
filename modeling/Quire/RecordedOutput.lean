import Quire.Redaction
import Quire.RunWrites

namespace Quire.RecordedOutput
open Text TextReplace LineFraming Secret Redaction Primitives JobPipeline JobOrder Panicking RunEvents CiRuntime RunPipeline RunTrace RunProtocol
  RunRequests RunWrites
variable {World Vm : Type}

def EventKind.jobId : EventKind → Option String
  | .jobStarted jobId | .jobFinished jobId _ | .shStarted jobId _ | .shFinished jobId _ => some jobId
  | .runFinished _ => none

def EventKind.texts (kind : EventKind) : List String :=
  (EventKind.jobId kind).toList ++ match kind with
    | .shStarted _ cmd => [cmd]
    | _ => []

-- What an error shows beside its own words, with its sources.
def RuntimeError.texts : RuntimeError → List String
  | .secret (.resolve source) => [source]
  | .secret (.unknownSecret name) => [name]
  | .lua error => [error]
  | .commandSpawnFailed program cwd source => [program,cwd,source]
  | .git error => [error]
  | .logWriteFailed path source => [path,source]

def JobError.texts : JobError → List String
  | .fennel _ sourceName error => [sourceName ++ ": " ++ error]
  | .runtime error => RuntimeError.texts error

def CompileError.texts : CompileError → List String
  | .io error | .fennel error => [error]
  | .pipeline _ _ => []

def Report.texts : Report → List String
  | .notCompiled error => CompileError.texts error
  | .shortSecret name _ => [name]
  | .runFnFailed jobId error => jobId :: JobError.texts error
  | .panicked message => [message]

def logText (recorded : ShOutput) (timestamp : String) : List Char :=
  frame '\n' ((criLog recorded timestamp).map String.toList)

def Happening.Contains (value : String) : Happening → Prop
  | .returned _ => False
  | .event kind => ∃ text ∈ EventKind.texts kind, value.toList <:+: text.toList
  | .log _ timestamp recorded => value.toList <:+: logText recorded timestamp
  | .stderr report => ∃ text ∈ Report.texts report, value.toList <:+: text.toList

-- The lines of a log, each after its timestamp and stream.
def framedLog (recorded : ShOutput) (timestamp : String) : List (Framed Char) :=
  (lines recorded.stdout).map (fun line => ⟨(timestamp ++ " stdout F ").toList,line.toList⟩) ++
    (lines recorded.stderr).map (fun line => ⟨(timestamp ++ " stderr F ").toList,line.toList⟩)

-- Where a value still shows: in the id of a job, across the lines of a log and
-- in what tracing reports.
def Happening.Exposes (value : String) : Happening → Prop
  | .returned _ => False
  | .event kind => ∃ jobId, EventKind.jobId kind = some jobId ∧ value.toList <:+: jobId.toList
  | .log _ timestamp recorded => ReadsAcross value.toList '\n' (framedLog recorded timestamp)
  | .stderr (.notCompiled _) => False
  | .stderr report => ∃ text ∈ Report.texts report, value.toList <:+: text.toList

-- `redact` leaves no value of this registry in any text.
def Redacts (registry : SecretRegistry) : Prop :=
  ∀ text name value, registry.revealed.lookup name = some value → ¬ value.toList <:+: (redact text registry).toList

theorem logText_framed (recorded : ShOutput) (timestamp : String) :
    logText recorded timestamp = frame '\n' ((framedLog recorded timestamp).map fun framed => framed.before ++ framed.line) := by
  simp [logText,framedLog,criLog,Function.comp_def]

def Exact (value : String) (happening : Happening) : Prop := Happening.Contains value happening ↔ Happening.Exposes value happening

-- A text without the value has no line with it.
theorem log_exact {path timestamp : String} {recorded : ShOutput} (long : 8 ≤ String.utf8ByteSize value)
    (stdout : ¬ value.toList <:+: recorded.stdout.toList) (stderr : ¬ value.toList <:+: recorded.stderr.toList) :
    Exact value (.log path timestamp recorded) := by
  have outside : ∀ framed ∈ framedLog recorded timestamp, ¬ value.toList <:+: framed.line := by
    intro framed member inLine
    rcases List.mem_append.mp member with out | err
    · obtain ⟨line,listed,rfl⟩ := List.mem_map.mp out
      exact stdout (inLine.trans (lines_within recorded.stdout line listed))
    · obtain ⟨line,listed,rfl⟩ := List.mem_map.mp err
      exact stderr (inLine.trans (lines_within recorded.stderr line listed))
  change value.toList <:+: logText recorded timestamp ↔ ReadsAcross value.toList '\n' (framedLog recorded timestamp)
  rw [logText_framed,infix_framed (nonempty_of_long long)]
  constructor
  · intro found
    rcases found with ⟨framed,member,inLine⟩ | across
    · exact absurd inLine (outside framed member)
    · exact across
  · exact .inr

theorem event_exact {kind : EventKind} (plain : EventKind.texts kind = (EventKind.jobId kind).toList) :
    Exact value (.event kind) := by
  unfold Exact Happening.Contains Happening.Exposes
  simp [plain]

theorem shStarted_exact (shown : ¬ value.toList <:+: String.toList cmd) : Exact value (.event (.shStarted jobId cmd)) := by
  unfold Exact Happening.Contains Happening.Exposes
  simp [EventKind.texts,EventKind.jobId,shown]

def Happening.value : Happening → Option String
  | .returned value => some value
  | _ => none

-- The values that the trace hands out.
def returned (trace : List Happening) : List String := trace.filterMap Happening.value

@[simp] theorem returned_nil : returned [] = [] := rfl

@[simp] theorem returned_append (earlier later : List Happening) : returned (earlier ++ later) = returned earlier ++ returned later :=
  List.filterMap_append

-- Whatever is let out after a long value shows it only where `Exposes` says.
def Guarded : List String → List Happening → Prop
  | _,[] => True
  | values,happening :: rest =>
    (∀ value ∈ values, 8 ≤ value.utf8ByteSize → Exact value happening) ∧ Guarded (values ++ (Happening.value happening).toList) rest

theorem guarded_append {values : List String} {earlier later : List Happening} :
    Guarded values (earlier ++ later) ↔ Guarded values earlier ∧ Guarded (values ++ returned earlier) later := by
  induction earlier generalizing values with
  | nil => simp [Guarded]
  | cons happening rest ih =>
    have opened : returned (happening :: rest) = (Happening.value happening).toList ++ returned rest := by
      unfold returned
      cases shown : Happening.value happening with
      | none => rw [List.filterMap_cons_none shown]; rfl
      | some value => rw [List.filterMap_cons_some shown]; rfl
    rw [List.cons_append,Guarded,ih,Guarded,opened,List.append_assoc,and_assoc]

theorem guarded_at {values : List String} (guarded : Guarded values (before ++ write :: after)) :
    ∀ value, .returned value ∈ before → 8 ≤ value.utf8ByteSize → Exact value write := by
  intro value handed long
  have shown : value ∈ values ++ returned before :=
    List.mem_append_right _ (List.mem_filterMap.mpr ⟨.returned value,handed,rfl⟩)
  exact (guarded_append.mp guarded).2.1 value shown long

-- The registry knows every long value that has been handed out.
structure Holds (registry : SecretRegistry) (values : List String) : Prop where
  consistent : registry.Consistent
  registered : ∀ value ∈ values, 8 ≤ value.utf8ByteSize → ∃ name, registry.revealed.lookup name = some value

theorem Holds.hidden (holds : Holds registry values) (redacts : Redacts registry) :
    ∀ value ∈ values, 8 ≤ value.utf8ByteSize → ∀ text, ¬ value.toList <:+: (redact text registry).toList := by
  intro value member long text
  obtain ⟨name,found⟩ := holds.registered value member long
  exact redacts text name value found

variable {host : Host World} {s t : State World Vm} {values : List String}

theorem guarded_one (silent : Happening.value happening = none) (exact : ∀ value ∈ values, 8 ≤ value.utf8ByteSize → Exact value happening)
    (later : Guarded values rest) : Guarded values (happening :: rest) := by
  refine ⟨exact,?_⟩
  rw [silent]
  simpa using later

theorem recordWrites_guarded (holds : Holds s.runtime.registry values) (redacts : Redacts s.runtime.registry) (output : ShOutput)
    (startedAt : Int) : Guarded values (recordWrites host jobId output startedAt s) := by
  have hidden := holds.hidden redacts
  unfold recordWrites
  dsimp only
  split
  · trivial
  · refine guarded_one rfl (fun value member long => ?_) (show Guarded values [] from trivial)
    exact log_exact long (hidden value member long output.stdout) (hidden value member long output.stderr)

-- Every text of a call comes out of `redact`.
theorem shWrites_guarded (holds : Holds s.runtime.registry values) (redacts : Redacts s.runtime.registry) (cmd : Cmd) (opts : ShOpts) :
    Guarded values (shWrites host jobId cmd opts s) := by
  unfold shWrites
  apply guarded_one rfl
  · intro value member long
    exact shStarted_exact (holds.hidden redacts value member long cmd.display)
  · split
    · trivial
    · apply guarded_one rfl fun _ _ _ => event_exact rfl
      rename_i code stdout stderr world _
      let exited : State World Vm := { s with world := (host.now (host.now world).2).2 }
      exact recordWrites_guarded (s := exited) holds redacts ⟨code.getD (-1),stdout,stderr,cmd.display⟩ (host.now s.world).1

theorem recordWrites_returned (host : Host World) (jobId : String) (output : ShOutput) (startedAt : Int) (s : State World Vm) :
    returned (recordWrites host jobId output startedAt s) = [] := by
  unfold recordWrites
  dsimp only
  split
  · rfl
  · rfl

theorem shWrites_returned (host : Host World) (jobId : String) (cmd : Cmd) (opts : ShOpts) (s : State World Vm) :
    returned (shWrites host jobId cmd opts s) = [] := by
  unfold shWrites
  rw [returned,List.filterMap_cons_none rfl]
  split
  · rfl
  · rw [List.filterMap_cons_none rfl]
    exact recordWrites_returned _ _ _ _ _

theorem secretWrites_guarded (host : Host World) (name : String) (s : State World Vm) :
    Guarded values (secretWrites host name s) := by
  unfold secretWrites
  split
  · trivial
  · split
    · exact ⟨fun _ _ _ => Iff.rfl,trivial⟩
    · exact ⟨fun _ _ _ => Iff.rfl,fun _ _ _ => Iff.rfl,trivial⟩

-- A value is handed out exactly when the call answers with it.
theorem secretWrites_returned (host : Host World) (name : String) (s : State World Vm) :
    returned (secretWrites host name s) = (s.runtime.registry.resolve (host.sources s.world).1 name).1.toOption.toList := by
  unfold secretWrites
  split
  · rename_i error failed
    rw [failed]
    rfl
  · rename_i value answered
    rw [answered]
    split
    · rfl
    · rfl

def registryOf (s : State World Vm) : SecretRegistry := s.runtime.registry

theorem eventCallback_keeps (event : RuntimeEvent) : Keeps registryOf (eventCallback host event : Exec World Vm Unit) :=
  keeps_get fun _ => keeps_bind (keeps_expecting _ _) fun _ _ => rfl

theorem recordSh_keeps (output : ShOutput) (startedAt finishedAt : Int) :
    Keeps registryOf (recordSh host jobId output startedAt finishedAt : Exec World Vm _) := by
  apply keeps_get
  intro now
  apply keeps_bind (fun _ => rfl)
  intro made
  cases made with
  | error source => exact keeps_pure _
  | ok _ =>
    apply keeps_bind (fun _ => rfl)
    intro wrote
    cases wrote with
    | error source => exact keeps_pure _
    | ok _ => exact keeps_bind (fun _ => rfl) fun _ => keeps_pure _

theorem sh_keeps (host : Host World) (cmd : Cmd) (opts : ShOpts) : Keeps registryOf (Runtime.sh host cmd opts : Exec World Vm _) := by
  apply keeps_bind (fun _ => rfl)
  intro startedAt
  apply keeps_get
  intro now
  cases now.runtime.currentJob with
  | none =>
    refine keeps_bind (keeps_bind (fun _ => rfl) fun _ => keeps_pure _) fun output => ?_
    cases output with
    | error source => exact keeps_pure _
    | ok output => exact keeps_bind (fun _ => rfl) fun _ => keeps_pure _
  | some jobId =>
    refine keeps_bind (eventCallback_keeps _) fun _ => keeps_bind (keeps_bind (fun _ => rfl) fun _ => keeps_pure _) fun output => ?_
    cases output with
    | error source => exact keeps_pure _
    | ok output =>
      refine keeps_bind (fun _ => rfl) fun finishedAt => keeps_bind (eventCallback_keeps _) fun _ => ?_
      exact keeps_bind (recordSh_keeps _ _ _) fun _ => keeps_pure _

-- A fact about the registry and the values handed out that every call of
-- `(secret ..)` carries on.
def Carries (host : Host World) (fact : SecretRegistry → List String → Prop) : Prop :=
  ∀ registry world name values, fact registry values →
    fact (registry.resolve (host.sources world).1 name).2
      (values ++ (registry.resolve (host.sources world).1 name).1.toOption.toList)

theorem holds_carries (host : Host World) : Carries host Holds := by
  intro registry world name values holds
  have resolved := resolve_resolves holds.consistent (host.sources world).1 name
  refine ⟨resolved.consistent,?_⟩
  intro value member long
  rcases List.mem_append.mp member with before | now
  · obtain ⟨under,found⟩ := holds.registered value before long
    exact ⟨under,resolved.kept under value found⟩
  · apply resolved.registered value _ long
    rcases answered : (registry.resolve (host.sources world).1 name).1 with error | answer
    · rw [answered] at now
      cases now
    · rw [answered] at now
      rw [List.mem_singleton.mp now]

variable {fact : SecretRegistry → List String → Prop}

theorem sh_carries (jobId : String) (ran : exec (Runtime.sh host cmd opts) s = (answer,t)) (holds : fact s.runtime.registry values) :
    fact t.runtime.registry (values ++ returned (shWrites host jobId cmd opts s)) := by
  have kept : t.runtime.registry = s.runtime.registry := by
    have same := sh_keeps host cmd opts s
    rwa [ran] at same
  rw [shWrites_returned,List.append_nil,kept]
  exact holds

theorem secret_carries (carries : Carries host fact) (ran : exec (Runtime.secret host name) s = (answer,t))
    (holds : fact s.runtime.registry values) : fact t.runtime.registry (values ++ returned (secretWrites host name s)) := by
  cases (exec_secret name s).symm.trans ran
  rw [secretWrites_returned]
  exact carries _ s.world name values holds

-- A run-fn carries the fact on, whatever it asks for and however it ends.
theorem perform_carries {Failure : Type} (carries : Carries host fact) (jobId : String) (conduct : Conduct Vm Failure)
    (holds : fact s.runtime.registry values) :
    fact (exec (perform host conduct) s).2.runtime.registry (values ++ returned (performWrites host jobId conduct s)) := by
  induction conduct generalizing s values with
  | done vm result =>
    rw [performWrites,returned_nil,List.append_nil]
    exact holds
  | sh cmd opts next ih =>
    rw [performWrites,perform,returned_append,← List.append_assoc]
    rcases ran : exec (Runtime.sh host cmd opts) s with ⟨message | answer,m⟩
    · rw [exec_bind_error ran,afterwards,returned_nil,List.append_nil]
      exact sh_carries jobId ran holds
    · rw [exec_bind_ok ran]
      exact ih answer (sh_carries jobId ran holds)
  | secret name next ih =>
    rw [performWrites,perform,returned_append,← List.append_assoc]
    rcases ran : exec (Runtime.secret host name) s with ⟨message | answer,m⟩
    · rw [exec_bind_error ran,afterwards,returned_nil,List.append_nil]
      exact secret_carries carries ran holds
    · rw [exec_bind_ok ran]
      exact ih answer (secret_carries carries ran holds)
  | jobs name next ih =>
    rw [performWrites,perform]
    rcases ran : exec (Runtime.jobs name) s with ⟨message | answer,m⟩
    · rw [exec_bind_error ran,afterwards,returned_nil,List.append_nil,jobs_same ran]
      exact holds
    · rw [exec_bind_ok ran]
      exact ih answer (jobs_same ran ▸ holds)

-- And at each of its requests the fact holds of values it has been handed.
theorem asks_carries {Failure : Type} {conduct : Conduct Vm Failure} (carries : Carries host fact)
    (asks : Asks host conduct s request t) (holds : fact s.runtime.registry values) :
    ∃ more, fact t.runtime.registry (values ++ more) := by
  induction asks generalizing values with
  | sh | secret | jobs => exact ⟨[],by rwa [List.append_nil]⟩
  | afterSh ran _ ih =>
    obtain ⟨more,later⟩ := ih (sh_carries "" ran holds)
    exact ⟨_,List.append_assoc _ _ _ ▸ later⟩
  | afterSecret ran _ ih =>
    obtain ⟨more,later⟩ := ih (secret_carries carries ran holds)
    exact ⟨_,List.append_assoc _ _ _ ▸ later⟩
  | afterJobs ran _ ih => exact ih (jobs_same ran ▸ holds)

theorem perform_guarded {Failure : Type} {conduct : Conduct Vm Failure} (jobId : String)
    (redacts : ∀ cmd opts t, Asks host conduct s (.sh cmd opts) t → Redacts t.runtime.registry)
    (holds : Holds s.runtime.registry values) : Guarded values (performWrites host jobId conduct s) := by
  induction conduct generalizing s values with
  | done vm result => trivial
  | sh cmd opts next ih =>
    rw [performWrites,guarded_append]
    refine ⟨shWrites_guarded holds (redacts cmd opts s .sh) cmd opts,?_⟩
    rcases ran : exec (Runtime.sh host cmd opts) s with ⟨message | answer,m⟩
    · trivial
    · exact ih answer (fun cmd opts t asks => redacts cmd opts t (.afterSh ran asks)) (sh_carries jobId ran holds)
  | secret name next ih =>
    rw [performWrites,guarded_append]
    refine ⟨secretWrites_guarded host name s,?_⟩
    rcases ran : exec (Runtime.secret host name) s with ⟨message | answer,m⟩
    · trivial
    · exact ih answer (fun cmd opts t asks => redacts cmd opts t (.afterSecret ran asks))
        (secret_carries (holds_carries host) ran holds)
  | jobs name next ih =>
    rw [performWrites]
    rcases ran : exec (Runtime.jobs name) s with ⟨message | answer,m⟩
    · trivial
    · exact ih answer (fun cmd opts t asks => redacts cmd opts t (.afterJobs ran asks)) (jobs_same ran ▸ holds)

variable {env : Env World Vm} {pipeline : Pipeline env.petgraph Vm}

theorem runFn_guarded {runFn : RunFn Vm} (jobId : String)
    (redacts : ∀ cmd opts t, RunFnAsks env.host runFn s (.sh cmd opts) t → Redacts t.runtime.registry)
    (holds : Holds s.runtime.registry values) : Guarded values (runFnWrites env.host jobId runFn s) := by
  cases runFn with
  | lua call | rust call => exact perform_guarded jobId redacts holds

theorem runFn_carries (carries : Carries env.host fact) (jobId : String) (runFn : RunFn Vm) (holds : fact s.runtime.registry values) :
    fact (exec (callRunFn env pipeline runFn) s).2.runtime.registry (values ++ returned (runFnWrites env.host jobId runFn s)) := by
  cases runFn with
  | lua call | rust call =>
    rw [callRunFn,exec_bind_ok (exec_get _),exec_bind_pure]
    exact perform_carries carries jobId _ holds

-- A turn that ends without a panic has called the run-fn of its job.
theorem runJob_ran (ran : exec (runJob env pipeline jobId) s = (.ok result,t)) :
    ∃ job m, pipeline.job jobId = some job ∧ env.lua.runtimeTable s.vm = true ∧
      exec (callRunFn env pipeline job.runFn) (entered env.host jobId s) = (.ok result,m) ∧
      t.runtime.registry = m.runtime.registry := by
  cases found : pipeline.job jobId with
  | none =>
    simp only [runJob,exec_bind,exec_modify,exec_emit,found,expecting] at ran
    cases ran
  | some job =>
    by_cases viewed : (s.runtime.inputs.lookup jobId).isSome = true
    · rw [exec_runJob found viewed] at ran
      split at ran
      · rename_i installed
        rcases called : exec (callRunFn env pipeline job.runFn) (entered env.host jobId s) with ⟨message | answer,m⟩
        · rw [exec_bind_error called] at ran
          cases ran
        · rw [exec_bind_ok called] at ran
          cases ran
          exact ⟨job,m,rfl,installed,called,rfl⟩
      · cases ran
    · simp only [runJob,exec_bind,exec_modify,exec_emit,found,expecting,exec_pure,Runtime.enterJob,exec_get,asserting,viewed] at ran
      cases ran

theorem turn_guarded (jobId : String)
    (redacts : ∀ job cmd opts t, env.lua.runtimeTable s.vm = true → pipeline.job jobId = some job →
      RunFnAsks env.host job.runFn (entered env.host jobId s) (.sh cmd opts) t → Redacts t.runtime.registry)
    (holds : Holds s.runtime.registry values) : Guarded values (turnWrites env pipeline jobId s) := by
  unfold turnWrites
  apply guarded_one rfl fun _ _ _ => event_exact rfl
  cases found : pipeline.job jobId with
  | none => trivial
  | some job =>
    dsimp only
    split
    · rename_i installed
      rw [guarded_append]
      refine ⟨runFn_guarded jobId (fun cmd opts t asks => redacts job cmd opts t installed found asks) holds,?_⟩
      rcases exec (callRunFn env pipeline job.runFn) (entered env.host jobId s) with ⟨message | result,m⟩
      · trivial
      · exact guarded_one rfl (fun _ _ _ => event_exact rfl) trivial
    · trivial

theorem turn_carries (carries : Carries env.host fact) (ran : exec (runJob env pipeline jobId) s = (.ok result,t))
    (holds : fact s.runtime.registry values) : fact t.runtime.registry (values ++ returned (turnWrites env pipeline jobId s)) := by
  obtain ⟨job,m,found,installed,called,same⟩ := runJob_ran ran
  have carried : fact (exec (callRunFn env pipeline job.runFn) (entered env.host jobId s)).2.runtime.registry _ :=
    runFn_carries carries jobId job.runFn holds
  rw [called] at carried
  rw [same]
  have handed : returned (turnWrites env pipeline jobId s) = returned (runFnWrites env.host jobId job.runFn (entered env.host jobId s)) := by
    rw [turnWrites,found]
    simp only [installed,if_true,called,afterwards]
    rw [returned,List.filterMap_cons_none rfl,List.filterMap_append]
    exact List.append_nil _
  rw [handed]
  exact carried

theorem loop_guarded (redacts : ∀ jobId turn job cmd opts t, Arrives env pipeline ids s jobId turn →
      env.lua.runtimeTable turn.vm = true → pipeline.job jobId = some job →
      RunFnAsks env.host job.runFn (entered env.host jobId turn) (.sh cmd opts) t → Redacts t.runtime.registry)
    (holds : Holds s.runtime.registry values) : Guarded values (loopWrites env pipeline ids s) := by
  induction ids generalizing s values with
  | nil => exact guarded_one rfl (fun _ _ _ => event_exact rfl) trivial
  | cons jobId rest ih =>
    rw [loopWrites,guarded_append]
    refine ⟨turn_guarded jobId (fun job cmd opts t => redacts jobId s job cmd opts t .here) holds,?_⟩
    rcases ran : exec (runJob env pipeline jobId) s with ⟨message | error | ⟨⟨⟩⟩,m⟩
    · exact guarded_one rfl (fun _ _ _ => Iff.rfl) trivial
    · exact guarded_one rfl (fun _ _ _ => Iff.rfl) (guarded_one rfl (fun _ _ _ => event_exact rfl) trivial)
    · apply ih
      · intro other turn job cmd opts t arrives
        exact redacts other turn job cmd opts t (.next ran arrives)
      · exact turn_carries (holds_carries env.host) ran holds

theorem arrives_carries (carries : Carries env.host fact) (arrives : Arrives env pipeline ids s jobId t)
    (holds : fact s.runtime.registry values) : ∃ more, fact t.runtime.registry (values ++ more) := by
  induction arrives generalizing values with
  | here => exact ⟨[],by rwa [List.append_nil]⟩
  | next ran _ ih =>
    obtain ⟨more,later⟩ := ih (turn_carries carries ran holds)
    exact ⟨_,List.append_assoc _ _ _ ▸ later⟩

-- Wherever a run-fn asks for something, the fact holds.
theorem asked_carries (carries : Carries env.host fact) (asked : Asked env pipeline registry started jobId request s)
    (first : fact registry []) : ∃ values, fact s.runtime.registry values := by
  obtain ⟨jobs,vm,turn,job,_,_,arrives,_,_,asks⟩ := asked.run
  obtain ⟨values,reached⟩ := arrives_carries carries arrives first
  rcases runFn : job.runFn with call | call
  all_goals
    rw [runFn] at asks
    obtain ⟨more,holds⟩ := asks_carries carries asks reached
    exact ⟨_,holds⟩

-- A job that fails with what the server said about its token.
def failWith : Except RuntimeError ShOutput → Conduct Unit String
  | .error _ => .done () (.error "no curl")
  | .ok output => .done () (.error output.stdout)

def fetchWith : Except RuntimeError String → Conduct Unit String
  | .error _ => .done () (.error "no token")
  | .ok token => .sh (.argv "curl" ["-H",token]) ⟨[]⟩ failWith

def token : String := "s3cr3t-t0ken"

def fetchEnv (jobId : String) : Env Unit Unit where
  host := { quietHost with
    showTimestamp := fun _ => "2026-05-06T12:00:00Z"
    output := fun _ _ _ _ => (.ok (some 22,"bad token s3cr3t-t0ken\n",""),()) }
  lua := ⟨.ok (),fun vm _ _ => .ok ([.job jobId ["quire/push"] (fun _ => .secret "api_token" fetchWith) 1],vm),some,fun _ => true⟩
  petgraph := ⟨fun _ => [[0],[1]],fun _ => some [1,0],fun _ node => [[0,1],[1]].getD node []⟩
  workspace := "/work"
  logDir := "/logs"
  runMeta := ⟨"4b825dc","refs/heads/main","2026-05-06T12:00:00Z"⟩

def fetchWrites (jobId value : String) : List Happening :=
  runWrites (fetchEnv jobId) (SecretRegistry.new.seed (secrets "api_token" value)) ()

-- No secret but this one has been resolved or can be.
structure Only (name value : String) (registry : SecretRegistry) : Prop where
  cached : ∀ other secret, registry.cache.lookup other = some secret → other = name ∧ secret = .plain value
  revealed : ∀ other held, registry.revealed.lookup other = some held → other = name ∧ held = value

theorem only_seeded (name value : String) : Only name value (SecretRegistry.new.seed (secrets name value)) := by
  refine ⟨fun other secret found => ?_,fun other held found => ?_⟩
  · obtain ⟨same,plain⟩ | ⟨_,empty⟩ := lookup_insert_cases found
    · exact ⟨same,plain⟩
    · simp at empty
  · simp [SecretRegistry.new,SecretRegistry.seed] at found

theorem only_carries (jobId name value : String) : Carries (fetchEnv jobId).host fun registry _ => Only name value registry := by
  intro registry world asked values only
  unfold SecretRegistry.resolve
  cases cached : registry.cache.lookup asked with
  | none => exact only
  | some secret =>
    obtain ⟨rfl,rfl⟩ := only.cached asked secret cached
    have entered : ∀ other secret, (registry.cache.insert asked (.plain value)).lookup other = some secret →
        other = asked ∧ secret = .plain value := by
      intro other secret found
      obtain ⟨same,plain⟩ | ⟨_,before⟩ := lookup_insert_cases found
      · exact ⟨same,plain⟩
      · exact only.cached other secret before
    simp only [SecretString.reveal,SecretRegistry.register]
    split
    · refine ⟨entered,fun other held found => ?_⟩
      obtain ⟨same,held⟩ | ⟨_,before⟩ := lookup_insert_cases found
      · exact ⟨same,held⟩
      · exact only.revealed other _ before
    · exact ⟨entered,only.revealed⟩

theorem only_redacts (only : Only name value registry) (started : value.toList ≠ [])
    (apart : ¬ Touches value.toList (marker name).toList) : Redacts registry := by
  have single : ∀ entry ∈ patterns registry, entry = (value.toList,(marker name).toList) := by
    intro entry member
    obtain ⟨⟨other,held⟩,present,rfl⟩ := List.mem_map.mp member
    obtain ⟨rfl,rfl⟩ := only.revealed other held (mem_entries.mp present)
    rfl
  intro text other held found
  have member : (held.toList,(marker other).toList) ∈ patterns registry := List.mem_map.mpr ⟨(other,held),mem_entries.mpr found,rfl⟩
  rw [redact_toList]
  refine replaceEach_removes (fun entry member => ?_) ?_ member
  · rw [single entry member]
    exact started
  · intro turn earlier entry other _ found _ present
    rw [single entry (List.mem_of_getElem? found),single other (List.mem_of_getElem? present)]
    exact apart

theorem fetch_redacts (jobId : String) (started : value.toList ≠ []) (apart : ¬ Touches value.toList (marker "api_token").toList) :
    ∀ (pipeline : Pipeline (fetchEnv jobId).petgraph Unit) started asking cmd opts s,
      compileAt (fetchEnv jobId) () = (.ok pipeline,started) →
      Asked (fetchEnv jobId) pipeline (SecretRegistry.new.seed (secrets "api_token" value)) started asking (.sh cmd opts) s →
        Redacts s.runtime.registry := by
  intro pipeline _ asking cmd opts s _ asked
  obtain ⟨_,only⟩ := asked_carries (only_carries jobId "api_token" value) asked (only_seeded "api_token" value)
  exact only_redacts only started apart

def fetchLog : Happening :=
  .log "/logs/jobs/fetch/sh-1.log" "2026-05-06T12:00:00Z"
    ⟨22,"bad token \x7b\x7b api_token \x7d\x7d\n","","[\"curl\", \"-H\", \"\x7b\x7b api_token \x7d\x7d\"]"⟩

-- A job named after its secret shows it in its events,
theorem job_id_shows_token : ∃ before after,
    fetchWrites token token = before ++ .event (.jobFinished token .failed) :: after ∧ .returned token ∈ before ∧
      Happening.Contains token (.event (.jobFinished token .failed)) := by
  refine ⟨(fetchWrites token token).take 7,(fetchWrites token token).drop 8,by decide +kernel,by decide +kernel,token,?_⟩
  exact ⟨List.mem_singleton.mpr rfl,List.infix_refl _⟩

-- and a secret that reads like the stream column is in every log with a line.
theorem log_frame_shows_token : ∃ before path timestamp recorded after,
    fetchWrites "fetch" " stdout F " = before ++ .log path timestamp recorded :: after ∧ .returned " stdout F " ∈ before ∧
      Happening.Contains " stdout F " (.log path timestamp recorded) := by
  refine ⟨(fetchWrites "fetch" " stdout F ").take 6,"/logs/jobs/fetch/sh-1.log","2026-05-06T12:00:00Z",
    ⟨22,"bad token s3cr3t-t0ken\n","","[\"curl\", \"-H\", \"\x7b\x7b api_token \x7d\x7d\"]"⟩,
    (fetchWrites "fetch" " stdout F ").drop 7,by decide +kernel,by decide +kernel,?_⟩
  change " stdout F ".toList <:+: logText _ _
  decide +kernel

end Quire.RecordedOutput
