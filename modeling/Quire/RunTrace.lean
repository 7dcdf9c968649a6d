import Quire.JobOrder
import Quire.RunPipeline

namespace Quire.RunTrace
open Primitives JobPipeline JobOrder Panicking RunEvents CiRuntime RunPipeline
variable {World Vm : Type}

-- Inside the window of a job: both cursors name it.
structure Inside (inputs : List (String × List (String × Option PushOutputs))) (jobId : String)
    (s : State World Vm) : Prop where
  pointer : s.currentJob = some jobId
  cursor : s.runtime.currentJob = some jobId
  inputs : s.runtime.inputs = inputs

variable {inputs : List (String × List (String × Option PushOutputs))}

abbrev Within (inputs : List (String × List (String × Option PushOutputs))) (jobId : String)
    (program : Exec World Vm α) (shape : List Event → Prop) : Prop :=
  Adds State.sink (Inside inputs jobId) program fun _ => shape

abbrev Quiet (inputs : List (String × List (String × Option PushOutputs))) (jobId : String)
    (program : Exec World Vm α) : Prop :=
  Silent State.sink (Inside inputs jobId) program

theorem exec_emit (host : Host World) (kind : EventKind) (s : State World Vm) :
    exec (emit host kind) s = (.ok (),{ s with
      world := (host.now s.world).2
      sink := s.sink ++ [⟨asMillisecond (host.now s.world).1,kind⟩] }) := rfl

theorem exec_ask (question : World → α × World) (s : State World Vm) :
    exec (ask question) s = (.ok (question s.world).1,{ s with world := (question s.world).2 }) := rfl

theorem ask_quiet (question : World → α × World) : Quiet inputs jobId (ask question : Exec World Vm α) :=
  silent_modifyGet (fun _ _ => rfl) fun _ inside => ⟨inside.pointer,inside.cursor,inside.inputs⟩

theorem emit_adds (host : Host World) (kind : EventKind) :
    Within inputs jobId (emit host kind : Exec World Vm Unit) fun added => ∃ atMs, added = [⟨atMs,kind⟩] :=
  fun _ inside => ⟨_,_,_,rfl,rfl,⟨_,rfl⟩,inside.pointer,inside.cursor,inside.inputs⟩

theorem eventCallback_adds (host : Host World) (event : RuntimeEvent) :
    Within inputs jobId (eventCallback host event : Exec World Vm Unit) fun added =>
      ∃ atMs, added = [⟨atMs,event.kind jobId⟩] := by
  apply ensures_get
  intro now inside
  rw [inside.pointer]
  exact emit_adds host (event.kind jobId)

theorem recordSh_quiet (host : Host World) (output : ShOutput) (startedAt finishedAt : Int) :
    Quiet inputs jobId (recordSh host jobId output startedAt finishedAt : Exec World Vm _) := by
  apply ensures_get
  intro now inside
  apply silent_bind (ask_quiet _)
  intro made
  split
  · exact adds_pure rfl
  · apply silent_bind (ask_quiet _)
    intro wrote
    split
    · exact adds_pure rfl
    · refine silent_bind (silent_modifyGet (fun _ _ => rfl) fun _ within => ?_) fun _ => adds_pure rfl
      exact ⟨within.pointer,within.cursor,within.inputs⟩

-- Starting the call shows it, and only a process that ran shows its end.
theorem sh_adds (host : Host World) (cmd : Cmd) (opts : ShOpts) :
    Within inputs jobId (Runtime.sh host cmd opts : Exec World Vm _) fun added =>
      ∃ call : ShCall, added = call.events jobId := by
  apply silent_bind (ask_quiet _)
  intro startedAt
  apply ensures_get
  intro now inside
  simp only [inside.cursor,Option.isSome_some,if_true]
  apply adds_bind (eventCallback_adds host _)
  intro _ first shown
  obtain ⟨shownAt,rfl⟩ := shown
  refine silent_bind (silent_bind (ask_quiet _) fun _ => adds_pure rfl) fun output => ?_
  split
  · exact adds_pure ⟨⟨_,shownAt,none⟩,rfl⟩
  · apply silent_bind (ask_quiet _)
    intro finishedAt
    apply adds_bind (eventCallback_adds host _)
    intro _ last ended
    obtain ⟨endedAt,rfl⟩ := ended
    apply silent_bind (recordSh_quiet host _ _ _)
    intro recorded
    exact adds_pure ⟨⟨_,shownAt,some (endedAt,_)⟩,rfl⟩

theorem secret_quiet (host : Host World) (name : String) :
    Quiet inputs jobId (Runtime.secret host name : Exec World Vm _) := by
  apply silent_bind (ask_quiet _)
  intro sources
  apply ensures_get
  intro now inside
  refine silent_bind (silent_modifyGet (fun _ _ => rfl) fun _ within => ?_) fun _ => adds_pure rfl
  exact ⟨within.pointer,within.cursor,within.inputs⟩

theorem jobs_quiet (viewed : (inputs.lookup jobId).isSome = true) (name : String) :
    Quiet inputs jobId (Runtime.jobs name : Exec World Vm _) := by
  apply ensures_get
  intro now inside
  obtain ⟨view,found⟩ := Option.isSome_iff_exists.mp viewed
  simp only [inside.cursor,inside.inputs,found]
  apply silent_bind (adds_pure rfl)
  intro view
  split
  · exact adds_pure rfl
  · split
    · exact adds_pure rfl
    · exact adds_pure rfl

-- A run-fn shows its sh calls, one after the other, whatever it does with
-- their results.
theorem perform_adds {Failure : Type} (host : Host World) (viewed : (inputs.lookup jobId).isSome = true)
    (conduct : Conduct Vm Failure) :
    Within inputs jobId (perform host conduct : Exec World Vm _) fun added =>
      ∃ calls : List ShCall, added = calls.flatMap (ShCall.events jobId) := by
  induction conduct with
  | done vm result =>
    refine silent_bind (silent_modifyGet (fun _ _ => rfl) fun _ within => ?_) fun _ => adds_pure ⟨[],rfl⟩
    exact ⟨within.pointer,within.cursor,within.inputs⟩
  | sh cmd opts next ih =>
    apply adds_bind (sh_adds host cmd opts)
    intro answer first shown
    obtain ⟨call,rfl⟩ := shown
    apply (ih answer).weaken (fun _ within => within)
    intro _ added t rest
    obtain ⟨⟨calls,rfl⟩,within⟩ := rest
    exact ⟨⟨call :: calls,rfl⟩,within⟩
  | secret name next ih => exact silent_bind (secret_quiet host name) ih
  | jobs name next ih => exact silent_bind (jobs_quiet viewed name) ih

variable {env : Env World Vm} {pipeline : Pipeline env.petgraph Vm}

theorem callRunFn_adds (viewed : (inputs.lookup jobId).isSome = true) (runFn : RunFn Vm) :
    Within inputs jobId (callRunFn env pipeline runFn) fun added =>
      ∃ calls : List ShCall, added = calls.flatMap (ShCall.events jobId) := by
  cases runFn with
  | lua call | rust call =>
    apply ensures_get
    intro now inside
    apply adds_bind (perform_adds env.host viewed _)
    intro result added shown
    exact adds_pure (by simpa using shown)

-- The state in which the run-fn of a job is called.
def entered (host : Host World) (jobId : String) (s : State World Vm) : State World Vm :=
  { s with
    world := (host.now s.world).2
    sink := s.sink ++ [⟨asMillisecond (host.now s.world).1,.jobStarted jobId⟩]
    currentJob := some jobId
    runtime := { s.runtime with currentJob := some jobId } }

def finishJob (env : Env World Vm) (jobId : String) (result : Except JobError Unit) :
    Exec World Vm (Except JobError Unit) := do
  Runtime.leaveJob
  emit env.host (.jobFinished jobId (jobOutcome result))
  modify fun s => { s with currentJob := none }
  return result

theorem exec_runJob {s : State World Vm} (found : pipeline.job jobId = some job)
    (viewed : (s.runtime.inputs.lookup jobId).isSome = true) :
    exec (runJob env pipeline jobId) s =
      if env.lua.runtimeTable s.vm = true then
        exec (callRunFn env pipeline job.runFn >>= finishJob env jobId) (entered env.host jobId s)
      else (.error "runtime table should be installed",entered env.host jobId s) := by
  by_cases installed : env.lua.runtimeTable s.vm = true
  · simp only [runJob,exec_bind,exec_modify,exec_emit,found,expecting,exec_pure,Runtime.enterJob,exec_get,asserting,
      viewed,installed,if_true]
    rfl
  · simp only [runJob,exec_bind,exec_modify,exec_emit,found,expecting,exec_pure,Runtime.enterJob,exec_get,asserting,
      viewed,installed,if_true]
    rfl

theorem finishJob_adds (result : Except JobError Unit) :
    Ensures State.sink (Inside inputs jobId) (finishJob env jobId result) fun ended added t =>
      (∃ atMs, added = [⟨atMs,.jobFinished jobId (jobOutcome result)⟩]) ∧ ended = result ∧ t.runtime.inputs = inputs :=
  fun _ inside => ⟨_,_,_,rfl,rfl,⟨_,rfl⟩,rfl,inside.inputs⟩

theorem turn_adds (viewed : (inputs.lookup jobId).isSome = true) (runFn : RunFn Vm) :
    Ensures State.sink (Inside inputs jobId) (callRunFn env pipeline runFn >>= finishJob env jobId)
      fun result added t => t.runtime.inputs = inputs ∧ ∃ (calls : List ShCall) (finishedAt : Int),
        added = calls.flatMap (ShCall.events jobId) ++ [⟨finishedAt,.jobFinished jobId (jobOutcome result)⟩] := by
  apply adds_bind (callRunFn_adds viewed runFn)
  intro result added shown
  obtain ⟨calls,rfl⟩ := shown
  apply (finishJob_adds result).weaken (fun _ inside => inside)
  intro ended added t last
  obtain ⟨⟨finishedAt,rfl⟩,rfl,same⟩ := last
  exact ⟨same,calls,finishedAt,rfl⟩

-- A turn of the loop shows exactly one job, whatever its run-fn does.
theorem runJob_adds (found : pipeline.job jobId = some job) (viewed : (inputs.lookup jobId).isSome = true) :
    Ensures State.sink (fun s => s.runtime.inputs = inputs ∧ env.lua.runtimeTable s.vm = true) (runJob env pipeline jobId)
      fun result added t => t.runtime.inputs = inputs ∧
        ∃ run : JobRun, added = run.events ∧ run.id = jobId ∧ run.outcome = jobOutcome result := by
  intro s entering
  obtain ⟨rfl,installed⟩ := entering
  have turn : Ensures State.sink _ (callRunFn env pipeline job.runFn >>= finishJob env jobId) _ := turn_adds viewed job.runFn
  obtain ⟨result,t,added,ran,logged,same,calls,finishedAt,rfl⟩ := turn (entered env.host jobId s) ⟨rfl,rfl,rfl⟩
  rw [exec_runJob found viewed,if_pos installed]
  refine ⟨result,t,_,ran,?_,same,⟨jobId,asMillisecond (env.host.now s.world).1,calls,jobOutcome result,finishedAt⟩,rfl,rfl,rfl⟩
  rw [logged]
  simp [entered,JobRun.events]

theorem runJob_stops {s : State World Vm} (found : pipeline.job jobId = some job)
    (viewed : (s.runtime.inputs.lookup jobId).isSome = true) (missing : env.lua.runtimeTable s.vm ≠ true) :
    ∃ t atMs, exec (runJob env pipeline jobId) s = (.error "runtime table should be installed",t) ∧
      t.sink = s.sink ++ [⟨atMs,.jobStarted jobId⟩] :=
  ⟨_,_,by rw [exec_runJob found viewed,if_neg missing],rfl⟩

end Quire.RunTrace
