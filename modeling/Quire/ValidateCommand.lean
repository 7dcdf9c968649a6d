import Quire.RunProgress

namespace Quire.ValidateCommand
open Secret Primitives JobPipeline JobOrder Panicking RunEvents RunStreams CiRuntime RunPipeline RunProtocol RunProgress
variable {World Vm : Type}

-- What a command prints, one string for each `println!`, and how it ends: with
-- a result, or with the message of a panic.
structure Shown (ε : Type) where
  printed : List String
  ended : Except String (Except ε Unit)
  deriving DecidableEq

def jobLine (arrow : String) (job : Job Vm) : String := "  " ++ job.id ++ " " ++ arrow ++ " [" ++ ", ".intercalate job.inputs ++ "]"

def passed : String := "\nAll validations passed."

-- What is printed of a pipeline with jobs. The list of jobs is asked for after
-- the lines above it.
def showJobs {ε : Type} {petgraph : Petgraph} (arrow : String) (above : List String) (pipeline : Pipeline petgraph Vm) : Shown ε :=
  match pipeline.jobs with
  | none => ⟨above,.error "pipeline is validated as acyclic"⟩
  | some jobs => ⟨above ++ jobs.map (jobLine arrow) ++ [passed],.ok (.ok ())⟩

def imageLines (image : Option String) : List String := (image.map ("Image: " ++ ·)).toList

-- `validate` of quire-ci.
def validate (env : Env World Vm) (world : World) : Shown CompileError :=
  match (compileAt env world).1 with
  | .error error => ⟨[],.ok (.error error)⟩
  | .ok pipeline =>
    if pipeline.graph.jobs.length = 0 then ⟨["No jobs registered."],.ok (.ok ())⟩
    else showJobs "<-" (imageLines pipeline.image ++ ["Jobs (topological order):"]) pipeline

-- Where quire-ci looks for its script.
def scriptPath (env : Env World Vm) : String := joinPath (joinPath env.workspace ".quire") "ci.fnl"

def script (env : Env World Vm) (world : World) : Except String String := (env.host.readToString (scriptPath env) world).1

-- The run of a pipeline with this list of jobs: it starts them from the front
-- of the list, and if it ends well it goes on to the end or the first failure.
structure Follows (jobs : List (Job Vm)) (run : Except String Unit × List Event) : Prop where
  started : run.2.filterMap startedId <+: jobs.map Job.id
  whole : run.1 = .ok () → ∃ stream : RunStream, run.2 = stream.events ∧ RunStreams.Follows (jobs.map Job.id) stream

-- A list of jobs in which everything a job names stands above it.
def Sorted (jobs : List (Job Vm)) : Prop :=
  ∀ earlier job later, jobs = earlier ++ job :: later → ∀ input ∈ job.inputs, input ∈ jobs.map Job.id → input ∈ earlier.map Job.id

-- The stream of a run whose script does not compile.
def Rejected (run : Except String Unit × List Event) : Prop := ∃ atMs, run = (.ok (),[⟨atMs,.runFinished .pipelineFailure⟩])

variable {env : Env World Vm} {now later : World}

-- The same script compiles in the same way, whatever else the world is like.
theorem compileAt_script (same : script env now = script env later) : (compileAt env now).1 = (compileAt env later).1 := by
  simp only [script,scriptPath] at same
  unfold compileAt
  rcases before : env.host.readToString (joinPath (joinPath env.workspace ".quire") "ci.fnl") now with ⟨_ | _,_⟩ <;>
    rcases after : env.host.readToString (joinPath (joinPath env.workspace ".quire") "ci.fnl") later with ⟨_ | _,_⟩ <;>
    simp_all

theorem compileAt_world (same : script env now = script env later) (compiled : (compileAt env now).1 = answer) :
    ∃ started, compileAt env later = (answer,started) :=
  ⟨(compileAt env later).2,Prod.ext ((compileAt_script same).symm.trans compiled) rfl⟩

section Listing
variable {petgraph : Petgraph} {pipeline : Pipeline petgraph Vm} {jobs : List (Job Vm)}

theorem jobs_listed (listed : pipeline.jobs = some jobs) (member : job ∈ jobs) : job ∈ pipeline.graph.jobs := by
  obtain ⟨order,_,rfl⟩ := Option.map_eq_some_iff.mp listed
  obtain ⟨idx,_,found⟩ := List.mem_filterMap.mp member
  exact List.mem_of_getElem? found

theorem order_sorted (listed : pipeline.jobs = some jobs) (ordered : Order pipeline (jobs.map Job.id)) : Sorted jobs := by
  intro earlier job later split input named present
  have inside : job ∈ pipeline.graph.jobs := jobs_listed listed (split ▸ List.mem_append_right _ List.mem_cons_self)
  have direct : Input pipeline input job.id := ⟨(ordered.members input).mp present,job,inside,rfl,named⟩
  have ids : jobs.map Job.id = earlier.map Job.id ++ job.id :: later.map Job.id := by simp [split]
  exact ordered.ancestor (.single direct) ids

theorem order_perm (ordered : Order pipeline ids) : ids.Perm (pipeline.graph.jobs.map Job.id) := by
  apply (List.perm_ext_iff_of_nodup ordered.nodup pipeline.distinct).mpr
  intro name
  rw [ordered.members,List.mem_map]

end Listing

-- What a run of a compiled pipeline makes of the list.
theorem run_follows {pipeline : Pipeline env.petgraph Vm} {jobs : List (Job Vm)} (registry : SecretRegistry)
    (compiled : compileAt env later = (.ok pipeline,started)) (listed : pipeline.jobs = some jobs)
    (ordered : Order pipeline (jobs.map Job.id)) : Follows jobs (runPipeline env registry later) := by
  have sorted : pipeline.jobs.map (·.map Job.id) = some (jobs.map Job.id) := congrArg _ listed
  rw [runPipeline_compiled compiled sorted ordered]
  by_cases kept : KeepsRuntime env pipeline registry started (jobs.map Job.id)
  · obtain ⟨t,stream,ran,shown,follows⟩ := execute_kept ordered kept
    rw [ran]
    refine ⟨?_,fun _ => ⟨stream,shown,follows⟩⟩
    have ids : t.sink.filterMap startedId = stream.jobs.map JobRun.id := by
      rw [shown]
      exact (progress_started (RunStream.progress stream)).trans (List.append_nil _)
    rw [ids]
    exact follows.front
  · obtain ⟨message,t,ran,shown⟩ := execute_broken ordered kept
    rw [ran]
    refine ⟨?_,by simp⟩
    rcases shown with nothing | ⟨runs,atMs,jobId,last,front⟩
    · simp [nothing]
    · have ids : t.sink.filterMap startedId = runs.map JobRun.id ++ [jobId] := by
        rw [last]
        exact progress_started ⟨runs,.inside ⟨jobId,atMs,[]⟩⟩
      rw [ids]
      exact front

theorem follows_accepted (stream : RunStream) (follows : RunStreams.Follows ids stream) (atMs : Int) :
    stream.events ≠ [⟨atMs,.runFinished .pipelineFailure⟩] := by
  intro only
  obtain ⟨none,verdict⟩ : stream.jobs = [] ∧ stream.outcome = .pipelineFailure := by
    cases jobs : stream.jobs with
    | nil =>
      simp [RunStream.events,jobs] at only
      exact ⟨rfl,only.2⟩
    | cons run rest =>
      rw [RunStream.events,jobs,List.flatMap_cons,events_body] at only
      simp at only
  obtain ⟨run,last,_⟩ := follows.verdict.mp verdict
  simp [none] at last

theorem follows_unrejected {jobs : List (Job Vm)} (follows : Follows jobs run) : ¬ Rejected run := by
  rintro ⟨atMs,rfl⟩
  obtain ⟨stream,shown,whole⟩ := follows.whole rfl
  exact follows_accepted stream whole atMs shown.symm

end Quire.ValidateCommand
