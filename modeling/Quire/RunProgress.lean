import Quire.RunProtocol

namespace Quire.RunProgress
open Secret Primitives JobPipeline JobOrder RunEvents RunStreams CiRuntime RunPipeline RunProtocol

structure Running where
  id : String
  startedAt : Int
  calls : List ShCall

-- Where a stream stands after the jobs that have finished.
inductive Standing where
  | between
  | inside (job : Running)
  | ended (finishedAt : Int) (outcome : RunOutcome)

structure Progress where
  done : List JobRun
  standing : Standing

def Standing.events : Standing → List Event
  | .between => []
  | .inside job => ⟨job.startedAt,.jobStarted job.id⟩ :: job.calls.flatMap (ShCall.events job.id)
  | .ended finishedAt outcome => [⟨finishedAt,.runFinished outcome⟩]

def Standing.ids : Standing → List String
  | .inside job => [job.id]
  | _ => []

def Progress.events (progress : Progress) : List Event :=
  progress.done.flatMap JobRun.events ++ progress.standing.events

def Progress.ids (progress : Progress) : List String := progress.done.map JobRun.id ++ progress.standing.ids

def RunStream.progress (stream : RunStream) : Progress := ⟨stream.jobs,.ended stream.finishedAt stream.outcome⟩

theorem cut_append {front left right : List α} (cut : front <+: left ++ right) :
    front <+: left ∨ ∃ more, front = left ++ more ∧ more <+: right := by
  rcases List.prefix_or_prefix_of_prefix cut (List.prefix_append left right) with inside | ⟨more,rfl⟩
  · exact .inl inside
  · exact .inr ⟨more,rfl,(List.prefix_append_right_inj left).mp cut⟩

-- A call cut after its start reads as one that was never spawned.
theorem cut_call {call : ShCall} (cut : events <+: ShCall.events jobId call) :
    ∃ calls : List ShCall, events = calls.flatMap (ShCall.events jobId) := by
  rcases call with ⟨cmd,startedAt,_ | ⟨finishedAt,exitCode⟩⟩
  · rcases List.prefix_cons_iff.mp cut with rfl | ⟨rest,rfl,nothing⟩
    · exact ⟨[],rfl⟩
    · exact ⟨[⟨cmd,startedAt,none⟩],by simp [List.prefix_nil.mp nothing,ShCall.events]⟩
  · rcases List.prefix_cons_iff.mp cut with rfl | ⟨rest,rfl,last⟩
    · exact ⟨[],rfl⟩
    · rcases List.prefix_cons_iff.mp last with rfl | ⟨rest,rfl,nothing⟩
      · exact ⟨[⟨cmd,startedAt,none⟩],rfl⟩
      · exact ⟨[⟨cmd,startedAt,some (finishedAt,exitCode)⟩],by simp [List.prefix_nil.mp nothing,ShCall.events]⟩

theorem cut_calls {calls : List ShCall} (cut : events <+: calls.flatMap (ShCall.events jobId)) :
    ∃ fewer : List ShCall, events = fewer.flatMap (ShCall.events jobId) := by
  induction calls generalizing events with
  | nil => exact ⟨[],List.prefix_nil.mp cut⟩
  | cons call rest ih =>
    rw [List.flatMap_cons] at cut
    rcases cut_append cut with inside | ⟨more,rfl,later⟩
    · exact cut_call inside
    · obtain ⟨fewer,rfl⟩ := ih later
      exact ⟨call :: fewer,rfl⟩

theorem cut_job {run : JobRun} (cut : events <+: run.events) :
    events = run.events ∨ ∃ standing : Standing, events = standing.events ∧ standing.ids <+: [run.id] := by
  rw [events_body] at cut
  rcases List.prefix_cons_iff.mp cut with rfl | ⟨rest,rfl,body⟩
  · exact .inr ⟨.between,rfl,by simp [Standing.ids]⟩
  · rcases cut_append body with inside | ⟨more,rfl,last⟩
    · obtain ⟨fewer,rfl⟩ := cut_calls inside
      exact .inr ⟨.inside ⟨run.id,run.startedAt,fewer⟩,rfl,by simp [Standing.ids]⟩
    · rcases List.prefix_cons_iff.mp last with rfl | ⟨rest,rfl,nothing⟩
      · exact .inr ⟨.inside ⟨run.id,run.startedAt,run.calls⟩,by simp [Standing.events],by simp [Standing.ids]⟩
      · exact .inl (by simp [List.prefix_nil.mp nothing,JobRun.events])

theorem cut_standing {standing : Standing} (cut : events <+: standing.events) :
    ∃ earlier : Standing, events = earlier.events ∧ earlier.ids <+: standing.ids := by
  cases standing with
  | between => exact ⟨.between,List.prefix_nil.mp cut,by simp [Standing.ids]⟩
  | inside job =>
    rcases List.prefix_cons_iff.mp cut with rfl | ⟨rest,rfl,calls⟩
    · exact ⟨.between,rfl,by simp [Standing.ids]⟩
    · obtain ⟨fewer,rfl⟩ := cut_calls calls
      exact ⟨.inside ⟨job.id,job.startedAt,fewer⟩,rfl,by simp [Standing.ids]⟩
  | ended finishedAt outcome =>
    rcases List.prefix_cons_iff.mp cut with rfl | ⟨rest,rfl,nothing⟩
    · exact ⟨.between,rfl,by simp [Standing.ids]⟩
    · exact ⟨.ended finishedAt outcome,by simp [List.prefix_nil.mp nothing,Standing.events],by simp [Standing.ids]⟩

-- What a stream shows up to any point is again the progress of a run.
theorem cut_progress {progress : Progress} (cut : events <+: progress.events) :
    ∃ earlier : Progress, events = earlier.events ∧ earlier.ids <+: progress.ids := by
  rcases progress with ⟨done,standing⟩
  induction done generalizing events with
  | nil =>
    have inside : events <+: standing.events := cut
    obtain ⟨earlier,rfl,front⟩ := cut_standing inside
    exact ⟨⟨[],earlier⟩,rfl,by simpa [Progress.ids] using front⟩
  | cons run rest ih =>
    rw [Progress.events,List.flatMap_cons,List.append_assoc] at cut
    rcases cut_append cut with inside | ⟨more,rfl,later⟩
    · rcases cut_job inside with rfl | ⟨earlier,rfl,front⟩
      · exact ⟨⟨[run],.between⟩,by simp [Progress.events,Standing.events],by simp [Progress.ids,Standing.ids]⟩
      · exact ⟨⟨[],earlier⟩,rfl,front.trans (by simp [Progress.ids])⟩
    · obtain ⟨⟨jobs,earlier⟩,rfl,front⟩ := ih later
      refine ⟨⟨run :: jobs,earlier⟩,by simp [Progress.events],?_⟩
      simpa [Progress.ids] using front

def startedId (event : Event) : Option String :=
  match event.kind with
  | .jobStarted jobId => some jobId
  | _ => none

theorem calls_started (calls : List ShCall) : (calls.flatMap (ShCall.events jobId)).filterMap startedId = [] := by
  apply List.filterMap_eq_nil_iff.mpr
  intro event member
  have sh := calls_sh member
  rcases event with ⟨atMs,kind⟩
  cases kind <;> simp_all [EventKind.shJob,startedId]

theorem progress_started (progress : Progress) : progress.events.filterMap startedId = progress.ids := by
  have job : ∀ run : JobRun, run.events.filterMap startedId = [run.id] := fun run => by
    simp [JobRun.events,List.filterMap_cons,startedId,calls_started]
  have standing : progress.standing.events.filterMap startedId = progress.standing.ids := by
    cases progress.standing <;> simp [Standing.events,Standing.ids,List.filterMap_cons,startedId,calls_started]
  rw [Progress.events,List.filterMap_append,standing,List.filterMap_flatMap]
  simp [job,Progress.ids,List.map_eq_flatMap]

-- Whatever jobs the events of a run are read as, they started once each.
theorem ids_nodup (distinct : (events.filterMap startedId).Nodup) {progress : Progress}
    (shown : events = progress.events) : progress.ids.Nodup := by
  rw [← progress_started,← shown]
  exact distinct

variable {World Vm : Type} {env : Env World Vm}

-- What petgraph documents, on the graph of whatever the workspace compiles to.
def DocumentedAt (env : Env World Vm) (world : World) : Prop :=
  ∀ pipeline started, compileAt env world = (.ok pipeline,started) → Documented env.petgraph pipeline.graph.shape

theorem runPipeline_progress (registry : SecretRegistry) (documented : DocumentedAt env world) :
    ∃ progress : Progress, (runPipeline env registry world).2 = progress.events ∧ progress.ids.Nodup ∧
      ((runPipeline env registry world).1 = .ok () →
        ∃ finishedAt outcome, progress.standing = .ended finishedAt outcome) := by
  rcases compiled : compileAt env world with ⟨error | pipeline,started⟩
  · refine ⟨⟨[],.ended (asMillisecond (env.host.now started).1) .pipelineFailure⟩,?_,List.nodup_nil,fun _ => ⟨_,_,rfl⟩⟩
    rw [runPipeline,compiled]
    rfl
  · obtain ⟨jobs,listed,ordered⟩ := jobs_order (documented pipeline started compiled)
    have sorted : pipeline.jobs.map (·.map Job.id) = some (jobs.map Job.id) := congrArg _ listed
    rw [runPipeline_compiled compiled sorted ordered]
    by_cases kept : KeepsRuntime env pipeline registry started (jobs.map Job.id)
    · obtain ⟨t,stream,ran,shown,follows⟩ := execute_kept ordered kept
      rw [ran]
      refine ⟨RunStream.progress stream,shown,?_,fun _ => ⟨_,_,rfl⟩⟩
      simpa [Progress.ids,RunStream.progress,Standing.ids] using ordered.nodup.sublist follows.front.sublist
    · obtain ⟨message,t,ran,shown⟩ := execute_broken ordered kept
      rw [ran]
      rcases shown with nothing | ⟨runs,atMs,jobId,last,front⟩
      · exact ⟨⟨[],.between⟩,nothing,by simp [Progress.ids,Standing.ids],by simp⟩
      · exact ⟨⟨runs,.inside ⟨jobId,atMs,[]⟩⟩,last,ordered.nodup.sublist front.sublist,by simp⟩

theorem runPipeline_started (registry : SecretRegistry) (documented : DocumentedAt env world) :
    ((runPipeline env registry world).2.filterMap startedId).Nodup := by
  obtain ⟨progress,shown,distinct,_⟩ := runPipeline_progress registry documented
  rw [shown,progress_started]
  exact distinct

theorem twoJobs_documented (left twice : Bool) : DocumentedAt (twoJobsEnv left twice) () := by
  intro pipeline started compiled
  obtain ⟨other,same,shape⟩ := twoJobs_compiles left twice
  cases same.symm.trans compiled
  exact shape ▸ chain_documented

end Quire.RunProgress
