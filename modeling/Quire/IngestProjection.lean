import Quire.EventFile
import Quire.IngestRows

namespace Quire.IngestProjection
open KeyedTable RunsTable JobsTable Secret Autocommit RunEvents RunPipeline RunProtocol RunProgress Ingest IngestRows EventFile

-- The at_ms of the JobStarted of a job.
def startOf (events : List Event) (jobId : String) : Option Int :=
  events.findSome? fun event => if event.kind = .jobStarted jobId then some event.atMs else none

def finishedRow (runId : String) (events : List Event) (event : Event) : Option JobRow :=
  match event.kind with
  | .jobFinished jobId outcome => some ⟨runId,jobId,jobState outcome,none,startOf events jobId,some event.atMs⟩
  | _ => none

-- One row for each JobFinished.
def finishedJobs (runId : String) (events : List Event) : List JobRow := events.filterMap (finishedRow runId events)

def callRow (runId : String) (pair : Event × Event) : Option ShRow :=
  match pair.1.kind,pair.2.kind with
  | .shStarted jobId cmd,.shFinished other exitCode =>
    if jobId = other then some ⟨runId,jobId,pair.1.atMs,pair.2.atMs,exitCode,cmd⟩ else none
  | _,_ => none

-- One row for each ShStarted with its ShFinished right behind it.
def finishedCalls (runId : String) (events : List Event) : List ShRow :=
  (events.zip events.tail).filterMap (callRow runId)

def runVerdict (events : List Event) : Option RunOutcome :=
  events.findSome? fun event =>
    match event.kind with
    | .runFinished outcome => some outcome
    | _ => none

-- What an ingest that returned Ok has made of the events.
structure Projects (runId : String) (events : List Event) (before after : Db) (returned : Option RunOutcome) : Prop where
  verdict : returned = runVerdict events
  jobs : after.jobs.rows = before.jobs.rows ++ finishedJobs runId events
  sh : after.sh.rows = before.sh.rows ++ finishedCalls runId events
  runs : after.runs = before.runs

theorem startOf_unique {events : List Event} (distinct : (events.filterMap startedId).Nodup)
    (member : ⟨atMs,.jobStarted jobId⟩ ∈ events) : startOf events jobId = some atMs := by
  induction events with
  | nil => cases member
  | cons event rest ih =>
    rw [startOf,List.findSome?_cons]
    rcases List.mem_cons.mp member with rfl | later
    · simp
    · by_cases own : event.kind = .jobStarted jobId
      · have named : startedId event = some jobId := by simp [startedId,own]
        rw [List.filterMap_cons_some named,List.nodup_cons] at distinct
        have again : jobId ∈ rest.filterMap startedId := List.mem_filterMap.mpr ⟨_,later,rfl⟩
        exact absurd again distinct.1
      · rw [if_neg own]
        refine ih ?_ later
        exact distinct.sublist ((List.sublist_cons_self event rest).filterMap _)

theorem calls_unfinished {calls : List ShCall} (runId : String) (events : List Event) :
    (calls.flatMap (ShCall.events jobId)).filterMap (finishedRow runId events) = [] := by
  apply List.filterMap_eq_nil_iff.mpr
  intro event member
  have sh := RunStreams.calls_sh member
  rcases event with ⟨atMs,kind⟩
  cases kind <;> simp_all [EventKind.shJob,finishedRow]

theorem finishedRow_run {events : List Event} (run : JobRun) (start : startOf events run.id = some run.startedAt) :
    run.events.filterMap (finishedRow runId events) = [JobRun.row runId run] := by
  have started : finishedRow runId events ⟨run.startedAt,.jobStarted run.id⟩ = none := rfl
  rw [JobRun.events,List.filterMap_append,List.filterMap_cons_none started,calls_unfinished]
  simp [finishedRow,start,JobRun.row]

theorem filterMap_progress (progress : Progress) (row : Event → Option α) : progress.events.filterMap row =
    (progress.done.flatMap fun run => run.events.filterMap row) ++ progress.standing.events.filterMap row := by
  rw [Progress.events,List.filterMap_append,List.filterMap_flatMap]

theorem finishedJobs_progress (progress : Progress) (distinct : progress.ids.Nodup) :
    finishedJobs runId progress.events = Progress.jobRows runId progress := by
  have standing : progress.standing.events.filterMap (finishedRow runId progress.events) = [] := by
    cases progress.standing with
    | between | ended => rfl
    | inside job =>
      exact (List.filterMap_cons_none rfl).trans (calls_unfinished runId progress.events)
  have started : ∀ run ∈ progress.done, startOf progress.events run.id = some run.startedAt := by
    intro run member
    apply startOf_unique (by rw [progress_started]; exact distinct)
    exact List.mem_append_left _ (List.mem_flatMap.mpr ⟨run,member,by simp [JobRun.events]⟩)
  rw [finishedJobs,filterMap_progress,standing,List.append_nil,Progress.jobRows,List.map_eq_flatMap]
  exact List.flatMap_congr fun run member => finishedRow_run run (started run member)

theorem finishedCalls_cons (runId : String) (first second : Event) (rest : List Event) :
    finishedCalls runId (first :: second :: rest) =
      (callRow runId (first,second)).toList ++ finishedCalls runId (second :: rest) := by
  simp only [finishedCalls,List.tail_cons,List.zip_cons_cons,List.filterMap_cons]
  cases callRow runId (first,second) <;> rfl

def startsCall (event : Event) : Bool :=
  match event.kind with
  | .shStarted _ _ => true
  | _ => false

def endsCall (event : Event) : Bool :=
  match event.kind with
  | .shFinished _ _ => true
  | _ => false

-- Only a call's start can bring a row.
theorem finishedCalls_skip (rest : List Event) (other : startsCall event = false) :
    finishedCalls runId (event :: rest) = finishedCalls runId rest := by
  cases rest with
  | nil => rfl
  | cons next rest =>
    have none : callRow runId (event,next) = none := by
      rcases event with ⟨atMs,kind⟩
      cases kind <;> simp_all [startsCall,callRow]
    rw [finishedCalls_cons,none]
    rfl

-- A start with no end behind it brings none.
theorem finishedCalls_alone (rest : List Event) (next : ∀ event ∈ rest.head?, endsCall event = false) :
    finishedCalls runId (⟨atMs,.shStarted jobId cmd⟩ :: rest) = finishedCalls runId rest := by
  cases rest with
  | nil => rfl
  | cons event rest =>
    have other := next event rfl
    have none : callRow runId (⟨atMs,.shStarted jobId cmd⟩,event) = none := by
      rcases event with ⟨_,kind⟩
      cases kind <;> simp_all [endsCall,callRow]
    rw [finishedCalls_cons,none]
    rfl

theorem head_calls (calls : List ShCall) (next : ∀ event ∈ rest.head?, endsCall event = false) :
    ∀ event ∈ (calls.flatMap (ShCall.events jobId) ++ rest).head?, endsCall event = false := by
  cases calls with
  | nil => exact next
  | cons call later =>
    intro event member
    cases member
    rfl

-- The calls of a job, before something that ends no call.
theorem finishedCalls_calls (calls : List ShCall) (next : ∀ event ∈ rest.head?, endsCall event = false) :
    finishedCalls runId (calls.flatMap (ShCall.events jobId) ++ rest) = callRows runId jobId calls ++ finishedCalls runId rest := by
  induction calls with
  | nil => rfl
  | cons call later ih =>
    rw [List.flatMap_cons,List.append_assoc]
    rcases call with ⟨cmd,startedAt,_ | ⟨finishedAt,exitCode⟩⟩
    · exact (finishedCalls_alone _ (head_calls later next)).trans ih
    · have row : callRow runId (⟨startedAt,.shStarted jobId cmd⟩,⟨finishedAt,.shFinished jobId exitCode⟩) =
          some ⟨runId,jobId,startedAt,finishedAt,exitCode,cmd⟩ := if_pos rfl
      apply (finishedCalls_cons runId _ _ _).trans
      rw [row,finishedCalls_skip _ rfl]
      exact congrArg (_ :: ·) ih

theorem finishedCalls_job (run : JobRun) (rest : List Event) :
    finishedCalls runId (run.events ++ rest) = callRows runId run.id run.calls ++ finishedCalls runId rest := by
  rw [JobRun.events,List.cons_append,List.cons_append,List.append_assoc,finishedCalls_skip _ rfl,
    finishedCalls_calls run.calls (by rintro event ⟨⟩; rfl)]
  exact congrArg _ (finishedCalls_skip _ rfl)

theorem finishedCalls_standing (standing : Standing) : finishedCalls runId standing.events = Standing.shRows runId standing := by
  cases standing with
  | between | ended => rfl
  | inside job =>
    have calls : finishedCalls runId (job.calls.flatMap (ShCall.events job.id) ++ []) = callRows runId job.id job.calls ++ [] :=
      finishedCalls_calls job.calls (by simp)
    rw [List.append_nil,List.append_nil] at calls
    exact (finishedCalls_skip _ rfl).trans calls

theorem finishedCalls_progress (progress : Progress) : finishedCalls runId progress.events = Progress.shRows runId progress := by
  rcases progress with ⟨done,standing⟩
  induction done with
  | nil => exact finishedCalls_standing standing
  | cons run rest ih =>
    rw [Progress.events,List.flatMap_cons,List.append_assoc,finishedCalls_job,Progress.shRows,List.flatMap_cons,List.append_assoc]
    exact congrArg _ ih

theorem runVerdict_progress (progress : Progress) : runVerdict progress.events = Standing.verdict progress.standing := by
  have calls : ∀ jobId (calls : List ShCall), runVerdict (calls.flatMap (ShCall.events jobId)) = none := by
    intro jobId calls
    refine List.findSome?_eq_none_iff.mpr fun event member => ?_
    have sh := RunStreams.calls_sh member
    rcases event with ⟨atMs,kind⟩
    cases kind <;> simp_all [EventKind.shJob]
  have job : ∀ run : JobRun, runVerdict run.events = none := by
    intro run
    have inside := calls run.id run.calls
    simp only [runVerdict] at inside
    simp [runVerdict,JobRun.events,List.findSome?_append,inside]
  have standing : runVerdict progress.standing.events = Standing.verdict progress.standing := by
    cases progress.standing with
    | between | ended => rfl
    | inside job => exact calls job.id job.calls
  have done : runVerdict (progress.done.flatMap JobRun.events) = none := by
    refine List.findSome?_eq_none_iff.mpr fun event member => ?_
    obtain ⟨run,_,inside⟩ := List.mem_flatMap.mp member
    exact List.findSome?_eq_none_iff.mp (job run) event inside
  rw [runVerdict] at done
  rw [Progress.events,runVerdict,List.findSome?_append,done]
  exact standing

-- The passes keep to the rows of the events, and an Ok says that all went in.
theorem ingest_ok {db after : Db} {progress : Progress} (parsed : codec.parse bytes = some progress.events)
    (ingested : ingestEvents codec runId (.ok bytes) db = (.ok returned,after)) :
    returned = Standing.verdict progress.standing ∧
      after.jobs.rows = db.jobs.rows ++ Progress.jobRows runId progress ∧
      after.sh.rows = db.sh.rows ++ Progress.shRows runId progress ∧ after.runs = db.runs := by
  obtain ⟨jobs,_,tookJobs,wholeJobs⟩ := applyAll_taken insertJob_appends (Progress.jobRows runId progress) db
  obtain ⟨runsKept,shKept⟩ := jobPass_keeps (Progress.jobRows runId progress) db
  simp only [ingestEvents,parsed,records_progress runId progress _ db] at ingested
  rcases pass : applyAll Db.insertJob (Progress.jobRows runId progress) db with ⟨error | ⟨⟨⟩⟩,middle⟩
  · rw [pass] at ingested
    cases ingested
  · rw [pass] at ingested tookJobs wholeJobs runsKept shKept
    obtain ⟨sh,_,tookSh,wholeSh⟩ := applyAll_taken insertSh_appends (Progress.shRows runId progress) middle
    obtain ⟨runsStill,jobsStill⟩ := shPass_keeps (Progress.shRows runId progress) middle
    simp only [Except.map,writes_progress runId progress _ middle] at ingested
    rcases last : applyAll Db.insertSh (Progress.shRows runId progress) middle with ⟨error | ⟨⟨⟩⟩,final⟩
    · rw [last] at ingested
      cases ingested
    · rw [last] at ingested tookSh wholeSh runsStill jobsStill
      cases ingested
      refine ⟨rfl,?_,?_,runsStill.trans runsKept⟩
      · rw [jobsStill,tookJobs,wholeJobs.mp rfl]
      · rw [tookSh,wholeSh.mp rfl,shKept]

variable {World Vm : Type} {codec : Codec}

-- The file holds the stream of a run as far as the process came to write it,
-- all of it when the process was not killed.
theorem ingest_projects (env : Env World Vm) (registry : SecretRegistry) (world : World) (documented : DocumentedAt env world)
    (faithful : Faithful codec (runPipeline env registry world).2)
    (cut : bytes <+: codec.jsonl (runPipeline env registry world).2) (runId : String) (db after : Db)
    (ingested : ingestEvents codec runId (.ok bytes) db = (.ok returned,after)) :
    ∃ events, events <+: (runPipeline env registry world).2 ∧ codec.parse bytes = some events ∧
      (bytes = codec.jsonl (runPipeline env registry world).2 → events = (runPipeline env registry world).2) ∧
      Projects runId events db after returned := by
  rcases parse_cut faithful cut with ⟨_,parsed⟩ | ⟨_,refused⟩
  · refine ⟨_,shown_front codec _ bytes,parsed,fun whole => ?_,?_⟩
    · have read := parse_jsonl faithful
      rw [← whole,parsed] at read
      exact Option.some.inj read
    · obtain ⟨progress,streamed,distinct,_⟩ := runPipeline_progress registry documented
      obtain ⟨earlier,same,front⟩ := cut_progress (streamed ▸ shown_front codec (runPipeline env registry world).2 bytes)
      rw [streamed] at parsed ⊢
      rw [same] at parsed ⊢
      obtain ⟨verdict,jobs,sh,runs⟩ := ingest_ok parsed ingested
      refine ⟨verdict.trans (runVerdict_progress earlier).symm,?_,?_,runs⟩
      · rw [jobs,finishedJobs_progress earlier (distinct.sublist front.sublist)]
      · rw [sh,finishedCalls_progress]
  · simp only [ingestEvents,refused] at ingested
    cases ingested

theorem ingest_projects_sample : ∃ returned after,
    ingestEvents (plainCodec (sampleEvents false)) "run-1" (.ok ((plainCodec (sampleEvents false)).jsonl (sampleEvents false)))
      sampleDb = (.ok returned,after) ∧
    ∃ events, events <+: sampleEvents false ∧
      (plainCodec (sampleEvents false)).parse ((plainCodec (sampleEvents false)).jsonl (sampleEvents false)) = some events ∧
      ((plainCodec (sampleEvents false)).jsonl (sampleEvents false) =
        (plainCodec (sampleEvents false)).jsonl (sampleEvents false) → events = sampleEvents false) ∧
      Projects "run-1" events sampleDb after returned := by
  have fine : (ingestEvents (plainCodec (sampleEvents false)) "run-1"
      (.ok ((plainCodec (sampleEvents false)).jsonl (sampleEvents false))) sampleDb).1.isOk = true := by
    decide +kernel
  rcases result : ingestEvents (plainCodec (sampleEvents false)) "run-1"
      (.ok ((plainCodec (sampleEvents false)).jsonl (sampleEvents false))) sampleDb with ⟨error | returned,after⟩
  · rw [result] at fine
    cases fine
  · exact ⟨returned,after,rfl,ingest_projects (twoJobsEnv true false) SecretRegistry.new () (twoJobs_documented true false)
      (sample_faithful false) (List.prefix_refl _) "run-1" sampleDb after result⟩

end Quire.IngestProjection
