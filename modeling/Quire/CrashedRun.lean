import Quire.EventFile
import Quire.IngestRows

namespace Quire.CrashedRun
open LineFraming Secret RunsTable JobsTable RunEvents RunPipeline RunProtocol RunProgress Ingest IngestRows EventFile

-- The database holds every row the events stand for, each as often as they do.
structure Kept (runId : String) (progress : Progress) (after : Db) : Prop where
  jobs : (Progress.jobRows runId progress).Subperm after.jobs.rows
  sh : (Progress.shRows runId progress).Subperm after.sh.rows

-- Nothing has been completed.
structure Blank (progress : Progress) : Prop where
  done : progress.done = []
  running : ∀ job, progress.standing = .inside job → completed job.calls = []

theorem jobRows_own (runId : String) (progress : Progress) : ∀ row ∈ Progress.jobRows runId progress, row.runId = runId := by
  intro row member
  obtain ⟨run,_,rfl⟩ := List.mem_map.mp member
  rfl

theorem shRows_own (runId : String) (progress : Progress) : ∀ row ∈ Progress.shRows runId progress, row.runId = runId := by
  have calls : ∀ jobId (calls : List ShCall), ∀ row ∈ callRows runId jobId calls, row.runId = runId :=
    fun jobId calls row member => congrArg Prod.fst (callRows_job member)
  intro row member
  rcases List.mem_append.mp member with finished | running
  · obtain ⟨run,_,inside⟩ := List.mem_flatMap.mp finished
    exact calls _ _ row inside
  · cases standing : progress.standing with
    | inside job => exact calls _ _ row (by simpa [Standing.shRows,standing] using running)
    | between => simp [Standing.shRows,standing] at running
    | ended finishedAt outcome => simp [Standing.shRows,standing] at running

theorem blank_iff (runId : String) {progress : Progress} :
    Blank progress ↔ Progress.jobRows runId progress = [] ∧ Progress.shRows runId progress = [] := by
  constructor
  · intro blank
    obtain ⟨done,running⟩ := blank
    refine ⟨by simp [Progress.jobRows,done],?_⟩
    cases standing : progress.standing with
    | inside job => simpa [Progress.shRows,done,Standing.shRows,standing] using (callRows_nil_iff _ _).mpr (running job standing)
    | between => simp [Progress.shRows,done,Standing.shRows,standing]
    | ended finishedAt outcome => simp [Progress.shRows,done,Standing.shRows,standing]
  · intro empty
    obtain ⟨jobs,sh⟩ := empty
    refine ⟨List.map_eq_nil_iff.mp jobs,fun job inside => (callRows_nil_iff runId job.id).mp ?_⟩
    have running := (List.append_eq_nil_iff.mp sh).2
    simpa [Standing.shRows,inside] using running

theorem Blank.storable (blank : Blank progress) : Progress.Storable progress :=
  ⟨fun run member => by simp [blank.done] at member,blank.running⟩

-- Rows of this run can only be among those that were added.
theorem added_rows {Row : Type} {owner : Row → String} {rows before added : List Row} (own : ∀ row ∈ rows, owner row = runId)
    (fresh : ∀ row ∈ before, owner row ≠ runId) (held : rows.Subperm (before ++ added)) : rows.length ≤ added.length := by
  have mine := held.filter fun row => owner row = runId
  have none : before.filter (fun row => owner row = runId) = [] := List.filter_eq_nil_iff.mpr (by simpa using fresh)
  have all : rows.filter (fun row => owner row = runId) = rows := List.filter_eq_self.mpr (by simpa using own)
  rw [List.filter_append,none,all,List.nil_append] at mine
  exact mine.length_le.trans (List.length_filter_le _ _)

theorem kept_iff_storable {before after : Db} {progress : Progress} (fresh : ∀ row ∈ before.jobs.rows, row.runId ≠ runId)
    (ingested : Ingested runId progress before after result) : Kept runId progress after ↔ Progress.Storable progress := by
  cases ingested with
  | stored storable jobs sh =>
    refine iff_of_true ⟨?_,?_⟩ storable
    · rw [jobs]; exact (List.sublist_append_right _ _).subperm
    · rw [sh]; exact (List.sublist_append_right _ _).subperm
  | refused error jobs sh unstorable storedJobs storedSh frontJobs frontSh lost =>
    refine iff_of_false (fun kept => ?_) unstorable
    have allJobs := added_rows (jobRows_own runId progress) fresh (storedJobs ▸ kept.jobs)
    have allSh := added_rows (shRows_own runId progress) (fresh_sh fresh) (storedSh ▸ kept.sh)
    rcases lost with jobsLost | shLost
    · exact jobsLost (frontJobs.eq_of_length_le allJobs)
    · exact shLost (frontSh.eq_of_length_le allSh)

theorem kept_iff_blank {db : Db} {progress : Progress} (fresh : ∀ row ∈ db.jobs.rows, row.runId ≠ runId) :
    Kept runId progress db ↔ Blank progress := by
  rw [blank_iff runId]
  constructor
  · intro kept
    have jobs := added_rows (jobRows_own runId progress) fresh ((List.append_nil db.jobs.rows).symm ▸ kept.jobs)
    have sh := added_rows (shRows_own runId progress) (fresh_sh fresh) ((List.append_nil db.sh.rows).symm ▸ kept.sh)
    exact ⟨List.length_eq_zero_iff.mp (Nat.le_zero.mp jobs),List.length_eq_zero_iff.mp (Nat.le_zero.mp sh)⟩
  · intro empty
    obtain ⟨jobs,sh⟩ := empty
    exact ⟨by rw [jobs]; exact List.nil_subperm,by rw [sh]; exact List.nil_subperm⟩

-- A file cut anywhere: what its complete lines tell is all there afterwards
-- exactly in this case.
theorem crashed_run_kept_iff {World Vm : Type} (env : Env World Vm) (registry : SecretRegistry) (world : World)
    (codec : Codec) (runId : String) (bytes : List UInt8) (db : Db) (documented : DocumentedAt env world)
    (faithful : Faithful codec (runPipeline env registry world).2)
    (cut : bytes <+: codec.jsonl (runPipeline env registry world).2) (present : runId ∈ db.runs.keys)
    (fresh : ∀ row ∈ db.jobs.rows, row.runId ≠ runId) :
    (∃ progress : Progress, shown codec (runPipeline env registry world).2 bytes = progress.events) ∧
      ∀ progress : Progress, shown codec (runPipeline env registry world).2 bytes = progress.events →
        (Kept runId progress (ingestEvents codec runId (.ok bytes) db).2 ↔
          (AtLineEnd codec (runPipeline env registry world).2 bytes ∨ Blank progress) ∧ Progress.Storable progress) := by
  have front := shown_front codec (runPipeline env registry world).2 bytes
  constructor
  · obtain ⟨whole,same,_⟩ := runPipeline_progress registry documented
    obtain ⟨progress,read,_⟩ := cut_progress (same ▸ front)
    exact ⟨progress,same ▸ read⟩
  · intro progress read
    have distinct : progress.ids.Nodup :=
      ids_nodup ((runPipeline_started registry documented).sublist (front.sublist.filterMap _)) read
    rcases parse_cut faithful cut with ⟨stops,parsed⟩ | ⟨torn,parsed⟩
    · obtain ⟨_,ingested⟩ := ingest_progress (read ▸ parsed) present fresh distinct
      rw [kept_iff_storable fresh ingested]
      exact ⟨fun storable => ⟨.inl stops,storable⟩,And.right⟩
    · rw [show (ingestEvents codec runId (.ok bytes) db).2 = db by simp [ingestEvents,parsed],kept_iff_blank fresh]
      exact ⟨fun blank => ⟨.inr blank,blank.storable⟩,fun fine => fine.1.resolve_left torn⟩

-- The file after this many events of the sample run.
def sampleFile (events : Nat) : List UInt8 := (plainCodec (sampleEvents false)).jsonl ((sampleEvents false).take events)

-- Killed in job b, which has made no call.
theorem crashed_run_kept_between_calls :
    Kept "run-1" ⟨(sampleStream false).jobs.take 2,.inside ⟨"b",0,[]⟩⟩
      (ingestEvents (plainCodec (sampleEvents false)) "run-1" (.ok (sampleFile 7)) sampleDb).2 := by
  have read : shown (plainCodec (sampleEvents false)) (sampleEvents false) (sampleFile 7) = (sampleEvents false).take 7 := by
    decide +kernel
  have front := List.take_prefix 7 (sampleEvents false)
  have ⟨_,kept⟩ := crashed_run_kept_iff (twoJobsEnv true false) SecretRegistry.new () (plainCodec (sampleEvents false)) "run-1"
    (sampleFile 7) sampleDb (twoJobs_documented true false) (sample_faithful false) (jsonl_front front) (by decide)
    (by simp [sampleDb,KeyedTable.Table.empty])
  have whole : sampleFile 7 = (plainCodec (sampleEvents false)).jsonl (shown (plainCodec (sampleEvents false)) (sampleEvents false)
      (sampleFile 7)) := by
    rw [read,sampleFile]
  refine (kept _ (read.trans (by decide +kernel))).mpr ⟨.inl (.inl whole),?_,?_⟩
  · simp only [sampleStream,List.take_succ_cons,List.take_zero,List.forall_mem_cons]
    exact ⟨⟨by decide,by decide⟩,⟨by decide,by decide⟩,by simp⟩
  · intro job inside
    cases inside
    rfl

-- Killed in job a, right after its call has ended.
theorem running_job_call_lost : ¬ ∀ (env : Env Unit Bool) (registry : SecretRegistry) (world : Unit) (codec : Codec)
    (runId : String) (bytes : List UInt8) (db : Db) (progress : Progress), DocumentedAt env world →
    Faithful codec (runPipeline env registry world).2 → bytes <+: codec.jsonl (runPipeline env registry world).2 →
    runId ∈ db.runs.keys → (∀ row ∈ db.jobs.rows, row.runId ≠ runId) →
    shown codec (runPipeline env registry world).2 bytes = progress.events →
    Kept runId progress (ingestEvents codec runId (.ok bytes) db).2 := by
  intro claimed
  have read : shown (plainCodec (sampleEvents false)) (sampleEvents false) (sampleFile 5) =
      Progress.events ⟨(sampleStream false).jobs.take 1,.inside ⟨"a",0,[⟨"true",0,some (0,0)⟩]⟩⟩ := by
    decide +kernel
  have front := List.take_prefix 5 (sampleEvents false)
  have kept := claimed (twoJobsEnv true false) SecretRegistry.new () (plainCodec (sampleEvents false)) "run-1" (sampleFile 5)
    sampleDb _ (twoJobs_documented true false) (sample_faithful false) (jsonl_front front) (by decide)
    (by simp [sampleDb,KeyedTable.Table.empty]) read
  have lost : (ingestEvents (plainCodec (sampleEvents false)) "run-1" (.ok (sampleFile 5)) sampleDb).2.sh.rows = [] := by
    decide +kernel
  have stored := kept.sh.length_le
  rw [lost] at stored
  exact absurd stored (by decide)

end Quire.CrashedRun
