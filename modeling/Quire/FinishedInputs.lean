import Quire.RunProgress
import Quire.RunRequests

namespace Quire.FinishedInputs
open Secret Primitives JobPipeline JobOrder Panicking RunEvents RunStreams CiRuntime RunPipeline RunTrace RunProtocol
  RunProgress RunRequests
variable {World Vm : Type}

section views
variable {petgraph : Petgraph} {pipeline : Pipeline petgraph Vm}

theorem lookup_map (entries : List (String × α)) (key : String) (change : α → β) :
    (entries.map fun entry => (entry.1,change entry.2)).lookup key = (entries.lookup key).map change := by
  induction entries with
  | nil => rfl
  | cons entry rest ih =>
    rw [List.map_cons,List.lookup_cons,List.lookup_cons]
    cases key == entry.1
    · exact ih
    · rfl

theorem lookup_view {names : List String} (value : String → β) :
    (names.map fun name => (name,value name)).lookup key = if key ∈ names then some (value key) else none := by
  induction names with
  | nil => rfl
  | cons name rest ih =>
    rw [List.map_cons,List.lookup_cons,ih]
    by_cases same : key = name
    · simp [same]
    · have other : (key == name) = false := beq_eq_false_iff_ne.mpr same
      simp [other,same]

-- `transitive_inputs` has every job, with its ancestors and not itself.
theorem transitiveInputs_exact (documented : Documented petgraph pipeline.graph.shape)
    (job : ∃ job ∈ pipeline.graph.jobs, job.id = j) :
    ∃ names, pipeline.transitiveInputs.lookup j = some names ∧ ∀ i, i ∈ names ↔ TransitiveInput pipeline i j := by
  obtain ⟨_,entry⟩ := transitiveInputs_keys job
  have keyed : (pipeline.transitiveInputs.lookup j).isSome = true :=
    List.lookup_isSome_iff.mpr ⟨_,entry,beq_self_eq_true _⟩
  obtain ⟨names,found⟩ := Option.isSome_iff_exists.mp keyed
  obtain ⟨_,_,split,_⟩ := List.lookup_eq_some_iff.mp found
  exact ⟨names,found,fun i => transitiveInputs_iff documented (by rw [split]; simp)⟩

theorem not_own_ancestor (documented : Documented petgraph pipeline.graph.shape) (j : String) :
    ¬ TransitiveInput pipeline j j := by
  intro loop
  obtain ⟨_,_,_,_,member,same,_⟩ := Relation.TransGen.tail'_iff.mp loop
  obtain ⟨idx,found⟩ := List.mem_iff_getElem?.mp member
  obtain ⟨a,at_a,path⟩ := (path_iff ⟨_,found,same⟩).mp loop
  exact acyclic documented a (holds_unique pipeline.distinct at_a ⟨_,found,same⟩ ▸ path)

end views

def pushTable (env : Env World Vm) : PushOutputs := ⟨env.runMeta.sha,env.runMeta.ref,env.runMeta.pushedAt⟩

def readable (env : Env World Vm) (name : String) : Option PushOutputs :=
  if name = "quire/push" then some (pushTable env) else none

variable {env : Env World Vm} {pipeline : Pipeline env.petgraph Vm} {s t : State World Vm}

theorem view_of (registry : SecretRegistry) (found : pipeline.transitiveInputs.lookup j = some names) :
    (Runtime.new pipeline registry env.runMeta env.workspace env.logDir).inputs.lookup j =
      some (names.map fun name => (name,readable env name)) := by
  have mapped := lookup_map pipeline.transitiveInputs j fun names => names.map fun name => (name,readable env name)
  rw [found] at mapped
  exact mapped

theorem exec_jobs (name : String) (inside : Inside inputs j s) (viewed : inputs.lookup j = some view) :
    ∃ result, exec (Runtime.jobs name) s = (.ok result,s) ∧ ∀ value, result = .ok value ↔ view.lookup name = some value := by
  simp only [Runtime.jobs,exec_bind,exec_get,inside.cursor,inside.inputs,viewed,expecting,exec_pure]
  split
  · rename_i value found
    exact ⟨_,rfl,fun other => by rw [found]; simp⟩
  · rename_i missing
    by_cases own : name = j
    · exact ⟨_,by rw [if_pos own]; rfl,fun other => by rw [missing]; simp⟩
    · exact ⟨_,by rw [if_neg own]; rfl,fun other => by rw [missing]; simp⟩

-- What a `(jobs name)` call answers, wherever in the run it is made.
theorem jobs_answer (documented : Documented env.petgraph pipeline.graph.shape)
    (asked : Asked env pipeline registry started j (.jobs name) s) :
    ∃ result, exec (Runtime.jobs name) s = (.ok result,s) ∧
      ((∃ value, result = .ok value) ↔ TransitiveInput pipeline name j) ∧
      ∀ value, result = .ok value → value = readable env name := by
  obtain ⟨job,inside⟩ := asked.inside documented
  obtain ⟨names,found,exact⟩ := transitiveInputs_exact documented job
  obtain ⟨result,ran,answers⟩ := exec_jobs name inside (view_of registry found)
  refine ⟨result,ran,?_,fun value => ?_⟩
  · simp only [answers,lookup_view,← exact]
    by_cases member : name ∈ names <;> simp [member]
  · rw [answers,lookup_view]
    split <;> simp_all

-- Where a job starts in a stretch of the stream, the jobs before it in the
-- order have finished well.
def StartsAfter (ids : List String) (added : List Event) : Prop :=
  ∀ before atMs j after, added = before ++ ⟨atMs,.jobStarted j⟩ :: after →
    ∃ earlier later, ids = earlier ++ j :: later ∧
      ∀ i ∈ earlier, ∃ finishedAt, ⟨finishedAt,.jobFinished i .succeeded⟩ ∈ before

theorem startsAfter_first (added : List Event) (only : added.filterMap startedId = [jobId]) :
    StartsAfter (jobId :: rest) added := by
  intro before atMs j after split
  subst split
  rw [List.filterMap_append,List.filterMap_cons_some (show startedId ⟨atMs,.jobStarted j⟩ = some j from rfl)] at only
  obtain ⟨_,last⟩ | ⟨_,none⟩ := List.append_eq_singleton_iff.mp only
  · obtain rfl : j = jobId := (List.cons.inj last).1
    exact ⟨[],rest,rfl,fun _ member => nomatch member⟩
  · cases none

theorem startsAfter_next {run : JobRun} (outcome : run.outcome = .succeeded) (later : StartsAfter rest more) :
    StartsAfter (run.id :: rest) (run.events ++ more) := by
  intro before atMs j after split
  have past : ∀ between, before = run.events ++ between → more = between ++ ⟨atMs,.jobStarted j⟩ :: after →
      ∃ earlier behind, run.id :: rest = earlier ++ j :: behind ∧
        ∀ i ∈ earlier, ∃ finishedAt, ⟨finishedAt,.jobFinished i .succeeded⟩ ∈ before := by
    intro between ahead tail
    subst ahead
    obtain ⟨earlier,behind,rfl,finished⟩ := later between atMs j after tail
    refine ⟨run.id :: earlier,behind,rfl,fun i member => ?_⟩
    rcases List.mem_cons.mp member with rfl | member
    · exact ⟨run.finishedAt,by simp [JobRun.events,← outcome]⟩
    · obtain ⟨finishedAt,shown⟩ := finished i member
      exact ⟨finishedAt,List.mem_append_right _ shown⟩
  rcases List.append_eq_append_iff.mp split with ⟨between,ahead,tail⟩ | ⟨between,own,tail⟩
  · exact past between ahead tail
  · cases between with
    | nil => exact past [] (by simpa using own.symm) tail.symm
    | cons first between =>
      obtain ⟨rfl,rfl⟩ := List.cons.inj tail
      have only : run.events.filterMap startedId = [run.id] := by
        simpa [Progress.events,Progress.ids,Standing.events,Standing.ids] using progress_started ⟨[run],.between⟩
      exact startsAfter_first run.events only before atMs j between own

-- The loop starts no job before its ancestors have finished, whether it comes
-- to its end, stops at a failed job or panics.
theorem runJobs_startsAfter (known : Known pipeline s.runtime.inputs ids) :
    ∃ added, (exec (runJobs env pipeline ids) s).2.sink = s.sink ++ added ∧ StartsAfter ids added := by
  induction ids generalizing s with
  | nil => exact ⟨[],(List.append_nil _).symm,fun _ _ _ _ split => by simp at split⟩
  | cons jobId rest ih =>
    obtain ⟨⟨job,found⟩,viewed⟩ := known jobId List.mem_cons_self
    by_cases installed : env.lua.runtimeTable s.vm = true
    · obtain ⟨result,m,_,ran,logged,same,run,rfl,rfl,outcome⟩ := runJob_adds found viewed s ⟨rfl,installed⟩
      rw [runJobs,exec_bind_ok ran]
      rcases result with error | ⟨⟨⟩⟩
      · have only : run.events.filterMap startedId = [run.id] := by
          simpa [Progress.events,Progress.ids,Standing.events,Standing.ids] using progress_started ⟨[run],.between⟩
        exact ⟨run.events,logged,startsAfter_first run.events only⟩
      · obtain ⟨more,extended,later⟩ := ih (same ▸ known.rest)
        exact ⟨run.events ++ more,by rw [extended,logged,List.append_assoc],startsAfter_next outcome later⟩
    · obtain ⟨t,atMs,stopped,logged⟩ := runJob_stops found viewed installed
      rw [runJobs,exec_bind_error stopped]
      exact ⟨_,logged,startsAfter_first _ rfl⟩

theorem StartsAfter.then_finished (starts : StartsAfter ids added) : StartsAfter ids (added ++ [⟨atMs,.runFinished outcome⟩]) := by
  intro before startedAt j after split
  rcases List.eq_nil_or_concat after with rfl | ⟨behind,last,rfl⟩
  · cases (List.append_inj' split rfl).2
  · have inner : added = before ++ ⟨startedAt,.jobStarted j⟩ :: behind :=
      (List.append_inj' (split.trans (by simp : _ = (before ++ ⟨startedAt,.jobStarted j⟩ :: behind) ++ [last])) rfl).1
    exact starts before startedAt j behind inner

theorem runPipeline_startsAfter (registry : SecretRegistry) (compiled : compileAt env world = (.ok pipeline,started))
    (documented : Documented env.petgraph pipeline.graph.shape) :
    ∃ order, Order pipeline order ∧ StartsAfter order (runPipeline env registry world).2 := by
  obtain ⟨jobs,listed,ordered⟩ := jobs_order documented
  refine ⟨_,ordered,?_⟩
  rw [runPipeline_compiled compiled (congrArg _ listed) ordered]
  cases installed : env.lua.install pipeline.fennel with
  | none =>
    have nothing : (exec (execute env pipeline (jobs.map Job.id)) (start env pipeline registry started)).2.sink = [] := by
      rw [execute,exec_bind_ok (exec_get _),start,installed]
      rfl
    exact fun before atMs j after split => by simp [nothing] at split
  | some vm =>
    have known := order_known ordered registry started vm
    obtain ⟨added,logged,starts⟩ := runJobs_startsAfter known
    rw [exec_execute installed]
    rcases ran : exec (runJobs env pipeline (jobs.map Job.id)) (ready env pipeline registry started vm) with ⟨message | failedJob,t⟩
    · rw [exec_bind_error ran]
      rw [ran] at logged
      exact logged ▸ starts
    · rw [exec_bind_ok ran,exec_emit]
      rw [ran] at logged
      change StartsAfter _ (t.sink ++ _)
      rw [show t.sink = added from logged]
      exact starts.then_finished

-- A job can read its finished ancestors, and nothing else.
structure ReadsAncestors (env : Env World Vm) (pipeline : Pipeline env.petgraph Vm) (registry : SecretRegistry)
    (world started : World) : Prop where
  inputs : ∀ j, (∃ job ∈ pipeline.graph.jobs, job.id = j) → ∃ names, pipeline.transitiveInputs.lookup j = some names ∧
    j ∉ names ∧ ∀ i, i ∈ names ↔ i ≠ j ∧ TransitiveInput pipeline i j
  answers : ∀ j name s, Asked env pipeline registry started j (.jobs name) s →
    ∃ result, exec (Runtime.jobs name) s = (.ok result,s) ∧
      ((∃ value, result = .ok value) ↔ TransitiveInput pipeline name j) ∧
      ∀ value, result = .ok value → value = readable env name
  finished : ∀ before atMs j after, (runPipeline env registry world).2 = before ++ ⟨atMs,.jobStarted j⟩ :: after →
    ∀ i, TransitiveInput pipeline i j → ∃ finishedAt, ⟨finishedAt,.jobFinished i .succeeded⟩ ∈ before

theorem reads_finished_ancestors (env : Env World Vm) (registry : SecretRegistry) (world started : World)
    (pipeline : Pipeline env.petgraph Vm) (compiled : compileAt env world = (.ok pipeline,started))
    (documented : Documented env.petgraph pipeline.graph.shape) : ReadsAncestors env pipeline registry world started where
  inputs := by
    intro j job
    obtain ⟨names,found,exact⟩ := transitiveInputs_exact documented job
    refine ⟨names,found,fun own => not_own_ancestor documented j ((exact j).mp own),fun i => ?_⟩
    rw [exact i]
    refine ⟨fun path => ⟨?_,path⟩,fun path => path.2⟩
    intro same
    subst same
    exact not_own_ancestor documented i path
  answers := fun _ _ _ asked => jobs_answer documented asked
  finished := by
    intro before atMs j after split i path
    obtain ⟨order,ordered,starts⟩ := runPipeline_startsAfter registry compiled documented
    obtain ⟨earlier,later,split,finished⟩ := starts before atMs j after split
    exact finished i (ordered.ancestor path split)

theorem reads_finished_ancestors_two_jobs : ∃ pipeline : Pipeline (twoJobsEnv true false).petgraph Bool,
    compileAt (twoJobsEnv true false) () = (.ok pipeline,()) ∧
      ReadsAncestors (twoJobsEnv true false) pipeline SecretRegistry.new () () := by
  obtain ⟨pipeline,compiled,shape⟩ := twoJobs_compiles true false
  exact ⟨pipeline,compiled,reads_finished_ancestors _ _ _ _ pipeline compiled (shape ▸ chain_documented)⟩

end Quire.FinishedInputs
