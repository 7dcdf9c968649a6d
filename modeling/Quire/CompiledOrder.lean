import Quire.GraphVerdict
import Quire.RunProtocol

namespace Quire.CompiledOrder
open Relation Precedence Secret Primitives JobPipeline JobOrder GraphVerdict RunProtocol CiRuntime
variable {Vm : Type} {petgraph : Petgraph}

-- What a script says about a job, and what a job says about itself.
structure Declared (Vm : Type) where
  id : String
  inputs : List String
  runFn : RunFn Vm

def declaredBy : RegisterCall Vm → Option (Declared Vm)
  | .job id inputs runFn _ => some ⟨id,inputs,.lua runFn⟩
  | .image _ _ => none

def declared (job : Job Vm) : Declared Vm := ⟨job.id,job.inputs,job.runFn⟩

theorem new_declared {job : Job Vm} (made : Job.new name inputs runFn line source = .ok job) :
    declared job = ⟨name,inputs,runFn⟩ ∧ job.inputs ≠ [] := by
  simp only [Job.new] at made
  split at made
  · cases made
  · rename_i some; cases made; exact ⟨rfl,some⟩

-- One call of the script: an error that is there stays, and a call that adds
-- none has added its job.
structure CallKeeps (before next : Registration Vm) (call : RegisterCall Vm) : Prop where
  errors : before.errors <+: next.errors
  jobs : next.errors = [] → next.jobs.map declared = before.jobs.map declared ++ (declaredBy call).toList
  fed : (∀ job ∈ before.jobs, job.inputs ≠ []) → ∀ job ∈ next.jobs, job.inputs ≠ []

theorem report_keeps (self : Registration Vm) (error : DefinitionError) (call : RegisterCall Vm) :
    CallKeeps self (self.report error) call where
  errors := List.prefix_append _ _
  jobs := fun clean => absurd clean (by simp [Registration.report])
  fed := fun fed => fed

theorem call_keeps (source : String) (self : Registration Vm) (call : RegisterCall Vm) : CallKeeps self (self.call source call) call := by
  cases call with
  | image name line =>
    change CallKeeps self (self.registerImage name line source) _
    unfold Registration.registerImage
    split
    · exact report_keeps self _ _
    · exact ⟨List.prefix_rfl,fun _ => (List.append_nil _).symm,fun fed => fed⟩
  | job id inputs runFn line =>
    change CallKeeps self (self.registerJob id inputs runFn line source) _
    unfold Registration.registerJob
    split
    · exact report_keeps self _ _
    · split
      · rename_i job made
        obtain ⟨same,some⟩ := new_declared made
        unfold Registration.addJob
        split
        · exact report_keeps self _ _
        · refine ⟨List.prefix_rfl,fun _ => by rw [List.map_append,List.map_singleton,same]; rfl,fun fed other member => ?_⟩
          rcases List.mem_append.mp member with old | new
          · exact fed other old
          · exact List.mem_singleton.mp new ▸ some
      · exact report_keeps self _ _

-- A script that leaves no error has registered each of its jobs, in order.
theorem registered_calls {self : Registration Vm} (calls : List (RegisterCall Vm))
    (clean : (calls.foldl (Registration.call source) self).errors = []) :
    self.errors = [] ∧
      (calls.foldl (Registration.call source) self).jobs.map declared = self.jobs.map declared ++ calls.filterMap declaredBy := by
  induction calls generalizing self with
  | nil => exact ⟨clean,(List.append_nil _).symm⟩
  | cons call rest ih =>
    obtain ⟨noError,jobs⟩ := ih clean
    have keeps := call_keeps source self call
    refine ⟨List.prefix_nil.mp (noError ▸ keeps.errors),?_⟩
    rw [List.foldl_cons,jobs,keeps.jobs noError,List.append_assoc]
    cases call <;> rfl

theorem registered_fed {self : Registration Vm} (calls : List (RegisterCall Vm)) (fed : ∀ job ∈ self.jobs, job.inputs ≠ []) :
    ∀ job ∈ (calls.foldl (Registration.call source) self).jobs, job.inputs ≠ [] := by
  induction calls generalizing self with
  | nil => exact fed
  | cons call rest ih => exact ih ((call_keeps source self call).fed fed)

-- What went before a pipeline that `compile` returned.
theorem compile_parts {pipeline : Pipeline petgraph Vm} (compiled : compile petgraph lua source name = .ok pipeline) :
    ∃ fennel calls vm, lua.new = .ok fennel ∧ lua.eval fennel source name = .ok (calls,vm) ∧
      ∃ users, pipeline.graph.jobs = users ++ [builtinPushJob] ∧ users.map declared = calls.filterMap declaredBy ∧
        ∀ job ∈ users, job.inputs ≠ [] := by
  unfold compile at compiled
  split at compiled
  · cases compiled
  · rename_i fennel created
    split at compiled
    · cases compiled
    · rename_i registration vm registered
      dsimp only at compiled
      split at compiled
      · cases compiled
      · cases compiled
        unfold register at registered
        split at registered
        · cases registered
        · rename_i calls vm evaluated
          dsimp only at registered
          split at registered
          · rename_i clean
            cases registered
            exact ⟨fennel,calls,_,created,evaluated,_,rfl,(registered_calls calls clean).2,
              registered_fed calls fun _ member => nomatch member⟩
          · cases registered

section order
variable {pipeline : Pipeline petgraph Vm}

-- What `Pipeline::jobs` and `by_id` promise about the jobs of a script.
structure Runnable (pipeline : Pipeline petgraph Vm) (calls : List (RegisterCall Vm)) (jobs : List (Job Vm)) : Prop where
  listed : (jobs.map declared).Perm (declared builtinPushJob :: calls.filterMap declaredBy)
  once : (jobs.map Job.id).Nodup
  push : jobs.head? = some builtinPushJob
  ordered : ∀ earlier job later, jobs = earlier ++ job :: later → ∀ input ∈ job.inputs,
    input ∈ jobs.map Job.id → input ∈ earlier.map Job.id
  byId : ∀ name idx, pipeline.byId.lookup name = some idx ↔
    ∃ job ∈ jobs, job.id = name ∧ pipeline.graph.jobs[idx]? = some job

theorem validate_found (valid : validatePostGraph petgraph graph = .ok ()) (found : graph.jobs[node]? = some job)
    (user : job.inputs ≠ []) : foundTrigger petgraph graph node = true := by
  rw [validatePostGraph_eq] at valid
  split at valid
  · rename_i none
    obtain ⟨cycles,reachable⟩ := List.append_eq_nil_iff.mp none
    have acyclic : cyclicIds petgraph graph = [] := by
      rw [cyclicIds,List.map_eq_nil_iff.mp cycles]
      rfl
    have fine := List.filterMap_eq_nil_iff.mp reachable ⟨job,node⟩ (List.mem_zipIdx_iff_getElem?.mpr found)
    by_contra missed
    obtain ⟨span,known⟩ := Option.isSome_iff_exists.mp (job.spanned user)
    have outside : job.id ∉ cyclicIds petgraph graph := acyclic ▸ List.not_mem_nil
    have error := unreachableError_iff.mpr ⟨outside,user,Bool.eq_false_iff.mpr missed,span,known,rfl⟩
    cases fine.symm.trans error
  · cases valid

-- A user's job has quire/push among its ancestors.
theorem push_before (documented : Documented petgraph pipeline.graph.shape)
    (split : pipeline.graph.jobs = users ++ [builtinPushJob]) (fed : ∀ job ∈ users, job.inputs ≠ [])
    (listed : job ∈ pipeline.graph.jobs) (user : job.inputs ≠ []) : TransitiveInput pipeline "quire/push" job.id := by
  obtain ⟨node,found⟩ := List.mem_iff_getElem?.mp listed
  have bound : node < pipeline.graph.shape.nodes := (List.getElem?_eq_some_iff.mp found).1
  have trigger := validate_found pipeline.valid found user
  simp only [foundTrigger,List.any_eq_true,Option.any_eq_true,decide_eq_true_eq,documented.bfs node _ bound,
    reversed_path] at trigger
  obtain ⟨idx,path,other,at_idx,empty⟩ := trigger
  obtain rfl := (trigger_iff fed (split ▸ List.mem_of_getElem? at_idx)).mp empty
  refine (path_iff ⟨job,found,rfl⟩).mpr ⟨idx,⟨_,at_idx,rfl⟩,(reflTransGen_iff_eq_or_transGen.mp path).resolve_left ?_⟩
  intro same
  subst same
  cases at_idx.symm.trans found
  exact user rfl

theorem jobs_registered (sorted : pipeline.jobs = some jobs) (member : job ∈ jobs) : job ∈ pipeline.graph.jobs := by
  obtain ⟨order,_,rfl⟩ := Option.map_eq_some_iff.mp sorted
  obtain ⟨idx,_,found⟩ := List.mem_filterMap.mp member
  exact List.mem_of_getElem? found

theorem mem_jobs_iff (sorted : pipeline.jobs = some jobs) (order : Order pipeline (jobs.map Job.id)) :
    job ∈ jobs ↔ job ∈ pipeline.graph.jobs := by
  refine ⟨jobs_registered sorted,fun listed => ?_⟩
  obtain ⟨other,member,same⟩ := List.mem_map.mp ((order.members job.id).mpr ⟨job,listed,rfl⟩)
  exact at_unique pipeline.distinct (jobs_registered sorted member) listed same ▸ member

theorem jobs_perm (sorted : pipeline.jobs = some jobs) (order : Order pipeline (jobs.map Job.id)) :
    jobs.Perm pipeline.graph.jobs :=
  (List.perm_ext_iff_of_nodup order.nodup.of_map pipeline.distinct.of_map).mpr fun _ => mem_jobs_iff sorted order

-- The order starts with the only job that waits for none.
theorem jobs_head (documented : Documented petgraph pipeline.graph.shape)
    (split : pipeline.graph.jobs = users ++ [builtinPushJob]) (fed : ∀ job ∈ users, job.inputs ≠ [])
    (sorted : pipeline.jobs = some jobs) (order : Order pipeline (jobs.map Job.id)) :
    jobs.head? = some builtinPushJob := by
  have push : builtinPushJob ∈ jobs := (mem_jobs_iff sorted order).mpr (split ▸ by simp)
  cases jobs with
  | nil => cases push
  | cons first rest =>
    have listed := jobs_registered sorted List.mem_cons_self
    have trigger : first.inputs = [] := by
      by_contra user
      have before := push_before documented split fed listed user
      cases order.ancestor before (show _ = [] ++ first.id :: rest.map Job.id from rfl)
    exact congrArg some ((trigger_iff fed (split ▸ listed)).mp trigger)

theorem compiled_runnable {pipeline : Pipeline petgraph Vm} (compiled : compile petgraph lua source name = .ok pipeline)
    (documented : Documented petgraph pipeline.graph.shape) :
    ∃ fennel calls vm jobs, lua.new = .ok fennel ∧ lua.eval fennel source name = .ok (calls,vm) ∧
      pipeline.jobs = some jobs ∧ Runnable pipeline calls jobs := by
  obtain ⟨fennel,calls,vm,created,evaluated,users,split,same,fed⟩ := compile_parts compiled
  obtain ⟨jobs,sorted,order⟩ := jobs_order documented
  refine ⟨fennel,calls,vm,jobs,created,evaluated,sorted,?_,order.nodup,jobs_head documented split fed sorted order,?_,?_⟩
  · have perm := (jobs_perm sorted order).map declared
    rw [split,List.map_append,same] at perm
    exact perm.trans (List.perm_append_comm)
  · intro earlier job later split input lists known
    subst split
    have listed := jobs_registered sorted (show job ∈ earlier ++ job :: later by simp)
    have step : Input pipeline input job.id := ⟨(order.members input).mp known,job,listed,rfl,lists⟩
    exact order.ordered _ _ (later.map Job.id) (by simp) input step
  · intro name idx
    rw [byId_iff]
    constructor
    · intro listed
      obtain ⟨job,found,rfl⟩ := listed
      exact ⟨job,(mem_jobs_iff sorted order).mpr (List.mem_of_getElem? found),rfl,found⟩
    · intro holds
      obtain ⟨job,_,rfl,found⟩ := holds
      exact ⟨job,found,rfl⟩

end order

theorem compiled_runnable_two_jobs : ∃ pipeline : Pipeline (twoJobsEnv true false).petgraph Bool,
    ∃ fennel calls vm jobs, (twoJobs true false).new = .ok fennel ∧
      (twoJobs true false).eval fennel "" (joinPath (joinPath "/work" ".quire") "ci.fnl") = .ok (calls,vm) ∧
      pipeline.jobs = some jobs ∧ Runnable pipeline calls jobs := by
  obtain ⟨pipeline,compiled,shape⟩ := twoJobs_compiles true false
  exact ⟨pipeline,compiled_runnable (congrArg Prod.fst compiled) (shape ▸ chain_documented)⟩

end Quire.CompiledOrder
