import Quire.FinishedInputs
import Quire.RegistrationRecord

namespace Quire.NamedInputs
open Relation Precedence Secret Primitives JobPipeline JobOrder GraphVerdict RunEvents RunPipeline RunProtocol CiRuntime CompiledOrder
  FinishedInputs RegistrationRecord
variable {World Vm : Type} {petgraph : Petgraph} {calls : List (RegisterCall Vm)} {users : List (Job Vm)}

-- A name that an input can resolve to.
def Named (calls : List (RegisterCall Vm)) (name : String) : Prop :=
  name = "quire/push" ∨ ∃ job ∈ calls.filterMap declaredBy, job.id = name

-- `j` lists `i`, and `i` resolves.
def Waits (calls : List (RegisterCall Vm)) (i j : String) : Prop :=
  Named calls i ∧ ∃ job ∈ calls.filterMap declaredBy, job.id = j ∧ i ∈ job.inputs

-- No call is wrong in itself, and the inputs that resolve make a sound graph.
structure Sound (calls : List (RegisterCall Vm)) : Prop where
  defined : WellDefined calls
  acyclic : Acyclic (Waits calls)
  reaches : ∀ job ∈ calls.filterMap declaredBy, ReflTransGen (Waits calls) "quire/push" job.id

-- A job that lists a name that resolves and one that does not.
def Mixes (calls : List (RegisterCall Vm)) (job : Declared Vm) : Prop :=
  (∃ input ∈ job.inputs, Named calls input) ∧ ∃ input ∈ job.inputs, ¬ Named calls input

section names

theorem declared_mem (same : users.map declared = calls.filterMap declaredBy) :
    job ∈ calls.filterMap declaredBy ↔ ∃ user ∈ users, declared user = job := by
  rw [← same,List.mem_map]

theorem named_iff (same : users.map declared = calls.filterMap declaredBy) :
    Named calls name ↔ ∃ job ∈ users ++ [builtinPushJob], job.id = name := by
  simp only [Named,declared_mem same,List.mem_append,List.mem_singleton,or_and_right,exists_or,exists_eq_left]
  constructor
  · intro named
    rcases named with rfl | ⟨_,⟨user,listed,rfl⟩,rfl⟩
    · exact .inr rfl
    · exact .inl ⟨user,listed,rfl⟩
  · intro held
    rcases held with ⟨user,listed,rfl⟩ | rfl
    · exact .inr ⟨_,⟨user,listed,rfl⟩,rfl⟩
    · exact .inl rfl

theorem waits_iff (same : users.map declared = calls.filterMap declaredBy) : Waits calls i j ↔
    GraphVerdict.Resolves (users ++ [builtinPushJob]) i j := by
  rw [Waits,named_iff same,GraphVerdict.Resolves]
  apply and_congr_right
  intro _
  constructor
  · intro ⟨job,listed,named,lists⟩
    obtain ⟨user,registered,rfl⟩ := (declared_mem same).mp listed
    exact ⟨user,List.mem_append_left _ registered,named,lists⟩
  · intro ⟨job,listed,named,lists⟩
    rcases List.mem_append.mp listed with user | push
    · exact ⟨_,(declared_mem same).mpr ⟨job,user,rfl⟩,named,lists⟩
    · obtain rfl := List.mem_singleton.mp push
      cases lists

end names

-- The graph that `compile` builds from a script.
def scriptGraph (source : String) (calls : List (RegisterCall Vm)) : JobGraph Vm :=
  (buildGraph ((registered source calls).jobs ++ [builtinPushJob])).1

theorem compile_inv {lua : Lua Vm} {pipeline : Pipeline petgraph Vm} (created : lua.new = .ok fennel)
    (evaluated : Lua.eval lua fennel source name = .ok (calls,vm)) (compiled : compile petgraph lua source name = .ok pipeline) :
    (registered source calls).errors = [] ∧ validatePostGraph petgraph (scriptGraph source calls) = .ok () ∧
      pipeline.graph = scriptGraph source calls := by
  unfold compile at compiled
  rw [created] at compiled
  simp only at compiled
  rw [register_eq evaluated] at compiled
  by_cases clean : (registered source calls).errors = []
  · rw [if_pos clean] at compiled
    simp only at compiled
    split at compiled
    · cases compiled
    · rename_i valid
      cases compiled
      exact ⟨clean,valid,rfl⟩
  · rw [if_neg clean] at compiled
    cases compiled

theorem compile_parts_iff {lua : Lua Vm} (created : lua.new = .ok fennel) (evaluated : Lua.eval lua fennel source name = .ok (calls,vm)) :
    (∃ pipeline, compile petgraph lua source name = .ok pipeline) ↔
      (registered source calls).errors = [] ∧ validatePostGraph petgraph (scriptGraph source calls) = .ok () := by
  constructor
  · intro compiles
    obtain ⟨pipeline,compiled⟩ := compiles
    obtain ⟨clean,valid,_⟩ := compile_inv created evaluated compiled
    exact ⟨clean,valid⟩
  · intro parts
    obtain ⟨clean,valid⟩ := parts
    unfold compile
    rw [created]
    simp only
    rw [register_eq evaluated,if_pos clean]
    simp only
    split
    · rename_i errors invalid
      cases valid.symm.trans invalid
    · exact ⟨_,rfl⟩

-- Exactly the sound scripts compile: a name that does not resolve is no reason
-- to refuse one.
theorem compile_ok_iff {lua : Lua Vm} (created : lua.new = .ok fennel) (evaluated : Lua.eval lua fennel source name = .ok (calls,vm))
    (searched : Searched petgraph (scriptGraph source calls).shape) :
    (∃ pipeline, compile petgraph lua source name = .ok pipeline) ↔ Sound calls := by
  rw [compile_parts_iff created evaluated,registered_clean_iff]
  have verdict : WellDefined calls → (validatePostGraph petgraph (scriptGraph source calls) = .ok () ↔
      Acyclic (Waits calls) ∧ ∀ job ∈ calls.filterMap declaredBy, ReflTransGen (Waits calls) "quire/push" job.id) := by
    intro defined
    have same : (registered source calls).jobs.map declared = calls.filterMap declaredBy :=
      (registered_calls calls ((registered_clean_iff source calls).mpr defined)).2
    obtain ⟨_,_,_,valid⟩ := validate_exact (registered source calls).jobs (registered source calls).distinct
      (registered source calls).slashless (registered_inputs source calls) searched
    have resolves : GraphVerdict.Resolves ((registered source calls).jobs ++ [builtinPushJob]) = Waits calls :=
      funext fun i => funext fun j => propext (waits_iff same).symm
    rw [scriptGraph,valid]
    simp only [Reaches,resolves]
    apply and_congr_right
    intro _
    constructor
    · intro reaches job listed
      obtain ⟨user,member,rfl⟩ := (declared_mem same).mp listed
      exact reaches user (List.mem_append_left _ member)
    · intro reaches job listed
      rcases List.mem_append.mp listed with user | push
      · exact reaches _ ((declared_mem same).mpr ⟨job,user,rfl⟩)
      · obtain rfl := List.mem_singleton.mp push
        exact .refl
  constructor
  · intro ⟨defined,valid⟩
    obtain ⟨acyclic,reaches⟩ := (verdict defined).mp valid
    exact ⟨defined,acyclic,reaches⟩
  · intro sound
    exact ⟨sound.defined,(verdict sound.defined).mpr ⟨sound.acyclic,sound.reaches⟩⟩

section compiled

-- What petgraph documents of its three functions, for one graph.
structure Walks (petgraph : Petgraph) (graph : Digraph) : Prop extends Searched petgraph graph where
  toposort : Acyclic graph.Edge → ∃ order, petgraph.toposort graph = some order ∧ Topological graph order

theorem Walks.documented (walks : Walks petgraph graph) : Documented petgraph graph where
  tarjanScc := by
    intro a b boundA boundB
    obtain ⟨_,_,nodes,classes⟩ := walks.tarjanScc
    constructor
    · intro ⟨scc,member,inA,inB⟩
      exact (classes scc member a inA b boundB).mp inB
    · intro joined
      obtain ⟨scc,member,inA⟩ := List.mem_flatten.mp ((nodes a).mpr boundA)
      exact ⟨scc,member,inA,(classes scc member a inA b boundB).mpr joined⟩
  toposort := walks.toposort
  bfs := walks.bfs

-- In a sound script where no job mixes, every name resolves.
theorem Sound.named (sound : Sound calls) (unmixed : ∀ job ∈ calls.filterMap declaredBy, ¬ Mixes calls job)
    (listed : job ∈ calls.filterMap declaredBy) (lists : input ∈ job.inputs) : Named calls input := by
  by_contra unnamed
  have user : "quire/push" ≠ job.id := by
    intro same
    exact sound.defined.slashless job listed (same ▸ by decide)
  have path := (reflTransGen_iff_eq_or_transGen.mp (sound.reaches job listed)).resolve_left user.symm
  obtain ⟨last,_,known,other,member,same,waited⟩ := TransGen.tail'_iff.mp path
  obtain rfl := List.inj_on_of_nodup_map sound.defined.distinct member listed same
  exact unmixed other listed ⟨⟨last,waited,known⟩,input,lists,unnamed⟩

end compiled

-- The calls that the script at hand makes, where it is read and ends well.
def Script (env : Env World Vm) (world : World) (source : String) (calls : List (RegisterCall Vm)) : Prop :=
  ∃ started fennel vm, env.host.readToString (joinPath (joinPath env.workspace ".quire") "ci.fnl") world = (.ok source,started) ∧
    env.lua.new = .ok fennel ∧
    env.lua.eval fennel source (joinPath (joinPath env.workspace ".quire") "ci.fnl") = .ok (calls,vm)

variable {env : Env World Vm} {registry : SecretRegistry} {world started : World}

theorem Script.unique (script : Script env world source calls) (again : Script env world other more) :
    other = source ∧ more = calls := by
  obtain ⟨_,fennel,_,read,created,evaluated⟩ := script
  obtain ⟨_,_,_,reread,recreated,reevaluated⟩ := again
  cases read.symm.trans reread
  cases created.symm.trans recreated
  cases evaluated.symm.trans reevaluated
  exact ⟨rfl,rfl⟩

-- `compileAt` is `compile` of the script at hand.
theorem compileAt_script {pipeline : Pipeline env.petgraph Vm} (compiled : compileAt env world = (.ok pipeline,started)) :
    ∃ source calls, Script env world source calls ∧
      compile env.petgraph env.lua source (joinPath (joinPath env.workspace ".quire") "ci.fnl") = .ok pipeline := by
  unfold compileAt at compiled
  dsimp only at compiled
  rcases read : env.host.readToString (joinPath (joinPath env.workspace ".quire") "ci.fnl") world with ⟨error | source,next⟩
  · rw [read] at compiled
    cases compiled
  · rw [read] at compiled
    have made := congrArg Prod.fst compiled
    obtain ⟨fennel,calls,vm,created,evaluated,_⟩ := compile_parts made
    exact ⟨source,calls,⟨next,fennel,vm,read,created,evaluated⟩,made⟩

theorem script_compiles (script : Script env world source calls)
    (made : compile env.petgraph env.lua source (joinPath (joinPath env.workspace ".quire") "ci.fnl") = .ok pipeline) :
    ∃ started, compileAt env world = (.ok pipeline,started) := by
  obtain ⟨started,_,_,read,_,_⟩ := script
  refine ⟨started,?_⟩
  rw [compileAt]
  simp only [read]
  rw [made]

-- Whatever a job names is a job, an edge of the graph, and has finished well
-- before the job starts.
structure RunsAfterNamed (env : Env World Vm) (pipeline : Pipeline env.petgraph Vm) (registry : SecretRegistry) (world : World) : Prop where
  named : ∀ job ∈ pipeline.graph.jobs, ∀ input ∈ job.inputs, ∃ other ∈ pipeline.graph.jobs, other.id = input
  edges : ∀ dependent job, pipeline.graph.jobs[dependent]? = some job → ∀ input ∈ job.inputs,
    ∃ dependency, Holds pipeline.graph.jobs dependency input ∧ pipeline.graph.shape.Edge dependency dependent
  finished : ∀ before atMs j after, (runPipeline env registry world).2 = before ++ ⟨atMs,.jobStarted j⟩ :: after →
    ∀ job ∈ pipeline.graph.jobs, job.id = j → ∀ input ∈ job.inputs,
      ∃ finishedAt, ⟨finishedAt,.jobFinished input .succeeded⟩ ∈ before

theorem runs_after_named {pipeline : Pipeline env.petgraph Vm} (registry : SecretRegistry)
    (compiled : compileAt env world = (.ok pipeline,started)) (documented : Documented env.petgraph pipeline.graph.shape)
    (named : ∀ job ∈ pipeline.graph.jobs, ∀ input ∈ job.inputs, ∃ other ∈ pipeline.graph.jobs, other.id = input) :
    RunsAfterNamed env pipeline registry world where
  named := named
  edges := by
    intro dependent job found input lists
    obtain ⟨other,member,same⟩ := named job (List.mem_of_getElem? found) input lists
    obtain ⟨dependency,at_input⟩ := List.mem_iff_getElem?.mp member
    have holds : Holds pipeline.graph.jobs dependency input := ⟨other,at_input,same⟩
    exact ⟨dependency,holds,graph_edge_iff.mpr ⟨job,found,input,lists,holds⟩⟩
  finished := by
    intro before atMs j after split job listed same input lists
    obtain ⟨order,ordered,starts⟩ := runPipeline_startsAfter registry compiled documented
    obtain ⟨earlier,later,placed,finished⟩ := starts before atMs j after split
    have step : Input pipeline input j := ⟨named job listed input lists,job,listed,same,lists⟩
    exact finished input (ordered.ancestor (.single step) placed)

structure DependsOnNamed (env : Env World Vm) (registry : SecretRegistry) (world : World) : Prop where
  runs : ∀ pipeline started, compileAt env world = (.ok pipeline,started) → RunsAfterNamed env pipeline registry world
  refused : ∀ source calls, Script env world source calls →
    (∃ job ∈ calls.filterMap declaredBy, ∃ input ∈ job.inputs, ¬ Named calls input) →
    ∀ pipeline started, compileAt env world ≠ (.ok pipeline,started)

theorem compiled_sound {pipeline : Pipeline env.petgraph Vm}
    (documented : ∀ source calls, Script env world source calls → Walks env.petgraph (scriptGraph source calls).shape)
    (script : Script env world source calls) (compiled : compileAt env world = (.ok pipeline,started)) :
    Sound calls ∧ pipeline.graph = scriptGraph source calls ∧ ∃ users, pipeline.graph.jobs = users ++ [builtinPushJob] ∧
      users.map declared = calls.filterMap declaredBy := by
  obtain ⟨_,_,again,made⟩ := compileAt_script compiled
  obtain ⟨rfl,rfl⟩ := script.unique again
  obtain ⟨_,fennel,vm,_,created,evaluated⟩ := id script
  obtain ⟨_,_,_,recreated,reevaluated,users,split,same,_⟩ := compile_parts made
  cases created.symm.trans recreated
  cases evaluated.symm.trans reevaluated
  have sound := (compile_ok_iff created evaluated (documented _ _ script).toSearched).mp ⟨pipeline,made⟩
  exact ⟨sound,(compile_inv created evaluated made).2.2,users,split,same⟩

theorem depends_on_named_iff (env : Env World Vm) (registry : SecretRegistry) (world : World)
    (documented : ∀ source calls, Script env world source calls → Walks env.petgraph (scriptGraph source calls).shape) :
    DependsOnNamed env registry world ↔ ∀ source calls, Script env world source calls →
      (∃ job ∈ calls.filterMap declaredBy, Mixes calls job) → ¬ Sound calls := by
  constructor
  · intro depends source calls script ⟨job,listed,_,unnamed⟩ sound
    obtain ⟨_,fennel,vm,_,created,evaluated⟩ := id script
    obtain ⟨pipeline,made⟩ := (compile_ok_iff created evaluated (documented _ _ script).toSearched).mpr sound
    obtain ⟨started,compiled⟩ := script_compiles script made
    exact depends.refused source calls script ⟨job,listed,unnamed⟩ pipeline started compiled
  · intro never
    have named : ∀ source calls, Script env world source calls → ∀ pipeline started, compileAt env world = (.ok pipeline,started) →
        ∀ job ∈ calls.filterMap declaredBy, ∀ input ∈ job.inputs, Named calls input := by
      intro source calls script pipeline started compiled job listed input lists
      obtain ⟨sound,_⟩ := compiled_sound documented script compiled
      refine sound.named (fun other member mixes => ?_) listed lists
      exact never source calls script ⟨other,member,mixes⟩ sound
    constructor
    · intro pipeline started compiled
      obtain ⟨source,calls,script,_⟩ := compileAt_script compiled
      obtain ⟨_,graph,users,split,same⟩ := compiled_sound documented script compiled
      apply runs_after_named registry compiled (graph ▸ (documented _ _ script).documented)
      intro job listed input lists
      rw [split] at listed ⊢
      rcases List.mem_append.mp listed with user | push
      · have declares := (declared_mem same).mpr ⟨job,user,rfl⟩
        exact (named_iff same).mp (named source calls script pipeline started compiled _ declares input lists)
      · obtain rfl := List.mem_singleton.mp push
        cases lists
    · intro source calls script ⟨job,listed,input,lists,unnamed⟩ pipeline started compiled
      exact unnamed (named source calls script pipeline started compiled job listed input lists)

-- `build` with these inputs is the only job of the script: node 0, before push.
def oneJob (inputs : List String) : Lua Unit :=
  scripted [.job "build" inputs quiet 1]

def pair : Digraph := ⟨2,[(1,0)]⟩

def pairPetgraph : Petgraph where
  tarjanScc _ := [[1],[0]]
  toposort _ := some [1,0]
  bfs _ node := [[0,1],[1]].getD node []

def oneJobEnv (inputs : List String) : Env Unit Unit :=
  ⟨quietHost,oneJob inputs,pairPetgraph,"/work","/logs",⟨"4b825dc","refs/heads/main","2026-05-06T12:00:00Z"⟩⟩

theorem pair_edge : pair.Edge a b ↔ a = 1 ∧ b = 0 := by
  simp [pair,Digraph.Edge]

theorem pair_reaches : ReflTransGen pair.Edge a b ↔ a = b ∨ (a = 1 ∧ b = 0) := by
  constructor
  · intro path
    induction path with
    | refl => exact .inl rfl
    | tail path edge ih =>
      obtain ⟨rfl,rfl⟩ := pair_edge.mp edge
      exact .inr ⟨by omega,rfl⟩
  · intro reached
    rcases reached with rfl | edge
    · exact .refl
    · exact .single (pair_edge.mpr edge)

theorem pair_walks : Walks pairPetgraph pair where
  tarjanScc := by
    refine ⟨by decide,by decide,fun a => ?_,?_⟩
    · change a ∈ [1,0] ↔ a < 2
      simp
      omega
    · intro scc member a inside b bound
      simp only [pairPetgraph,List.mem_cons,List.not_mem_nil,or_false] at member
      rcases member with rfl | rfl
      · obtain rfl := List.mem_singleton.mp inside
        simp only [pair_reaches,List.mem_singleton]
        omega
      · obtain rfl := List.mem_singleton.mp inside
        simp only [pair_reaches,List.mem_singleton]
        omega
  bfs := by
    intro a b bound
    rw [reversed_path,pair_reaches]
    change a < 2 at bound
    obtain rfl | rfl : a = 0 ∨ a = 1 := by omega
    · simp [pairPetgraph]
    · simp [pairPetgraph]
  toposort := by
    intro _
    refine ⟨[1,0],rfl,by decide,fun a => ?_,?_⟩
    · change a ∈ [1,0] ↔ a < 2
      simp
      omega
    · intro earlier b later split a edge
      obtain ⟨rfl,rfl⟩ := pair_edge.mp edge
      cases earlier with
      | nil => simp at split
      | cons first rest =>
        obtain ⟨rfl,_⟩ := List.cons.inj split
        exact List.mem_cons_self

theorem oneJob_script (inputs : List String) : Script (oneJobEnv inputs) () "" [.job "build" inputs quiet 1] :=
  ⟨(),(),(),rfl,rfl,rfl⟩

theorem oneJob_walks {inputs : List String} (shape : (scriptGraph "" [.job "build" inputs quiet 1]).shape = pair) :
    ∀ source calls, Script (oneJobEnv inputs) () source calls → Walks (oneJobEnv inputs).petgraph (scriptGraph source calls).shape := by
  intro source calls script
  obtain ⟨rfl,rfl⟩ := (oneJob_script inputs).unique script
  exact shape ▸ pair_walks

theorem depends_on_named_one_job : DependsOnNamed (oneJobEnv ["quire/push"]) SecretRegistry.new () := by
  apply (depends_on_named_iff (oneJobEnv ["quire/push"]) SecretRegistry.new () (oneJob_walks (by decide))).mpr
  intro source calls script ⟨job,listed,_,input,lists,unnamed⟩ _
  obtain ⟨rfl,rfl⟩ := (oneJob_script ["quire/push"]).unique script
  obtain rfl := List.mem_singleton.mp listed
  exact unnamed (.inl (List.mem_singleton.mp lists))

-- A job `test` is misspelt, and the script compiles all the same.
theorem misspelt_beside_push : ¬ ∀ (env : Env Unit Unit) (registry : SecretRegistry) (world : Unit),
    (∀ source calls, Script env world source calls → Walks env.petgraph (scriptGraph source calls).shape) →
    DependsOnNamed env registry world := by
  intro claimed
  have depends := claimed (oneJobEnv ["quire/push","tset"]) SecretRegistry.new () (oneJob_walks (by decide))
  have compiles : (compileAt (oneJobEnv ["quire/push","tset"]) ()).1.isOk = true := by decide
  rcases compiled : compileAt (oneJobEnv ["quire/push","tset"]) () with ⟨error | pipeline,started⟩
  · rw [compiled] at compiles
    cases compiles
  · refine depends.refused "" _ (oneJob_script _) ⟨_,List.mem_singleton_self _,"tset",by simp,?_⟩ pipeline started compiled
    simp [Named,declaredBy]

end Quire.NamedInputs
