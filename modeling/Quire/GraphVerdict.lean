import Mathlib.Data.List.Sort
import Mathlib.Data.List.Nodup
import Mathlib.Data.List.Perm.Basic
import Quire.JobOrder

namespace Quire.GraphVerdict
open Relation Precedence Secret JobPipeline JobOrder
variable {Vm : Type} {petgraph : Petgraph}

instance : Std.Total fun a b : Job Vm => nameLe a.id b.id = true :=
  ⟨fun a b => by simpa only [nameLe_iff] using le_total a.id b.id⟩

instance : IsTrans (Job Vm) fun a b => nameLe a.id b.id = true :=
  ⟨fun a b c => by simpa only [nameLe_iff] using le_trans⟩

-- What petgraph documents of the two functions the validator calls: the
-- strongly connected components, each node in one of them, and what a `Bfs` of
-- the reversed graph visits.
structure Components (graph : Digraph) (components : List (List Nat)) : Prop where
  disjoint : components.flatten.Nodup
  nonempty : ∀ scc ∈ components, scc ≠ []
  nodes : ∀ a, a ∈ components.flatten ↔ a < graph.nodes
  classes : ∀ scc ∈ components, ∀ a ∈ scc, ∀ b, b < graph.nodes →
    (b ∈ scc ↔ ReflTransGen graph.Edge a b ∧ ReflTransGen graph.Edge b a)

structure Searched (petgraph : Petgraph) (graph : Digraph) : Prop where
  tarjanScc : Components graph (petgraph.tarjanScc graph)
  bfs : ∀ a b, a < graph.nodes → (b ∈ petgraph.bfs graph.reversed a ↔ ReflTransGen graph.reversed.Edge a b)

-- `i` is listed in the inputs of `j`, and both are jobs.
def Resolves (jobs : List (Job Vm)) (i j : String) : Prop :=
  (∃ job ∈ jobs, job.id = i) ∧ ∃ job ∈ jobs, job.id = j ∧ i ∈ job.inputs

-- One strongly connected component with more than one job or a self-edge, by id.
structure CycleReport (jobs members : List (Job Vm)) : Prop where
  registered : ∀ job ∈ members, job ∈ jobs
  sorted : (members.map Job.id).Pairwise (· < ·)
  component : ∀ a ∈ members, ∀ b ∈ jobs,
    (b ∈ members ↔ ReflTransGen (Resolves jobs) a.id b.id ∧ ReflTransGen (Resolves jobs) b.id a.id)
  cyclic : 2 ≤ members.length ∨ ∃ job ∈ members, job.id ∈ job.inputs

-- A chain of resolved inputs leads from the job back to quire/push.
def Reaches (jobs : List (Job Vm)) (job : Job Vm) : Prop := ReflTransGen (Resolves jobs) "quire/push" job.id

def jobsOf : StructureError → List String
  | .cycle cycleJobs _ => cycleJobs
  | .unreachable jobId _ => [jobId]

structure Verdict (jobs : List (Job Vm)) (errors : List StructureError) : Prop where
  cycles : ∀ names spans, .cycle names spans ∈ errors ↔
    ∃ members, CycleReport jobs members ∧ members.map Job.id = names ∧ members.map Job.span = spans.map some
  unreachable : ∀ name span, .unreachable name span ∈ errors ↔
    ∃ job ∈ jobs, job.id = name ∧ job.span = some span ∧ (∀ members, CycleReport jobs members → job ∉ members) ∧
      ¬ Reaches jobs job
  once : (errors.flatMap jobsOf).Nodup

section names
variable {jobs : List (Job Vm)}

theorem resolves_edge (distinct : (jobs.map Job.id).Nodup) (resolves : Resolves jobs i j) (holds : Holds jobs b j) :
    ∃ a, Holds jobs a i ∧ (buildGraph jobs).1.shape.Edge a b := by
  obtain ⟨⟨source,member,rfl⟩,dependent,listed,rfl,lists⟩ := resolves
  obtain ⟨a,at_a⟩ := List.mem_iff_getElem?.mp member
  obtain ⟨c,at_c⟩ := List.mem_iff_getElem?.mp listed
  obtain rfl := holds_unique distinct holds ⟨dependent,at_c,rfl⟩
  exact ⟨a,⟨source,at_a,rfl⟩,(edge_iff distinct).mpr ⟨dependent,at_c,source.id,lists,source,at_a,rfl⟩⟩

theorem edge_resolves (distinct : (jobs.map Job.id).Nodup) (edge : (buildGraph jobs).1.shape.Edge a b) :
    Resolves jobs (nameAt jobs a) (nameAt jobs b) := by
  obtain ⟨dependent,at_b,input,listed,source,at_a,same⟩ := (edge_iff distinct).mp edge
  rw [nameAt_eq ⟨dependent,at_b,rfl⟩,nameAt_eq ⟨source,at_a,same⟩]
  exact ⟨⟨source,List.mem_of_getElem? at_a,same⟩,dependent,List.mem_of_getElem? at_b,rfl,listed⟩

-- Reachability of nodes is reachability of the names they hold.
theorem reach_iff (distinct : (jobs.map Job.id).Nodup) (at_a : Holds jobs a i) (at_b : Holds jobs b j) :
    ReflTransGen (buildGraph jobs).1.shape.Edge a b ↔ ReflTransGen (Resolves jobs) i j := by
  constructor
  · intro path
    rw [← nameAt_eq at_a,← nameAt_eq at_b]
    exact ReflTransGen.lift (nameAt jobs) (fun _ _ edge => edge_resolves distinct edge) _ _ path
  · intro path
    induction path using ReflTransGen.head_induction_on generalizing a with
    | refl => rw [holds_unique distinct at_a at_b]
    | head resolves path ih =>
      obtain ⟨⟨_,_⟩,job,member,same,_⟩ := id resolves
      obtain ⟨c,at_c⟩ := List.mem_iff_getElem?.mp member
      have holds : Holds jobs c _ := ⟨job,at_c,same⟩
      obtain ⟨first,at_first,edge⟩ := resolves_edge distinct resolves holds
      rw [holds_unique distinct at_a at_first]
      exact .head edge (ih holds)

variable {components : List (List Nat)} {scc : List Nat}

theorem mem_cycleMembers : job ∈ cycleMembers (buildGraph jobs).1 scc ↔ ∃ idx ∈ scc, jobs[idx]? = some job := by
  rw [cycleMembers,(List.perm_insertionSort _ _).mem_iff,List.mem_filterMap]
  rfl

theorem bounded (partition : Components graph components) (member : scc ∈ components) (listed : a ∈ scc) :
    a < graph.nodes :=
  (partition.nodes a).mp (List.mem_flatten.mpr ⟨scc,member,listed⟩)

theorem component_names (partition : Components (buildGraph jobs).1.shape components) (member : scc ∈ components) :
    (scc.filterMap fun idx => jobs[idx]?).map Job.id = scc.map (nameAt jobs) :=
  names_of_order fun _ listed => bounded partition member listed

theorem cycleMembers_length (partition : Components (buildGraph jobs).1.shape components) (member : scc ∈ components) :
    (cycleMembers (buildGraph jobs).1 scc).length = scc.length := by
  have names := congrArg List.length (component_names partition member)
  rw [List.length_map,List.length_map] at names
  rw [cycleMembers,List.length_insertionSort]
  exact names

-- Sorting moves the ids of a component around, no more.
theorem cycleMembers_ids (partition : Components (buildGraph jobs).1.shape components) (member : scc ∈ components) :
    ((cycleMembers (buildGraph jobs).1 scc).map Job.id).Perm (scc.map (nameAt jobs)) := by
  rw [← component_names partition member]
  exact (List.perm_insertionSort _ _).map Job.id

theorem nameAt_inj (distinct : (jobs.map Job.id).Nodup) (boundA : a < jobs.length) (boundB : b < jobs.length)
    (same : nameAt jobs a = nameAt jobs b) : a = b :=
  holds_unique distinct (holds_nameAt boundA) (same ▸ holds_nameAt boundB)

-- No id is in two components, or twice in one.
theorem component_ids (distinct : (jobs.map Job.id).Nodup)
    (partition : Components (buildGraph jobs).1.shape components) :
    (components.flatMap fun scc => (cycleMembers (buildGraph jobs).1 scc).map Job.id).Nodup := by
  have named : (components.flatten.map (nameAt jobs)).Nodup :=
    partition.disjoint.map_on fun a first b second same =>
      nameAt_inj distinct ((partition.nodes a).mp first) ((partition.nodes b).mp second) same
  rw [List.map_flatten] at named
  refine (List.Perm.nodup_iff ?_).mpr named
  exact List.Perm.flatMap_left components fun scc member => cycleMembers_ids partition member

theorem cycleMembers_sorted (distinct : (jobs.map Job.id).Nodup)
    (partition : Components (buildGraph jobs).1.shape components) (member : scc ∈ components) :
    ((cycleMembers (buildGraph jobs).1 scc).map Job.id).Pairwise (· < ·) := by
  have ascending := List.pairwise_insertionSort (fun a b : Job Vm => nameLe a.id b.id = true)
    (scc.filterMap fun idx => (buildGraph jobs).1.jobs[idx]?)
  have different : ((cycleMembers (buildGraph jobs).1 scc).map Job.id).Nodup :=
    (List.nodup_flatMap.mp (component_ids distinct partition)).1 scc member
  rw [List.pairwise_map]
  refine (ascending.and (List.pairwise_map.mp different)).imp fun step => ?_
  exact lt_of_le_of_ne (nameLe_iff.mp step.1) step.2

theorem isCycle_iff (distinct : (jobs.map Job.id).Nodup)
    (partition : Components (buildGraph jobs).1.shape components) (member : scc ∈ components) :
    isCycle (buildGraph jobs).1 scc = true ↔ 2 ≤ (cycleMembers (buildGraph jobs).1 scc).length ∨
      ∃ job ∈ cycleMembers (buildGraph jobs).1 scc, job.id ∈ job.inputs := by
  rw [cycleMembers_length partition member]
  match scc with
  | [] => exact absurd rfl (partition.nonempty [] member)
  | [node] =>
    have single : isCycle (buildGraph jobs).1 [node] = true ↔ (node,node) ∈ (buildGraph jobs).1.edges :=
      List.contains_iff_mem
    rw [single,edge_iff distinct]
    simp only [List.length_singleton,Nat.reduceLeDiff,false_or,mem_cycleMembers,List.mem_singleton,exists_eq_left]
    refine exists_congr fun job => and_congr_right fun found => ?_
    constructor
    · intro present
      obtain ⟨_,listed,other,at_node,rfl⟩ := present
      cases found.symm.trans at_node
      exact listed
    · exact fun listed => ⟨job.id,listed,job,found,rfl⟩
  | _ :: _ :: _ => exact iff_of_true rfl (.inl (by simp))

theorem at_unique (distinct : (jobs.map Job.id).Nodup) (left : a ∈ jobs) (right : b ∈ jobs) (same : a.id = b.id) : a = b :=
  List.inj_on_of_nodup_map distinct left right same

theorem cycleMembers_component (distinct : (jobs.map Job.id).Nodup)
    (partition : Components (buildGraph jobs).1.shape components) (member : scc ∈ components)
    (first : a ∈ cycleMembers (buildGraph jobs).1 scc) (listed : b ∈ jobs) :
    b ∈ cycleMembers (buildGraph jobs).1 scc ↔
      ReflTransGen (Resolves jobs) a.id b.id ∧ ReflTransGen (Resolves jobs) b.id a.id := by
  obtain ⟨x,inside,at_x⟩ := mem_cycleMembers.mp first
  obtain ⟨y,at_y⟩ := List.mem_iff_getElem?.mp listed
  have left : Holds jobs x a.id := ⟨a,at_x,rfl⟩
  have right : Holds jobs y b.id := ⟨b,at_y,rfl⟩
  have bound : y < (buildGraph jobs).1.shape.nodes := (List.getElem?_eq_some_iff.mp at_y).1
  have same : b ∈ cycleMembers (buildGraph jobs).1 scc ↔ y ∈ scc := by
    rw [mem_cycleMembers]
    constructor
    · intro inside
      obtain ⟨idx,present,found⟩ := inside
      exact holds_unique distinct ⟨b,found,rfl⟩ right ▸ present
    · exact fun present => ⟨y,present,at_y⟩
  rw [same,partition.classes scc member x inside y bound,reach_iff distinct left right,reach_iff distinct right left]

theorem cycleMembers_report (distinct : (jobs.map Job.id).Nodup)
    (partition : Components (buildGraph jobs).1.shape components) (member : scc ∈ components)
    (cycle : isCycle (buildGraph jobs).1 scc = true) : CycleReport jobs (cycleMembers (buildGraph jobs).1 scc) where
  registered := by
    intro job inside
    obtain ⟨idx,_,found⟩ := mem_cycleMembers.mp inside
    exact List.mem_of_getElem? found
  sorted := cycleMembers_sorted distinct partition member
  component := fun _ first _ listed => cycleMembers_component distinct partition member first listed
  cyclic := (isCycle_iff distinct partition member).mp cycle

theorem component_of (partition : Components (buildGraph jobs).1.shape components) (listed : job ∈ jobs) :
    ∃ scc ∈ components, job ∈ cycleMembers (buildGraph jobs).1 scc := by
  obtain ⟨idx,found⟩ := List.mem_iff_getElem?.mp listed
  have inside := (partition.nodes idx).mpr (List.getElem?_eq_some_iff.mp found).1
  obtain ⟨scc,member,present⟩ := List.mem_flatten.mp inside
  exact ⟨scc,member,mem_cycleMembers.mpr ⟨idx,present,found⟩⟩

theorem CycleReport.nonempty (report : CycleReport jobs members) : ∃ job, job ∈ members := by
  rcases report.cyclic with many | ⟨job,inside,_⟩
  · exact List.exists_mem_of_length_pos (by omega)
  · exact ⟨job,inside⟩

-- A set of jobs has one list by id.
theorem eq_of_ascending {first second : List (Job Vm)} (left : (first.map Job.id).Pairwise (· < ·))
    (right : (second.map Job.id).Pairwise (· < ·)) (same : ∀ job, job ∈ first ↔ job ∈ second) : first = second := by
  have leftNodup : (first.map Job.id).Nodup := left.imp fun step => ne_of_lt step
  have rightNodup : (second.map Job.id).Nodup := right.imp fun step => ne_of_lt step
  refine ((List.perm_ext_iff_of_nodup leftNodup.of_map rightNodup.of_map).mpr same).eq_of_pairwise ?_
    (List.pairwise_map.mp left) (List.pairwise_map.mp right)
  exact fun _ _ _ _ below above => absurd above (lt_asymm below)

theorem report_iff (distinct : (jobs.map Job.id).Nodup) (partition : Components (buildGraph jobs).1.shape components) :
    CycleReport jobs members ↔
      ∃ scc ∈ components.filter (isCycle (buildGraph jobs).1), cycleMembers (buildGraph jobs).1 scc = members := by
  constructor
  · intro report
    obtain ⟨job,inside⟩ := report.nonempty
    obtain ⟨scc,member,present⟩ := component_of partition (report.registered job inside)
    have alike : members = cycleMembers (buildGraph jobs).1 scc := by
      refine eq_of_ascending report.sorted (cycleMembers_sorted distinct partition member) fun other => ?_
      by_cases listed : other ∈ jobs
      · rw [report.component job inside other listed,cycleMembers_component distinct partition member present listed]
      · refine iff_of_false (fun held => listed (report.registered other held)) fun held => listed ?_
        obtain ⟨idx,_,found⟩ := mem_cycleMembers.mp held
        exact List.mem_of_getElem? found
    have cycle := (isCycle_iff distinct partition member).mpr (alike ▸ report.cyclic)
    exact ⟨scc,List.mem_filter.mpr ⟨member,cycle⟩,alike.symm⟩
  · intro listed
    obtain ⟨scc,member,rfl⟩ := listed
    obtain ⟨member,cycle⟩ := List.mem_filter.mp member
    exact cycleMembers_report distinct partition member cycle

theorem CycleReport.nodup (report : CycleReport jobs members) : (members.map Job.id).Nodup :=
  report.sorted.imp fun step => ne_of_lt step

-- A path from a job back to itself is what puts the job in a report.
theorem CycleReport.loops (report : CycleReport jobs members) (inside : job ∈ members) :
    TransGen (Resolves jobs) job.id job.id := by
  have listed := report.registered job inside
  rcases report.cyclic with many | ⟨other,present,self⟩
  · obtain ⟨other,present,different⟩ : ∃ other ∈ members, other.id ≠ job.id := by
      by_contra alone
      have same : ∀ name ∈ members.map Job.id, name = job.id := by
        intro name named
        obtain ⟨other,present,rfl⟩ := List.mem_map.mp named
        exact by_contra fun different => alone ⟨other,present,different⟩
      have short := List.nodup_iff_count_le_one.mp report.nodup job.id
      rw [List.count_eq_length.mpr fun name named => (same name named).symm,List.length_map] at short
      omega
    obtain ⟨there,back⟩ := (report.component job inside other (report.registered other present)).mp present
    rcases reflTransGen_iff_eq_or_transGen.mp there with same | there
    · exact absurd same different
    · exact there.trans_left back
  · have loop : Resolves jobs other.id other.id :=
      ⟨⟨other,report.registered other present,rfl⟩,other,report.registered other present,rfl,self⟩
    obtain ⟨there,back⟩ := (report.component job inside other (report.registered other present)).mp present
    exact ((TransGen.single loop).trans_left back).trans_right there

theorem two_of_different {members : List (Job Vm)} (left : a ∈ members) (right : b ∈ members) (different : a ≠ b) :
    2 ≤ members.length := by
  match members with
  | [] => cases left
  | [only] => exact absurd ((List.mem_singleton.mp left).trans (List.mem_singleton.mp right).symm) different
  | _ :: _ :: _ => simp

theorem reported_iff (distinct : (jobs.map Job.id).Nodup) (partition : Components (buildGraph jobs).1.shape components)
    (listed : job ∈ jobs) :
    (∃ members, CycleReport jobs members ∧ job ∈ members) ↔ TransGen (Resolves jobs) job.id job.id := by
  constructor
  · exact fun ⟨_,report,inside⟩ => report.loops inside
  · intro loop
    obtain ⟨scc,member,inside⟩ := component_of partition listed
    refine ⟨_,cycleMembers_report distinct partition member ((isCycle_iff distinct partition member).mpr ?_),inside⟩
    obtain ⟨middle,first,back⟩ := TransGen.head'_iff.mp loop
    obtain ⟨_,next,present,rfl,lists⟩ := id first
    have joined := (cycleMembers_component distinct partition member inside present).mpr ⟨.single first,back⟩
    by_cases same : next.id = job.id
    · obtain rfl := at_unique distinct present listed same
      exact .inr ⟨next,inside,lists⟩
    · exact .inl (two_of_different joined inside fun alike => same (alike ▸ rfl))

end names

section verdict
variable {users : List (Job Vm)}

theorem distinct_with_push (distinct : (users.map Job.id).Nodup) (slashless : ∀ job ∈ users, '/' ∉ job.id.toList) :
    ((users ++ [builtinPushJob]).map Job.id).Nodup :=
  Registration.distinct_push ⟨users,[],none,distinct,slashless⟩

theorem trigger_iff (fed : ∀ job ∈ users, job.inputs ≠ []) (listed : job ∈ users ++ [builtinPushJob]) :
    job.inputs = [] ↔ job = builtinPushJob := by
  rcases List.mem_append.mp listed with user | push
  · exact iff_of_false (fed job user) fun same => fed job user (same ▸ rfl)
  · exact iff_of_true (List.mem_singleton.mp push ▸ rfl) (List.mem_singleton.mp push)

-- The search from a node finds a trigger when the job's chain leads to push.
theorem foundTrigger_iff (distinct : ((users ++ [builtinPushJob]).map Job.id).Nodup)
    (fed : ∀ job ∈ users, job.inputs ≠ [])
    (bfs : ∀ a b, a < (users ++ [builtinPushJob]).length →
      (b ∈ petgraph.bfs (buildGraph (users ++ [builtinPushJob])).1.shape.reversed a ↔
        ReflTransGen (buildGraph (users ++ [builtinPushJob])).1.shape.reversed.Edge a b))
    (found : (users ++ [builtinPushJob])[node]? = some job) :
    foundTrigger petgraph (buildGraph (users ++ [builtinPushJob])).1 node = true ↔
      Reaches (users ++ [builtinPushJob]) job := by
  have bound := (List.getElem?_eq_some_iff.mp found).1
  have self : Holds (users ++ [builtinPushJob]) node job.id := ⟨job,found,rfl⟩
  simp only [foundTrigger,List.any_eq_true,Option.any_eq_true,decide_eq_true_eq,bfs node _ bound,reversed_path]
  constructor
  · intro searched
    obtain ⟨idx,path,trigger,at_idx,empty⟩ := searched
    obtain rfl := (trigger_iff fed (List.mem_of_getElem? at_idx)).mp empty
    exact (reach_iff distinct ⟨builtinPushJob,at_idx,rfl⟩ self).mp path
  · intro path
    obtain ⟨idx,at_idx⟩ := List.mem_iff_getElem?.mp (show builtinPushJob ∈ users ++ [builtinPushJob] by simp)
    exact ⟨idx,(reach_iff distinct ⟨builtinPushJob,at_idx,rfl⟩ self).mpr path,builtinPushJob,at_idx,rfl⟩

variable {jobs : List (Job Vm)} {cyclic : List String}

def cyclesOf (petgraph : Petgraph) (graph : JobGraph Vm) : List (List Nat) :=
  (petgraph.tarjanScc graph.shape).filter (isCycle graph)

def cyclicIds (petgraph : Petgraph) (graph : JobGraph Vm) : List String :=
  (cyclesOf petgraph graph).flatMap fun scc => (cycleMembers graph scc).map Job.id

def unreachables (petgraph : Petgraph) (graph : JobGraph Vm) : List StructureError :=
  graph.jobs.zipIdx.filterMap fun entry => unreachableError petgraph graph (cyclicIds petgraph graph) entry.1 entry.2

def errorsOf (petgraph : Petgraph) (graph : JobGraph Vm) : List StructureError :=
  (cyclesOf petgraph graph).map (cycleError graph) ++ unreachables petgraph graph

theorem validatePostGraph_eq (graph : JobGraph Vm) :
    validatePostGraph petgraph graph =
      if errorsOf petgraph graph = [] then .ok () else .error (errorsOf petgraph graph) := rfl

theorem unreachableError_iff {graph : JobGraph Vm} :
    unreachableError petgraph graph cyclic job node = some error ↔
      job.id ∉ cyclic ∧ job.inputs ≠ [] ∧ foundTrigger petgraph graph node = false ∧
        ∃ span, job.span = some span ∧ error = .unreachable job.id span := by
  unfold unreachableError
  split
  · rename_i inside; simp [inside]
  · rename_i outside
    split
    · rename_i user
      obtain ⟨span,known⟩ := Option.isSome_iff_exists.mp (job.spanned user)
      cases search : foundTrigger petgraph graph node <;> simp [outside,user,known,eq_comm]
    · rename_i trigger; simp_all

theorem mem_unreachables : error ∈ unreachables petgraph (buildGraph jobs).1 ↔
    ∃ job node, jobs[node]? = some job ∧ job.id ∉ cyclicIds petgraph (buildGraph jobs).1 ∧ job.inputs ≠ [] ∧
      foundTrigger petgraph (buildGraph jobs).1 node = false ∧
      ∃ span, job.span = some span ∧ error = .unreachable job.id span := by
  simp only [unreachables,List.mem_filterMap,unreachableError_iff,Prod.exists,List.mem_zipIdx_iff_getElem?]
  rfl

-- Each job brings at most one error, its own.
theorem unreachables_ids (entries : List (Job Vm × Nat)) (graph : JobGraph Vm) :
    ((entries.filterMap fun entry => unreachableError petgraph graph cyclic entry.1 entry.2).flatMap jobsOf).Sublist
      (entries.map fun entry => entry.1.id) := by
  induction entries with
  | nil => exact .slnil
  | cons entry rest ih =>
    rw [List.filterMap_cons]
    cases result : unreachableError petgraph graph cyclic entry.1 entry.2 with
    | none => exact ih.cons _
    | some error =>
      obtain ⟨_,_,_,span,_,rfl⟩ := unreachableError_iff.mp result
      exact ih.cons_cons _

theorem cycleErrors_ids (graph : JobGraph Vm) (components : List (List Nat)) :
    (components.map (cycleError graph)).flatMap jobsOf = components.flatMap fun scc => (cycleMembers graph scc).map Job.id := by
  rw [List.flatMap_map]
  rfl

theorem mem_cyclicIds (distinct : (jobs.map Job.id).Nodup)
    (partition : Components (buildGraph jobs).1.shape (petgraph.tarjanScc (buildGraph jobs).1.shape)) :
    name ∈ cyclicIds petgraph (buildGraph jobs).1 ↔ ∃ members, CycleReport jobs members ∧ name ∈ members.map Job.id := by
  simp only [cyclicIds,List.mem_flatMap,report_iff distinct partition,cyclesOf]
  constructor
  · intro cyclic
    obtain ⟨scc,member,inside⟩ := cyclic
    exact ⟨_,⟨scc,member,rfl⟩,inside⟩
  · intro reported
    obtain ⟨_,⟨scc,member,rfl⟩,inside⟩ := reported
    exact ⟨scc,member,inside⟩

theorem errors_once (distinct : (jobs.map Job.id).Nodup)
    (partition : Components (buildGraph jobs).1.shape (petgraph.tarjanScc (buildGraph jobs).1.shape)) :
    ((errorsOf petgraph (buildGraph jobs).1).flatMap jobsOf).Nodup := by
  rw [errorsOf,List.flatMap_append,List.nodup_append]
  refine ⟨?_,?_,?_⟩
  · rw [cycleErrors_ids]
    have all := List.nodup_flatMap.mp (component_ids distinct partition)
    exact List.nodup_flatMap.mpr ⟨fun scc member => all.1 scc (List.mem_filter.mp member).1,
      all.2.sublist List.filter_sublist⟩
  · refine List.Nodup.sublist (unreachables_ids _ _) ?_
    have ids : (jobs.zipIdx.map fun entry => entry.1.id) = (jobs.zipIdx.map Prod.fst).map Job.id := by
      rw [List.map_map]
      rfl
    rw [List.zipIdx_map_fst] at ids
    exact ids ▸ distinct
  · intro name cycle other alone same
    subst same
    rw [cycleErrors_ids] at cycle
    obtain ⟨error,listed,own⟩ := List.mem_flatMap.mp alone
    obtain ⟨job,node,_,outside,_,_,span,_,rfl⟩ := mem_unreachables.mp listed
    exact outside (List.mem_singleton.mp own ▸ cycle)

-- Whoever is on a cycle has inputs, so the job has a span.
theorem member_spans (distinct : (jobs.map Job.id).Nodup) (report : CycleReport jobs members) :
    members.map Job.span = (members.filterMap Job.span).map some := by
  have spanned : ∀ job ∈ members, job.span.isSome = true := by
    intro job inside
    obtain ⟨middle,_,last⟩ := TransGen.tail'_iff.mp (report.loops inside)
    obtain ⟨_,other,listed,same,lists⟩ := last
    obtain rfl := at_unique distinct listed (report.registered job inside) same
    exact other.spanned (List.ne_nil_of_mem lists)
  clear report
  induction members with
  | nil => rfl
  | cons job rest ih =>
    obtain ⟨span,known⟩ := Option.isSome_iff_exists.mp (spanned job List.mem_cons_self)
    rw [List.map_cons,List.filterMap_cons_some known,known,ih fun other later => spanned other (List.mem_cons_of_mem _ later)]
    rfl

theorem cycle_error_iff (distinct : (jobs.map Job.id).Nodup)
    (partition : Components (buildGraph jobs).1.shape (petgraph.tarjanScc (buildGraph jobs).1.shape)) :
    .cycle names spans ∈ errorsOf petgraph (buildGraph jobs).1 ↔
      ∃ members, CycleReport jobs members ∧ members.map Job.id = names ∧ members.map Job.span = spans.map some := by
  have separate : StructureError.cycle names spans ∉ unreachables petgraph (buildGraph jobs).1 := by
    intro listed
    obtain ⟨_,_,_,_,_,_,_,_,other⟩ := mem_unreachables.mp listed
    cases other
  rw [errorsOf,List.mem_append,or_iff_left separate,List.mem_map]
  constructor
  · intro listed
    obtain ⟨scc,member,same⟩ := listed
    have report : CycleReport jobs (cycleMembers (buildGraph jobs).1 scc) :=
      (report_iff distinct partition).mpr ⟨scc,member,rfl⟩
    cases same
    exact ⟨_,report,rfl,member_spans distinct report⟩
  · intro reported
    obtain ⟨members,report,rfl,spanned⟩ := reported
    obtain ⟨scc,member,rfl⟩ := (report_iff distinct partition).mp report
    refine ⟨scc,member,?_⟩
    rw [member_spans distinct report] at spanned
    exact congrArg _ (List.map_injective_iff.mpr (Option.some_injective _) spanned)

theorem unreachable_error_iff (distinct : ((users ++ [builtinPushJob]).map Job.id).Nodup)
    (fed : ∀ job ∈ users, job.inputs ≠ [])
    (searched : Searched petgraph (buildGraph (users ++ [builtinPushJob])).1.shape) :
    .unreachable name span ∈ errorsOf petgraph (buildGraph (users ++ [builtinPushJob])).1 ↔
      ∃ job ∈ users ++ [builtinPushJob], job.id = name ∧ job.span = some span ∧
        (∀ members, CycleReport (users ++ [builtinPushJob]) members → job ∉ members) ∧
        ¬ Reaches (users ++ [builtinPushJob]) job := by
  have separate : StructureError.unreachable name span ∉
      (cyclesOf petgraph (buildGraph (users ++ [builtinPushJob])).1).map (cycleError (buildGraph (users ++ [builtinPushJob])).1) := by
    intro listed
    obtain ⟨_,_,other⟩ := List.mem_map.mp listed
    cases other
  rw [errorsOf,List.mem_append,or_iff_right separate,mem_unreachables]
  constructor
  · intro unreached
    obtain ⟨job,node,found,outside,_,missed,_,known,same⟩ := unreached
    cases same
    have listed := List.mem_of_getElem? found
    refine ⟨job,listed,rfl,known,fun members report inside => outside ?_,fun reaches => ?_⟩
    · exact (mem_cyclicIds distinct searched.tarjanScc).mpr ⟨members,report,List.mem_map_of_mem inside⟩
    · rw [(foundTrigger_iff distinct fed searched.bfs found).mpr reaches] at missed
      cases missed
  · intro unreached
    obtain ⟨job,listed,rfl,known,outside,stranded⟩ := unreached
    obtain ⟨node,found⟩ := List.mem_iff_getElem?.mp listed
    refine ⟨job,node,found,fun cyclic => ?_,fun trigger => ?_,?_,span,known,rfl⟩
    · obtain ⟨members,report,named⟩ := (mem_cyclicIds distinct searched.tarjanScc).mp cyclic
      obtain ⟨other,inside,same⟩ := List.mem_map.mp named
      exact outside members report (at_unique distinct (report.registered other inside) listed same ▸ inside)
    · obtain rfl := (trigger_iff fed listed).mp trigger
      exact stranded .refl
    · exact Bool.eq_false_iff.mpr fun reached => stranded ((foundTrigger_iff distinct fed searched.bfs found).mp reached)

theorem no_errors_iff (distinct : ((users ++ [builtinPushJob]).map Job.id).Nodup)
    (partition : Components (buildGraph (users ++ [builtinPushJob])).1.shape components)
    (fed : ∀ job ∈ users, job.inputs ≠ []) (verdict : Verdict (users ++ [builtinPushJob]) errors) :
    errors = [] ↔ Acyclic (Resolves (users ++ [builtinPushJob])) ∧
      ∀ job ∈ users ++ [builtinPushJob], Reaches (users ++ [builtinPushJob]) job := by
  constructor
  · intro none
    subst none
    have acyclic : Acyclic (Resolves (users ++ [builtinPushJob])) := by
      intro name loop
      obtain ⟨_,⟨⟨job,listed,rfl⟩,_⟩,_⟩ := TransGen.head'_iff.mp loop
      obtain ⟨members,report,_⟩ := (reported_iff distinct partition listed).mpr loop
      have spanned := member_spans distinct report
      cases (verdict.cycles _ _).mpr ⟨members,report,rfl,spanned⟩
    refine ⟨acyclic,fun job listed => by_contra fun stranded => ?_⟩
    have user : job.inputs ≠ [] := by
      intro empty
      obtain rfl := (trigger_iff fed listed).mp empty
      exact stranded .refl
    obtain ⟨span,known⟩ := Option.isSome_iff_exists.mp (job.spanned user)
    have outside : ∀ members, CycleReport (users ++ [builtinPushJob]) members → job ∉ members :=
      fun members report inside => acyclic job.id (report.loops inside)
    cases (verdict.unreachable job.id span).mpr ⟨job,listed,rfl,known,outside,stranded⟩
  · intro sound
    obtain ⟨acyclic,reach⟩ := sound
    apply List.eq_nil_iff_forall_not_mem.mpr
    intro error listed
    cases error with
    | cycle names spans =>
      obtain ⟨members,report,_,_⟩ := (verdict.cycles names spans).mp listed
      obtain ⟨job,inside⟩ := report.nonempty
      exact acyclic job.id (report.loops inside)
    | unreachable name span =>
      obtain ⟨job,present,_,_,_,stranded⟩ := (verdict.unreachable name span).mp listed
      exact stranded (reach job present)

theorem validate_exact (users : List (Job Vm)) (distinct : (users.map Job.id).Nodup)
    (slashless : ∀ job ∈ users, '/' ∉ job.id.toList) (fed : ∀ job ∈ users, job.inputs ≠ [])
    (searched : Searched petgraph (buildGraph (users ++ [builtinPushJob])).1.shape) :
    ∃ errors, Verdict (users ++ [builtinPushJob]) errors ∧
      validatePostGraph petgraph (buildGraph (users ++ [builtinPushJob])).1 =
        (if errors = [] then .ok () else .error errors) ∧
      (validatePostGraph petgraph (buildGraph (users ++ [builtinPushJob])).1 = .ok () ↔
        Acyclic (Resolves (users ++ [builtinPushJob])) ∧
          ∀ job ∈ users ++ [builtinPushJob], Reaches (users ++ [builtinPushJob]) job) := by
  have distinct := distinct_with_push distinct slashless
  have verdict : Verdict (users ++ [builtinPushJob]) (errorsOf petgraph (buildGraph (users ++ [builtinPushJob])).1) :=
    ⟨fun _ _ => cycle_error_iff distinct searched.tarjanScc,fun _ _ => unreachable_error_iff distinct fed searched,
      errors_once distinct searched.tarjanScc⟩
  refine ⟨_,verdict,validatePostGraph_eq _,?_⟩
  rw [← no_errors_iff distinct searched.tarjanScc fed verdict,validatePostGraph_eq]
  split
  · rename_i none; exact iff_of_true rfl none
  · rename_i some; exact iff_of_false nofun some

end verdict

-- Jobs a and b wait for each other, and c for a job that is not there.
def tangled : List (Job Unit) :=
  [⟨"a",["b"],some ⟨0,1⟩,.lua fun vm => .done vm (.ok ()),fun _ => rfl⟩,
    ⟨"b",["a","a"],some ⟨2,1⟩,.lua fun vm => .done vm (.ok ()),fun _ => rfl⟩,
    ⟨"c",["typo"],some ⟨4,1⟩,.lua fun vm => .done vm (.ok ()),fun _ => rfl⟩]

def tangledPetgraph : Petgraph where
  tarjanScc _ := [[1,0],[2],[3]]
  toposort _ := none
  bfs _ node := if node = 0 then [0,1] else if node = 1 then [1,0] else [node]

theorem tangled_edge : (buildGraph (tangled ++ [builtinPushJob])).1.shape.Edge a b ↔ (a = 1 ∧ b = 0) ∨ (a = 0 ∧ b = 1) := by
  have edges : (buildGraph (tangled ++ [builtinPushJob])).1.edges = [(1,0),(0,1),(0,1)] := by decide
  simp [Digraph.Edge,JobGraph.shape,edges]

theorem tangled_reaches : ReflTransGen (buildGraph (tangled ++ [builtinPushJob])).1.shape.Edge a b ↔
    a = b ∨ (a < 2 ∧ b < 2) := by
  constructor
  · intro path
    induction path with
    | refl => exact .inl rfl
    | tail _ edge ih => rcases tangled_edge.mp edge with ⟨rfl,rfl⟩ | ⟨rfl,rfl⟩ <;> omega
  · intro order
    rcases order with rfl | ⟨boundA,boundB⟩
    · exact .refl
    · by_cases same : a = b
      · exact same ▸ .refl
      · exact .single (tangled_edge.mpr (by omega))

theorem tangled_searched : Searched tangledPetgraph (buildGraph (tangled ++ [builtinPushJob])).1.shape where
  tarjanScc := {
    disjoint := by decide
    nonempty := by decide
    nodes := by
      intro a
      change a ∈ [1,0,2,3] ↔ a < 4
      simp only [List.mem_cons,List.not_mem_nil,or_false]
      omega
    classes := by
      intro scc member a inside b _
      simp only [tangled_reaches]
      simp only [tangledPetgraph,List.mem_cons,List.not_mem_nil,or_false] at member
      rcases member with rfl | rfl | rfl <;> simp only [List.mem_cons,List.not_mem_nil,or_false] at inside ⊢ <;> omega }
  bfs := by
    intro a b _
    rw [reversed_path,tangled_reaches]
    simp only [tangledPetgraph]
    split
    · simp only [List.mem_cons,List.not_mem_nil,or_false]; omega
    · split <;> simp only [List.mem_cons,List.not_mem_nil,or_false] <;> omega

theorem validate_exact_tangled : ∃ errors, Verdict (tangled ++ [builtinPushJob]) errors ∧
    validatePostGraph tangledPetgraph (buildGraph (tangled ++ [builtinPushJob])).1 =
      (if errors = [] then .ok () else .error errors) ∧
    (validatePostGraph tangledPetgraph (buildGraph (tangled ++ [builtinPushJob])).1 = .ok () ↔
      Acyclic (Resolves (tangled ++ [builtinPushJob])) ∧
        ∀ job ∈ tangled ++ [builtinPushJob], Reaches (tangled ++ [builtinPushJob]) job) :=
  validate_exact tangled (by decide) (by decide) (by decide) tangled_searched

example : validatePostGraph tangledPetgraph (buildGraph (tangled ++ [builtinPushJob])).1 =
    .error [.cycle ["a","b"] [⟨0,1⟩,⟨2,1⟩],.unreachable "c" ⟨4,1⟩] := by
  rfl

end Quire.GraphVerdict
