import Quire.JobPipeline

namespace Quire.JobOrder
open Relation Precedence Primitives JobPipeline
variable {Vm : Type} {petgraph : Petgraph}

structure Topological (graph : Digraph) (order : List Nat) : Prop where
  nodup : order.Nodup
  nodes : ∀ a, a ∈ order ↔ a < graph.nodes
  ordered : Ordered graph.Edge order

-- What petgraph documents of the three functions, for one graph.
structure Documented (petgraph : Petgraph) (graph : Digraph) : Prop where
  tarjanScc : ∀ a b, a < graph.nodes → b < graph.nodes →
    ((∃ scc ∈ petgraph.tarjanScc graph, a ∈ scc ∧ b ∈ scc) ↔ ReflTransGen graph.Edge a b ∧ ReflTransGen graph.Edge b a)
  toposort : Acyclic graph.Edge → ∃ order, petgraph.toposort graph = some order ∧ Topological graph order
  bfs : ∀ a b, a < graph.nodes → (b ∈ petgraph.bfs graph.reversed a ↔ ReflTransGen graph.reversed.Edge a b)

def Holds (jobs : List (Job Vm)) (idx : Nat) (name : String) : Prop := ∃ job, jobs[idx]? = some job ∧ job.id = name

theorem holds_iff {jobs : List (Job Vm)} : Holds jobs idx name ↔ (jobs.map Job.id)[idx]? = some name := by
  simp [Holds,List.getElem?_map]

theorem holds_unique {jobs : List (Job Vm)} (distinct : (jobs.map Job.id).Nodup) (left : Holds jobs a name)
    (right : Holds jobs b name) : a = b := by
  rw [holds_iff] at left right
  obtain ⟨bound,_⟩ := List.getElem?_eq_some_iff.mp left
  exact (List.getElem?_inj bound distinct).mp (left.trans right.symm)

theorem lookup_foldl_insert {entries : List (Job Vm × Nat)} {table : AList (fun _ : String => Nat)}
    (distinct : (entries.map fun entry => entry.1.id).Nodup) :
    (entries.foldl (fun byId entry => byId.insert entry.1.id entry.2) table).lookup name = some idx ↔
      (∃ entry ∈ entries, entry.1.id = name ∧ entry.2 = idx) ∨
        (name ∉ entries.map (fun entry => entry.1.id) ∧ table.lookup name = some idx) := by
  induction entries generalizing table with
  | nil => simp
  | cons entry rest ih =>
    obtain ⟨fresh,distinct⟩ := List.nodup_cons.mp distinct
    rw [List.foldl_cons,ih distinct]
    by_cases same : name = entry.1.id
    · subst same
      rw [AList.lookup_insert]
      grind
    · rw [AList.lookup_insert_ne same]
      grind

theorem lookup_indexById {jobs : List (Job Vm)} (distinct : (jobs.map Job.id).Nodup) :
    (indexById jobs).lookup name = some idx ↔ Holds jobs idx name := by
  have keys : (jobs.zipIdx.map fun entry => entry.1.id) = jobs.map Job.id := by
    have split : (jobs.zipIdx.map fun entry => entry.1.id) = (jobs.zipIdx.map Prod.fst).map Job.id := by
      rw [List.map_map]
      rfl
    rw [split,List.zipIdx_map_fst]
  apply (lookup_foldl_insert (keys ▸ distinct)).trans
  simp [Holds,List.mem_zipIdx_iff_getElem?]

theorem edge_iff {jobs : List (Job Vm)} (distinct : (jobs.map Job.id).Nodup) :
    (a,b) ∈ (buildGraph jobs).1.edges ↔
      ∃ dependent, jobs[b]? = some dependent ∧ ∃ input ∈ dependent.inputs, Holds jobs a input := by
  simp only [buildGraph,List.mem_flatMap,List.mem_filterMap,Option.map_eq_some_iff,Prod.mk.injEq,
    lookup_indexById distinct]
  constructor
  · intro edge
    obtain ⟨⟨dependent,idx⟩,member,input,listed,_,found,rfl,rfl⟩ := edge
    exact ⟨dependent,List.mem_zipIdx_iff_getElem?.mp member,input,listed,found⟩
  · intro edge
    obtain ⟨dependent,at_b,input,listed,found⟩ := edge
    exact ⟨(dependent,b),List.mem_zipIdx_iff_getElem?.mpr at_b,input,listed,a,found,rfl,rfl⟩

theorem validate_ok (valid : validatePostGraph petgraph graph = .ok ()) :
    (petgraph.tarjanScc graph.shape).filter (isCycle graph) = [] := by
  simp only [validatePostGraph] at valid
  split at valid
  · rename_i none
    exact List.map_eq_nil_iff.mp (List.append_eq_nil_iff.mp none).1
  · cases valid

variable {pipeline : Pipeline petgraph Vm}

theorem byId_iff : pipeline.byId.lookup name = some idx ↔ Holds pipeline.graph.jobs idx name := by
  have built : indexById pipeline.graph.jobs = pipeline.byId := congrArg Prod.snd pipeline.built
  rw [← built,lookup_indexById pipeline.distinct]

theorem graph_edge_iff : pipeline.graph.shape.Edge a b ↔
    ∃ dependent, pipeline.graph.jobs[b]? = some dependent ∧
      ∃ input ∈ dependent.inputs, Holds pipeline.graph.jobs a input := by
  have built : (buildGraph pipeline.graph.jobs).1 = pipeline.graph := congrArg Prod.fst pipeline.built
  have edge := edge_iff pipeline.distinct (a := a) (b := b)
  rw [built] at edge
  exact edge

theorem edge_bounded (edge : pipeline.graph.shape.Edge a b) :
    a < pipeline.graph.shape.nodes ∧ b < pipeline.graph.shape.nodes := by
  obtain ⟨dependent,at_b,input,_,job,at_a,_⟩ := graph_edge_iff.mp edge
  exact ⟨(List.getElem?_eq_some_iff.mp at_a).1,(List.getElem?_eq_some_iff.mp at_b).1⟩

theorem acyclic (documented : Documented petgraph pipeline.graph.shape) : Acyclic pipeline.graph.shape.Edge := by
  have passed : ∀ scc ∈ petgraph.tarjanScc pipeline.graph.shape, isCycle pipeline.graph scc ≠ true :=
    List.filter_eq_nil_iff.mp (validate_ok pipeline.valid)
  apply acyclic_of_components (fun a b (edge : pipeline.graph.shape.Edge a b) => edge_bounded edge) documented.tarjanScc
  · intro scc member
    have fine := passed scc member
    match scc with
    | [] => exact Nat.zero_le _
    | [_] => exact Nat.le_refl _
    | _ :: _ :: _ => exact absurd rfl fine
  · intro a member loop
    exact passed [a] member (List.contains_iff_mem.mpr loop)

-- `i` is listed in the inputs of `j`, and both are jobs.
def Input (pipeline : Pipeline petgraph Vm) (i j : String) : Prop :=
  (∃ job ∈ pipeline.graph.jobs, job.id = i) ∧ ∃ job ∈ pipeline.graph.jobs, job.id = j ∧ i ∈ job.inputs

def TransitiveInput (pipeline : Pipeline petgraph Vm) : String → String → Prop := TransGen (Input pipeline)

def nameAt (jobs : List (Job Vm)) (idx : Nat) : String := (jobs[idx]?.map Job.id).getD ""

theorem nameAt_eq {jobs : List (Job Vm)} (holds : Holds jobs idx name) : nameAt jobs idx = name := by
  obtain ⟨job,found,rfl⟩ := holds
  simp [nameAt,found]

theorem names_of_order {jobs : List (Job Vm)} {order : List Nat} (bounded : ∀ idx ∈ order, idx < jobs.length) :
    (order.filterMap fun idx => jobs[idx]?).map Job.id = order.map (nameAt jobs) := by
  induction order with
  | nil => rfl
  | cons idx rest ih =>
    have bound := bounded idx List.mem_cons_self
    have rest := ih fun idx member => bounded idx (List.mem_cons_of_mem _ member)
    simp [List.getElem?_eq_getElem bound,nameAt,rest]

theorem holds_nameAt {jobs : List (Job Vm)} (bound : idx < jobs.length) : Holds jobs idx (nameAt jobs idx) :=
  ⟨_,List.getElem?_eq_getElem bound,by simp [nameAt,List.getElem?_eq_getElem bound]⟩

theorem input_edge (input : Input pipeline i j) (holds : Holds pipeline.graph.jobs b j) :
    ∃ a, Holds pipeline.graph.jobs a i ∧ pipeline.graph.shape.Edge a b := by
  obtain ⟨⟨source,member,rfl⟩,dependent,listed,rfl,lists⟩ := input
  obtain ⟨a,at_a⟩ := List.mem_iff_getElem?.mp member
  obtain ⟨c,at_c⟩ := List.mem_iff_getElem?.mp listed
  obtain rfl := holds_unique pipeline.distinct holds ⟨dependent,at_c,rfl⟩
  exact ⟨a,⟨source,at_a,rfl⟩,graph_edge_iff.mpr ⟨dependent,at_c,source.id,lists,source,at_a,rfl⟩⟩

-- The order in which the jobs run: every job once, after all its inputs.
structure Order (pipeline : Pipeline petgraph Vm) (ids : List String) : Prop where
  nodup : ids.Nodup
  members : ∀ name, name ∈ ids ↔ ∃ job ∈ pipeline.graph.jobs, job.id = name
  ordered : Ordered (Input pipeline) ids

theorem jobs_order (documented : Documented petgraph pipeline.graph.shape) :
    ∃ jobs, pipeline.jobs = some jobs ∧ Order pipeline (jobs.map Job.id) := by
  obtain ⟨order,sorted,topological⟩ := documented.toposort (acyclic documented)
  have bounded : ∀ idx ∈ order, idx < pipeline.graph.jobs.length := fun idx => (topological.nodes idx).mp
  refine ⟨_,congrArg (Option.map _) sorted,?_⟩
  change Order pipeline ((order.filterMap fun idx => pipeline.graph.jobs[idx]?).map Job.id)
  rw [names_of_order bounded]
  constructor
  · apply topological.nodup.map_on
    intro a first b second same
    exact holds_unique pipeline.distinct (holds_nameAt (bounded a first)) (same ▸ holds_nameAt (bounded b second))
  · intro name
    constructor
    · intro member
      obtain ⟨idx,listed,rfl⟩ := List.mem_map.mp member
      have bound := bounded idx listed
      exact ⟨_,List.getElem_mem bound,by simp [nameAt,List.getElem?_eq_getElem bound]⟩
    · intro named
      obtain ⟨job,member,rfl⟩ := named
      obtain ⟨idx,found⟩ := List.mem_iff_getElem?.mp member
      have bound := (List.getElem?_eq_some_iff.mp found).1
      exact List.mem_map.mpr ⟨idx,(topological.nodes idx).mpr bound,nameAt_eq ⟨job,found,rfl⟩⟩
  · apply topological.ordered.map _
    intro b member i input
    obtain ⟨a,at_a,edge⟩ := input_edge input (holds_nameAt (bounded b member))
    exact ⟨a,nameAt_eq at_a,edge⟩

theorem Order.ancestor (order : Order pipeline ids) (ancestor : TransitiveInput pipeline i j)
    (split : ids = earlier ++ j :: later) : i ∈ earlier :=
  order.ordered.ancestor ancestor split

theorem job_found (member : ∃ job ∈ pipeline.graph.jobs, job.id = name) : ∃ job, pipeline.job name = some job := by
  obtain ⟨job,member,rfl⟩ := member
  obtain ⟨idx,found⟩ := List.mem_iff_getElem?.mp member
  have indexed : pipeline.byId.lookup job.id = some idx := byId_iff.mpr ⟨job,found,rfl⟩
  exact ⟨job,by simp [Pipeline.job,indexed,found]⟩

theorem edge_input (edge : pipeline.graph.shape.Edge a b) :
    Input pipeline (nameAt pipeline.graph.jobs a) (nameAt pipeline.graph.jobs b) := by
  obtain ⟨dependent,at_b,input,listed,source,at_a,same⟩ := graph_edge_iff.mp edge
  rw [nameAt_eq ⟨dependent,at_b,rfl⟩,nameAt_eq ⟨source,at_a,same⟩]
  exact ⟨⟨source,List.mem_of_getElem? at_a,same⟩,dependent,List.mem_of_getElem? at_b,rfl,listed⟩

theorem path_iff (holds : Holds pipeline.graph.jobs b j) :
    TransitiveInput pipeline i j ↔ ∃ a, Holds pipeline.graph.jobs a i ∧ TransGen pipeline.graph.shape.Edge a b := by
  constructor
  · intro path
    induction path using TransGen.head_induction_on with
    | single input =>
      obtain ⟨a,at_a,edge⟩ := input_edge input holds
      exact ⟨a,at_a,.single edge⟩
    | head input _ ih =>
      obtain ⟨middle,at_middle,rest⟩ := ih
      obtain ⟨a,at_a,edge⟩ := input_edge input at_middle
      exact ⟨a,at_a,.head edge rest⟩
  · intro reaches
    obtain ⟨a,at_a,path⟩ := reaches
    rw [← nameAt_eq at_a,← nameAt_eq holds]
    exact TransGen.lift (nameAt pipeline.graph.jobs) (fun _ _ edge => edge_input edge) a b path

theorem reversed_path (graph : Digraph) :
    ReflTransGen graph.reversed.Edge a b ↔ ReflTransGen graph.Edge b a := by
  have swapped : graph.reversed.Edge = Function.swap graph.Edge := by
    funext x y
    simp [Digraph.reversed,Digraph.Edge,Function.swap]
  rw [swapped,reflTransGen_swap]

theorem transitiveInputs_iff (documented : Documented petgraph pipeline.graph.shape)
    (entry : (j,names) ∈ pipeline.transitiveInputs) : i ∈ names ↔ TransitiveInput pipeline i j := by
  obtain ⟨indexed,member,same⟩ := List.mem_map.mp entry
  obtain ⟨name,start⟩ := indexed
  cases same
  have holds : Holds pipeline.graph.jobs start name := byId_iff.mp (AList.mem_lookup_iff.mpr member)
  have bound : start < pipeline.graph.shape.nodes := by
    obtain ⟨job,found,_⟩ := holds
    exact (List.getElem?_eq_some_iff.mp found).1
  have loopless := acyclic documented
  simp only [List.mem_filterMap,List.mem_filter,decide_eq_true_eq,Option.map_eq_some_iff,
    documented.bfs start _ bound,reversed_path,path_iff holds]
  constructor
  · intro ancestor
    obtain ⟨a,⟨reached,other⟩,job,found,rfl⟩ := ancestor
    exact ⟨a,⟨job,found,rfl⟩,(reflTransGen_iff_eq_or_transGen.mp reached).resolve_left other.symm⟩
  · intro ancestor
    obtain ⟨a,⟨job,found,rfl⟩,path⟩ := ancestor
    exact ⟨a,⟨path.to_reflTransGen,fun same => loopless a (same ▸ path)⟩,job,found,rfl⟩

theorem transitiveInputs_keys (member : ∃ job ∈ pipeline.graph.jobs, job.id = name) :
    ∃ names, (name,names) ∈ pipeline.transitiveInputs := by
  obtain ⟨job,listed,rfl⟩ := member
  obtain ⟨idx,found⟩ := List.mem_iff_getElem?.mp listed
  have indexed := AList.mem_lookup_iff.mp (byId_iff.mpr ⟨job,found,rfl⟩)
  exact ⟨_,List.mem_map_of_mem indexed⟩

end Quire.JobOrder
