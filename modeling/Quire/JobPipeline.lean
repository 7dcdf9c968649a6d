import Mathlib.Data.List.AList
import Quire.Precedence
import Quire.Primitives

namespace Quire.JobPipeline
open Relation Precedence Secret Primitives

structure SourceSpan where
  offset : Nat
  length : Nat
  deriving DecidableEq, Repr

def byteLength (chars : List Char) : Nat := chars.foldl (fun bytes ch => bytes + ch.utf8Size) 0

def spanFrom (target current offset : Nat) : List Char → Option SourceSpan
  | [] => none
  | ch :: rest =>
    if current = target then some ⟨offset,byteLength ((ch :: rest).takeWhile (· != '\n'))⟩
    else spanFrom target (if ch = '\n' then current + 1 else current) (offset + ch.utf8Size) rest

-- `line` counts from 1; 0 is an unknown line.
def spanForLine (source : String) (line : Nat) : SourceSpan :=
  if line = 0 then ⟨0,0⟩ else (spanFrom line 1 0 source.toList).getD ⟨source.utf8ByteSize,0⟩

inductive DefinitionError where
  | emptyInputs (jobId : String) (span : SourceSpan)
  | reservedSlash (jobId : String) (span : SourceSpan)
  | duplicateImage (span : SourceSpan)
  | duplicateJob (jobId : String) (span : SourceSpan)
  deriving DecidableEq, Repr

inductive StructureError where
  | cycle (cycleJobs : List String) (spans : List SourceSpan)
  | unreachable (jobId : String) (span : SourceSpan)
  deriving DecidableEq, Repr

inductive Diagnostic where
  | definition (error : DefinitionError)
  | structure (error : StructureError)
  deriving DecidableEq, Repr

-- A job with inputs is a user's, and a user's job has a call site.
structure Job (Vm : Type) where
  id : String
  inputs : List String
  span : Option SourceSpan
  runFn : RunFn Vm
  spanned : inputs ≠ [] → span.isSome = true

def Job.new (id : String) (inputs : List String) (runFn : RunFn Vm) (line : Nat) (source : String) :
    Except DefinitionError (Job Vm) :=
  let span := spanForLine source line
  if inputs = [] then .error (.emptyInputs id span) else .ok ⟨id,inputs,some span,runFn,fun _ => rfl⟩

theorem new_id {job : Job Vm} (made : Job.new name inputs runFn line source = .ok job) : job.id = name := by
  simp only [Job.new] at made
  split at made
  · cases made
  · cases made; rfl

structure Registration (Vm : Type) where
  jobs : List (Job Vm)
  errors : List DefinitionError
  image : Option String
  distinct : (jobs.map Job.id).Nodup
  slashless : ∀ job ∈ jobs, '/' ∉ job.id.toList

def Registration.empty : Registration Vm := ⟨[],[],none,.nil,fun _ member => nomatch member⟩

def Registration.report (self : Registration Vm) (error : DefinitionError) : Registration Vm :=
  { self with errors := self.errors ++ [error] }

def Registration.addJob (self : Registration Vm) (job : Job Vm) (slashless : '/' ∉ job.id.toList)
    (line : Nat) (source : String) : Registration Vm :=
  if duplicate : job.id ∈ self.jobs.map Job.id then self.report (.duplicateJob job.id (spanForLine source line))
  else {
    self with
    jobs := self.jobs ++ [job]
    distinct := by
      rw [List.map_append,List.map_singleton,List.nodup_append_comm]
      exact List.nodup_cons.mpr ⟨duplicate,self.distinct⟩
    slashless := fun other member => (List.mem_append.mp member).elim (self.slashless other) fun last =>
      List.mem_singleton.mp last ▸ slashless }

-- Ids with a slash are for the built-in jobs.
def Registration.registerJob (self : Registration Vm) (id : String) (inputs : List String)
    (runFn : Vm → Conduct Vm String) (line : Nat) (source : String) : Registration Vm :=
  if slash : '/' ∈ id.toList then self.report (.reservedSlash id (spanForLine source line))
  else match made : Job.new id inputs (.lua runFn) line source with
    | .ok job => self.addJob job (by rw [new_id made]; exact slash) line source
    | .error error => self.report error

def Registration.registerImage (self : Registration Vm) (name : String) (line : Nat) (source : String) :
    Registration Vm :=
  match self.image with
  | some _ => self.report (.duplicateImage (spanForLine source line))
  | none => { self with image := some name }

def Registration.call (source : String) (self : Registration Vm) : RegisterCall Vm → Registration Vm
  | .job id inputs runFn line => self.registerJob id inputs runFn line source
  | .image name line => self.registerImage name line source

inductive CompileError where
  | io (error : String)
  | fennel (error : String)
  | pipeline (name : String) (diagnostics : List Diagnostic)
  deriving DecidableEq, Repr

-- Evaluates the script and keeps what it registered, or every error found.
def register (lua : Lua Vm) (fennel : Vm) (source name : String) : Except CompileError (Registration Vm × Vm) :=
  match lua.eval fennel source name with
  | .error error => .error (.fennel error)
  | .ok (calls,vm) =>
    let registration := calls.foldl (Registration.call source) .empty
    if registration.errors = [] then .ok (registration,vm)
    else .error (.pipeline name (registration.errors.map .definition))

-- petgraph's view of a graph: nodes are 0, 1, .. in insertion order.
structure Digraph where
  nodes : Nat
  edges : List (Nat × Nat)
  deriving DecidableEq, Repr

def Digraph.Edge (self : Digraph) (a b : Nat) : Prop := (a,b) ∈ self.edges

def Digraph.reversed (self : Digraph) : Digraph := ⟨self.nodes,self.edges.map Prod.swap⟩

-- `bfs` lists what a `Bfs` from a node visits; `toposort` is none on a cycle.
structure Petgraph where
  tarjanScc : Digraph → List (List Nat)
  toposort : Digraph → Option (List Nat)
  bfs : Digraph → Nat → List Nat

-- Nodes own the jobs, edges go from dependency to dependent.
structure JobGraph (Vm : Type) where
  jobs : List (Job Vm)
  edges : List (Nat × Nat)

def JobGraph.shape (self : JobGraph Vm) : Digraph := ⟨self.jobs.length,self.edges⟩

def indexById (jobs : List (Job Vm)) : AList (fun _ : String => Nat) :=
  jobs.zipIdx.foldl (fun byId (job,idx) => byId.insert job.id idx) ∅

-- An input that names no job gets no edge.
def buildGraph (jobs : List (Job Vm)) : JobGraph Vm × AList (fun _ : String => Nat) :=
  let byId := indexById jobs
  let edges := jobs.zipIdx.flatMap fun (job,dependent) =>
    job.inputs.filterMap fun input => (byId.lookup input).map fun dependency => (dependency,dependent)
  (⟨jobs,edges⟩,byId)

def isCycle (graph : JobGraph Vm) (scc : List Nat) : Bool :=
  match scc with
  | [] => false
  | [node] => graph.edges.contains (node,node)
  | _ => true

def cycleMembers (graph : JobGraph Vm) (scc : List Nat) : List (Job Vm) :=
  (scc.filterMap fun idx => graph.jobs[idx]?).insertionSort fun a b => nameLe a.id b.id = true

def cycleError (graph : JobGraph Vm) (scc : List Nat) : StructureError :=
  let members := cycleMembers graph scc
  .cycle (members.map Job.id) (members.filterMap Job.span)

def foundTrigger (petgraph : Petgraph) (graph : JobGraph Vm) (node : Nat) : Bool :=
  (petgraph.bfs graph.shape.reversed node).any fun idx => graph.jobs[idx]?.any fun job => job.inputs = []

def unreachableError (petgraph : Petgraph) (graph : JobGraph Vm) (cyclic : List String) (job : Job Vm) (node : Nat) :
    Option StructureError :=
  if job.id ∈ cyclic then none
  else if user : job.inputs ≠ [] then
    if foundTrigger petgraph graph node then none
    else some (.unreachable job.id (job.span.get (job.spanned user)))
  else none

def validatePostGraph (petgraph : Petgraph) (graph : JobGraph Vm) : Except (List StructureError) Unit :=
  let cycles := (petgraph.tarjanScc graph.shape).filter (isCycle graph)
  let cyclic := cycles.flatMap fun scc => (cycleMembers graph scc).map Job.id
  let errors := cycles.map (cycleError graph) ++
    graph.jobs.zipIdx.filterMap fun (job,node) => unreachableError petgraph graph cyclic job node
  if errors = [] then .ok () else .error errors

-- A pipeline is what `compile` returns: its graph is built from jobs with
-- distinct ids and has passed the rules.
structure Pipeline (petgraph : Petgraph) (Vm : Type) where
  graph : JobGraph Vm
  byId : AList (fun _ : String => Nat)
  fennel : Vm
  image : Option String
  source : String
  sourceName : String
  distinct : (graph.jobs.map Job.id).Nodup
  built : buildGraph graph.jobs = (graph,byId)
  valid : validatePostGraph petgraph graph = .ok ()

def builtinPushJob : Job Vm := ⟨"quire/push",[],none,.rust fun vm => .done vm (.ok ()),fun user => absurd rfl user⟩

theorem Registration.distinct_push (self : Registration Vm) :
    ((self.jobs ++ [builtinPushJob]).map Job.id).Nodup := by
  rw [List.map_append,List.map_singleton,List.nodup_append_comm]
  refine List.nodup_cons.mpr ⟨fun taken => ?_,self.distinct⟩
  obtain ⟨job,member,same⟩ := List.mem_map.mp taken
  have slash := self.slashless job member
  rw [same] at slash
  exact slash (show '/' ∈ "quire/push".toList by decide)

def compile (petgraph : Petgraph) (lua : Lua Vm) (source name : String) : Except CompileError (Pipeline petgraph Vm) :=
  match lua.new with
  | .error error => .error (.fennel error)
  | .ok fennel =>
    match register lua fennel source name with
    | .error error => .error error
    | .ok (registration,vm) =>
      let built := buildGraph (registration.jobs ++ [builtinPushJob])
      match valid : validatePostGraph petgraph built.1 with
      | .error errors => .error (.pipeline name (errors.map .structure))
      | .ok () => .ok ⟨built.1,built.2,vm,registration.image,source,name,registration.distinct_push,rfl,valid⟩

-- None is the panic of `expect("pipeline is validated as acyclic")`.
def Pipeline.jobs (self : Pipeline petgraph Vm) : Option (List (Job Vm)) :=
  (petgraph.toposort self.graph.shape).map fun order => order.filterMap fun idx => self.graph.jobs[idx]?

def Pipeline.job (self : Pipeline petgraph Vm) (id : String) : Option (Job Vm) :=
  (self.byId.lookup id).bind fun idx => self.graph.jobs[idx]?

-- The keys are the ids of `byId`, each once.
def Pipeline.transitiveInputs (self : Pipeline petgraph Vm) : List (String × List String) :=
  self.byId.entries.map fun entry =>
    let reachable := (petgraph.bfs self.graph.shape.reversed entry.2).filter (· ≠ entry.2)
    (entry.1,reachable.filterMap fun idx => self.graph.jobs[idx]?.map Job.id)

end Quire.JobPipeline
