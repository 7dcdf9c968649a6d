import Mathlib.Data.List.Induction
import Quire.CompiledOrder

namespace Quire.RegistrationRecord
open Primitives JobPipeline CompiledOrder
variable {Vm : Type}

-- What the callbacks have collected after these calls of the script.
def registered (source : String) (calls : List (RegisterCall Vm)) : Registration Vm :=
  calls.foldl (Registration.call source) .empty

-- One call records one thing: a job, the image, or one error about itself.
inductive Records (source : String) (before : Registration Vm) : RegisterCall Vm → Registration Vm → Prop where
  | reservedSlash (slash : '/' ∈ jobId.toList) :
      Records source before (.job jobId inputs runFn line) (before.report (.reservedSlash jobId (spanForLine source line)))
  | emptyInputs (slashless : '/' ∉ jobId.toList) :
      Records source before (.job jobId [] runFn line) (before.report (.emptyInputs jobId (spanForLine source line)))
  | duplicateJob (slashless : '/' ∉ jobId.toList) (fed : inputs ≠ []) (taken : jobId ∈ before.jobs.map Job.id) :
      Records source before (.job jobId inputs runFn line) (before.report (.duplicateJob jobId (spanForLine source line)))
  | job (slashless : '/' ∉ jobId.toList) (fed : inputs ≠ []) (fresh : jobId ∉ before.jobs.map Job.id)
      (job : Job Vm) (same : declared job = ⟨jobId,inputs,.lua runFn⟩) (span : job.span = some (spanForLine source line))
      (jobs : after.jobs = before.jobs ++ [job]) (errors : after.errors = before.errors) (image : after.image = before.image) :
      Records source before (.job jobId inputs runFn line) after
  | image (first : before.image = none) :
      Records source before (.image name line) { before with image := some name }
  | duplicateImage (again : before.image ≠ none) :
      Records source before (.image name line) (before.report (.duplicateImage (spanForLine source line)))

variable {source : String} {before after : Registration Vm} {call : RegisterCall Vm}

theorem image_records (source : String) (before : Registration Vm) (name : String) (line : Nat) :
    Records source before (.image name line) (before.registerImage name line source) := by
  unfold Registration.registerImage
  split
  · rename_i held present
    exact .duplicateImage (present ▸ nofun)
  · rename_i missing
    exact .image missing

theorem job_records (source : String) (before : Registration Vm) (id : String) (inputs : List String) (runFn : Vm → Conduct Vm String) (line : Nat) :
    Records source before (.job id inputs runFn line) (before.registerJob id inputs runFn line source) := by
  unfold Registration.registerJob
  split
  · rename_i slash
    exact .reservedSlash slash
  · rename_i slashless
    split
    · rename_i job made
      obtain ⟨same,_⟩ := new_declared made
      simp only [Job.new] at made
      split at made
      · cases made
      · rename_i fed
        cases made
        unfold Registration.addJob
        split
        · rename_i taken
          exact .duplicateJob slashless fed taken
        · rename_i fresh
          exact .job slashless fed fresh _ same rfl rfl rfl rfl
    · rename_i error refused
      simp only [Job.new] at refused
      split at refused
      · rename_i empty
        cases refused
        subst empty
        exact .emptyInputs slashless
      · cases refused

theorem call_records (source : String) (before : Registration Vm) (call : RegisterCall Vm) :
    Records source before call (before.call source call) := by
  cases call with
  | image name line => exact image_records source before name line
  | job id inputs runFn line => exact job_records source before id inputs runFn line

theorem registered_snoc (calls : List (RegisterCall Vm)) (call : RegisterCall Vm) :
    registered source (calls ++ [call]) = (registered source calls).call source call := by
  rw [registered,List.foldl_append]
  rfl

-- The job a call asks for, when nothing is wrong with the call itself.
def wellFormed : RegisterCall Vm → Option (Declared Vm)
  | .job id inputs runFn _ => if '/' ∉ id.toList ∧ inputs ≠ [] then some ⟨id,inputs,.lua runFn⟩ else none
  | .image _ _ => none

theorem wellFormed_job {id : String} {inputs : List String} (slashless : '/' ∉ id.toList) (fed : inputs ≠ [])
    (runFn : Vm → Conduct Vm String) (line : Nat) : wellFormed (.job id inputs runFn line) = some ⟨id,inputs,.lua runFn⟩ :=
  if_pos ⟨slashless,fed⟩

def imageOf : RegisterCall Vm → Option String
  | .job _ _ _ _ => none
  | .image name _ => some name

-- Everything that has been recorded, counted.
def recorded (registration : Registration Vm) : Nat :=
  registration.jobs.length + registration.errors.length + registration.image.toList.length

theorem Records.counted (records : Records source before call after) : recorded after = recorded before + 1 := by
  cases records with
  | job _ _ _ job _ _ jobs errors image =>
    simp only [recorded,jobs,errors,image,List.length_append,List.length_singleton]
    omega
  | image first =>
    simp only [recorded,first,Option.toList_none,Option.toList_some,List.length_nil,List.length_singleton]
  | reservedSlash | emptyInputs | duplicateJob | duplicateImage =>
    simp only [recorded,Registration.report,List.length_append,List.length_singleton]
    omega

-- A job is taken when its call is well formed and its id is new.
theorem Records.jobs (records : Records source before call after) : after.jobs.map declared =
    before.jobs.map declared ++ ((wellFormed call).filter fun job => job.id ∉ before.jobs.map Job.id).toList := by
  cases records with
  | reservedSlash slash => simp [wellFormed,Registration.report,slash]
  | emptyInputs slashless => simp [wellFormed,Registration.report]
  | duplicateJob slashless fed taken =>
    rw [wellFormed_job slashless fed,Option.filter_some,if_neg (by simpa using taken)]
    exact (List.append_nil _).symm
  | job slashless fed fresh job same span jobs errors image =>
    rw [wellFormed_job slashless fed,Option.filter_some,if_pos (by simpa using fresh),jobs,List.map_append,List.map_singleton,same]
    rfl
  | image first => simp [wellFormed]
  | duplicateImage again => simp [wellFormed,Registration.report]

theorem Records.fed (records : Records source before call after) (fed : ∀ job ∈ before.jobs, job.inputs ≠ []) :
    ∀ job ∈ after.jobs, job.inputs ≠ [] := by
  cases records with
  | job _ full _ job same _ jobs _ _ =>
    intro other member
    rw [jobs] at member
    rcases List.mem_append.mp member with old | new
    · exact fed other old
    · obtain rfl := List.mem_singleton.mp new
      have lists := congrArg Declared.inputs same
      exact fun empty => full (lists.symm.trans empty)
  | _ => exact fed

theorem Records.image_or (records : Records source before call after) : after.image = before.image.or (imageOf call) := by
  cases records with
  | job _ _ _ _ _ _ _ _ image => simp [image,imageOf]
  | image first => simp [first,imageOf]
  | duplicateImage again =>
    obtain ⟨name,held⟩ := Option.ne_none_iff_exists'.mp again
    simp [Registration.report,held]
  | _ => simp [Registration.report,imageOf]

-- Nothing is wrong with the call where it stands.
def Fits (before : Registration Vm) : RegisterCall Vm → Prop
  | .job id inputs _ _ => '/' ∉ id.toList ∧ inputs ≠ [] ∧ id ∉ before.jobs.map Job.id
  | .image _ _ => before.image = none

theorem Records.clean_iff (records : Records source before call after) : after.errors = [] ↔ before.errors = [] ∧ Fits before call := by
  cases records with
  | job slashless fed fresh _ _ _ _ errors _ => simp [errors,Fits,slashless,fed,fresh]
  | image first => simp [Fits,first]
  | reservedSlash slash => simp [Registration.report,Fits,slash]
  | emptyInputs slashless => simp [Registration.report,Fits]
  | duplicateJob slashless fed taken => simp [Registration.report,Fits,taken]
  | duplicateImage again => simp [Registration.report,Fits,again]

section run

variable {calls : List (RegisterCall Vm)}

theorem registered_counted (source : String) (calls : List (RegisterCall Vm)) : recorded (registered source calls) = calls.length := by
  induction calls using List.reverseRecOn with
  | nil => rfl
  | append_singleton earlier call ih =>
    rw [registered_snoc,(call_records source _ call).counted,ih,List.length_append,List.length_singleton]

theorem registered_inputs (source : String) (calls : List (RegisterCall Vm)) : ∀ job ∈ (registered source calls).jobs, job.inputs ≠ [] :=
  registered_fed calls fun _ member => nomatch member

-- The ids that are taken are those of the well-formed calls.
theorem registered_ids (source : String) (calls : List (RegisterCall Vm)) (name : String) :
    name ∈ (registered source calls).jobs.map Job.id ↔ ∃ call ∈ calls, ∃ job, wellFormed call = some job ∧ job.id = name := by
  induction calls using List.reverseRecOn with
  | nil => simp [registered,Registration.empty]
  | append_singleton earlier call ih =>
    have ids : ∀ jobs : List (Job Vm), jobs.map Job.id = (jobs.map declared).map Declared.id := by
      intro jobs
      rw [List.map_map]
      rfl
    rw [registered_snoc,ids,(call_records source _ call).jobs,List.map_append,List.mem_append,← ids,ih]
    simp only [List.mem_append,List.mem_singleton,or_and_right,exists_or,exists_eq_left]
    constructor
    · intro found
      rcases found with old | new
      · exact .inl old
      · obtain ⟨job,listed,same⟩ := List.mem_map.mp new
        exact .inr ⟨job,(Option.filter_eq_some_iff.mp (Option.mem_toList.mp listed)).1,same⟩
    · intro found
      rcases found with old | ⟨job,asked,rfl⟩
      · exact .inl old
      · by_cases taken : job.id ∈ (registered source earlier).jobs.map Job.id
        · exact .inl (ih.mp taken)
        · refine .inr (List.mem_map_of_mem (Option.mem_toList.mpr ?_))
          exact Option.filter_eq_some_iff.mpr ⟨asked,by simpa using taken⟩

theorem registered_order (source : String) (calls : List (RegisterCall Vm)) :
    ((registered source calls).jobs.map declared).Sublist (calls.filterMap wellFormed) := by
  induction calls using List.reverseRecOn with
  | nil => exact List.Sublist.refl _
  | append_singleton earlier call ih =>
    rw [registered_snoc,(call_records source _ call).jobs,List.filterMap_append]
    apply ih.append
    cases asked : wellFormed call with
    | none => simp
    | some job =>
      rw [List.filterMap_cons_some asked,Option.filter_some]
      split
      · exact List.Sublist.refl _
      · exact List.nil_sublist _

-- The first well-formed call of an id, and no other call of that id.
structure First (calls : List (RegisterCall Vm)) (job : Declared Vm) (earlier : List (RegisterCall Vm)) (call : RegisterCall Vm)
    (later : List (RegisterCall Vm)) : Prop where
  split : calls = earlier ++ call :: later
  asked : wellFormed call = some job
  first : ∀ other ∈ earlier, ∀ held, wellFormed other = some held → held.id ≠ job.id

theorem registered_first (source : String) (calls : List (RegisterCall Vm)) (job : Declared Vm) :
    job ∈ (registered source calls).jobs.map declared ↔ ∃ earlier call later, First calls job earlier call later := by
  induction calls using List.reverseRecOn with
  | nil =>
    apply iff_of_false (by simp [registered,Registration.empty])
    intro some
    obtain ⟨earlier,call,later,first⟩ := some
    exact absurd first.split (by simp)
  | append_singleton front last ih =>
    rw [registered_snoc,(call_records source _ last).jobs,List.mem_append,ih,Option.mem_toList,Option.filter_eq_some_iff]
    have fresh : job.id ∉ (registered source front).jobs.map Job.id ↔
        ∀ other ∈ front, ∀ held, wellFormed other = some held → held.id ≠ job.id := by
      rw [registered_ids]
      push Not
      rfl
    constructor
    · intro found
      rcases found with ⟨earlier,call,later,first⟩ | ⟨asked,absent⟩
      · exact ⟨earlier,call,later ++ [last],by rw [first.split]; simp,first.asked,first.first⟩
      · exact ⟨front,last,[],rfl,asked,fresh.mp (by simpa using absent)⟩
    · intro some
      obtain ⟨earlier,call,later,first⟩ := some
      rcases List.eq_nil_or_concat later with rfl | ⟨behind,final,rfl⟩
      · obtain ⟨rfl,same⟩ := List.append_inj' first.split rfl
        cases same
        exact .inr ⟨first.asked,by simpa using fresh.mpr first.first⟩
      · have inner : front = earlier ++ call :: behind :=
          (List.append_inj' (first.split.trans (by simp : _ = (earlier ++ call :: behind) ++ [final])) rfl).1
        exact .inl ⟨earlier,call,behind,inner,first.asked,first.first⟩

theorem registered_image (source : String) (calls : List (RegisterCall Vm)) :
    (registered source calls).image = (calls.filterMap imageOf).head? := by
  induction calls using List.reverseRecOn with
  | nil => rfl
  | append_singleton earlier call ih =>
    rw [registered_snoc,(call_records source _ call).image_or,ih,List.filterMap_append,List.head?_append]
    cases asked : imageOf call <;> simp [asked]

-- What a script must keep to for no call to be refused.
structure WellDefined (calls : List (RegisterCall Vm)) : Prop where
  slashless : ∀ job ∈ calls.filterMap declaredBy, '/' ∉ job.id.toList
  fed : ∀ job ∈ calls.filterMap declaredBy, job.inputs ≠ []
  distinct : ((calls.filterMap declaredBy).map Declared.id).Nodup
  oneImage : (calls.filterMap imageOf).length ≤ 1

theorem wellDefined_job {id : String} {inputs : List String} : WellDefined (calls ++ [.job id inputs runFn line]) ↔
    WellDefined calls ∧ '/' ∉ id.toList ∧ inputs ≠ [] ∧ id ∉ (calls.filterMap declaredBy).map Declared.id := by
  have jobs : (calls ++ [RegisterCall.job id inputs runFn line]).filterMap declaredBy =
      calls.filterMap declaredBy ++ [⟨id,inputs,.lua runFn⟩] := by
    simp [declaredBy]
  have images : (calls ++ [RegisterCall.job id inputs runFn line]).filterMap imageOf = calls.filterMap imageOf := by
    simp [imageOf]
  constructor
  · intro whole
    obtain ⟨slashless,fed,distinct,oneImage⟩ := whole
    rw [jobs] at slashless fed distinct
    rw [images] at oneImage
    rw [List.map_append,List.nodup_append] at distinct
    refine ⟨⟨fun job member => ?_,fun job member => ?_,distinct.1,oneImage⟩,?_,?_,fun taken => ?_⟩
    · exact slashless job (List.mem_append_left _ member)
    · exact fed job (List.mem_append_left _ member)
    · exact slashless ⟨id,inputs,.lua runFn⟩ (by simp)
    · exact fed ⟨id,inputs,.lua runFn⟩ (by simp)
    · exact distinct.2.2 id taken id (by simp) rfl
  · intro parts
    obtain ⟨⟨slashless,fed,distinct,oneImage⟩,plain,full,fresh⟩ := parts
    refine ⟨?_,?_,?_,images ▸ oneImage⟩
    · rw [jobs]
      exact fun job member => (List.mem_append.mp member).elim (slashless job) fun last => List.mem_singleton.mp last ▸ plain
    · rw [jobs]
      exact fun job member => (List.mem_append.mp member).elim (fed job) fun last => List.mem_singleton.mp last ▸ full
    · rw [jobs,List.map_append,List.map_singleton,List.nodup_append_comm]
      exact List.nodup_cons.mpr ⟨fresh,distinct⟩

theorem wellDefined_image : WellDefined (calls ++ [.image name line]) ↔ WellDefined calls ∧ calls.filterMap imageOf = [] := by
  have jobs : (calls ++ [RegisterCall.image name line]).filterMap declaredBy = calls.filterMap declaredBy := by
    simp [declaredBy]
  have images : (calls ++ [RegisterCall.image name line]).filterMap imageOf = calls.filterMap imageOf ++ [name] := by
    simp [imageOf]
  constructor
  · intro whole
    obtain ⟨slashless,fed,distinct,oneImage⟩ := whole
    rw [jobs] at slashless fed distinct
    rw [images,List.length_append,List.length_singleton] at oneImage
    exact ⟨⟨slashless,fed,distinct,by omega⟩,List.eq_nil_of_length_eq_zero (by omega)⟩
  · intro parts
    obtain ⟨⟨slashless,fed,distinct,_⟩,unset⟩ := parts
    refine ⟨jobs ▸ slashless,jobs ▸ fed,jobs ▸ distinct,?_⟩
    rw [images,unset,List.nil_append,List.length_singleton]

theorem registered_clean_iff (source : String) (calls : List (RegisterCall Vm)) :
    (registered source calls).errors = [] ↔ WellDefined calls := by
  induction calls using List.reverseRecOn with
  | nil =>
    refine iff_of_true rfl ⟨?_,?_,.nil,Nat.zero_le _⟩
    · exact fun _ member => nomatch member
    · exact fun _ member => nomatch member
  | append_singleton earlier call ih =>
    rw [registered_snoc,(call_records source _ call).clean_iff]
    cases call with
    | image name line =>
      rw [wellDefined_image,← ih,Fits,registered_image,List.head?_eq_none_iff]
    | job id inputs runFn line =>
      rw [wellDefined_job,← ih]
      refine and_congr_right fun clean => and_congr_right fun _ => and_congr_right fun _ => not_congr ?_
      have same : (registered source earlier).jobs.map declared = earlier.filterMap declaredBy := (registered_calls earlier clean).2
      rw [← same,List.map_map]
      rfl

end run

-- What `register` answers for a script that made these calls and ended well.
structure RegistersExactly (lua : Lua Vm) (fennel : Vm) (source name : String) (calls : List (RegisterCall Vm)) (vm : Vm) : Prop where
  each : ∀ earlier call later, calls = earlier ++ call :: later →
    Records source (registered source earlier) call (registered source (earlier ++ [call]))
  counted : recorded (registered source calls) = calls.length
  distinct : ((registered source calls).jobs.map Job.id).Nodup
  fine : ∀ job ∈ (registered source calls).jobs, '/' ∉ job.id.toList ∧ job.inputs ≠ []
  inOrder : ((registered source calls).jobs.map declared).Sublist (calls.filterMap wellFormed)
  firstWins : ∀ job, job ∈ (registered source calls).jobs.map declared ↔ ∃ earlier call later, First calls job earlier call later
  accepted : (∃ registration next, register lua fennel source name = .ok (registration,next) ∧
      registration.jobs = (registered source calls).jobs ∧ registration.image = (registered source calls).image ∧ next = vm) ↔
    (registered source calls).errors = []
  refused : (registered source calls).errors ≠ [] →
    register lua fennel source name = .error (.pipeline name ((registered source calls).errors.map .definition))

theorem register_eq (evaluated : Lua.eval lua fennel source name = .ok (calls,vm)) : register lua fennel source name =
    if (registered source calls).errors = [] then .ok (registered source calls,vm)
    else .error (.pipeline name ((registered source calls).errors.map .definition)) := by
  unfold register
  rw [evaluated]
  rfl

theorem register_exact (lua : Lua Vm) (fennel : Vm) (source name : String) (calls : List (RegisterCall Vm)) (vm : Vm)
    (evaluated : lua.eval fennel source name = .ok (calls,vm)) : RegistersExactly lua fennel source name calls vm where
  each := by
    intro earlier call later _
    rw [registered_snoc]
    exact call_records source _ call
  counted := registered_counted source calls
  distinct := (registered source calls).distinct
  fine := fun job member => ⟨(registered source calls).slashless job member,registered_inputs source calls job member⟩
  inOrder := registered_order source calls
  firstWins := registered_first source calls
  accepted := by
    rw [register_eq evaluated]
    constructor
    · intro ⟨registration,next,answered,_⟩
      by_contra errors
      rw [if_neg errors] at answered
      cases answered
    · intro clean
      exact ⟨_,_,if_pos clean,rfl,rfl,rfl⟩
  refused := by
    intro errors
    rw [register_eq evaluated,if_neg errors]

-- A VM whose script makes these calls.
def scripted (calls : List (RegisterCall Unit)) : Lua Unit := ⟨.ok (),fun _ _ _ => .ok (calls,()),some,fun _ => true⟩

def quiet : Unit → Conduct Unit String := fun vm => .done vm (.ok ())

-- (ci.job :build [:quire/push] ..), (ci.image :alpine), (ci.image :debian) and
-- (ci.job :build [:quire/push] ..) again, on the lines after the require.
def repeated : List (RegisterCall Unit) :=
  [.job "build" ["quire/push"] quiet 2,.image "alpine" 3,.image "debian" 4,.job "build" ["quire/push"] quiet 5]

theorem register_exact_repeated : RegistersExactly (scripted repeated) () "" "ci.fnl" repeated () :=
  register_exact (scripted repeated) () "" "ci.fnl" repeated () rfl

end Quire.RegistrationRecord
