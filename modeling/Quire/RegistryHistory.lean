import Quire.Secret
import Quire.Traced

namespace Quire.RegistryHistory
open Secret Traced

-- `SecretRegistry::resolve` with the calls it makes of the fetcher.
def resolving (self : SecretRegistry) (sources : Sources) (name : String) :
    Traced String (Except Error String × SecretRegistry) :=
  match self.cache.lookup name with
  | some secret =>
    let (value,read) := secret.reveal sources
    let self := { self with cache := self.cache.insert name read }
    match value with
    | .ok value => pure (.ok value,self.register name value)
    | .error error => pure (.error error,self)
  | none => do
    match ← issue name (sources.fetcher name) with
    | .ok fetched =>
      return (.ok fetched,{ self with cache := self.cache.insert name (.plain fetched) }.register name fetched)
    | .error error => return (.error error,self)

theorem resolving_value (self : SecretRegistry) (sources : Sources) (name : String) :
    (resolving self sources name).value = self.resolve sources name := by
  unfold resolving SecretRegistry.resolve
  cases self.cache.lookup name with
  | some secret => rcases read : secret.reveal sources with ⟨error | value,next⟩ <;> simp [read]
  | none => cases fetched : sources.fetcher name <;> simp

-- One call as its caller and the fetcher saw it.
structure Turn where
  name : String
  fetches : List String
  result : Except Error String

def turnOf (self : SecretRegistry) (sources : Sources) (name : String) : Turn :=
  ⟨name,(resolving self sources name).commands,(self.resolve sources name).1⟩

-- The calls of a run, each with what the files and the fetcher said by then.
def turns (self : SecretRegistry) : List (Sources × String) → List Turn × SecretRegistry
  | [] => ([],self)
  | (sources,name) :: rest =>
    let (later,last) := turns (self.resolve sources name).2 rest
    (turnOf self sources name :: later,last)

theorem turns_resolveAll (self : SecretRegistry) (calls : List (Sources × String)) :
    (turns self calls).1.map Turn.result = (self.resolveAll calls).1 ∧ (turns self calls).2 = (self.resolveAll calls).2 := by
  induction calls generalizing self with
  | nil => exact ⟨rfl,rfl⟩
  | cons call rest ih =>
    obtain ⟨sources,name⟩ := call
    obtain ⟨results,last⟩ := ih (self.resolve sources name).2
    exact ⟨congrArg (_ :: ·) results,last⟩

-- What one call does: to the entry of its name and to no other.
structure Answers (before : SecretRegistry) (turn : Turn) (after : SecretRegistry) : Prop where
  others : ∀ other, other ≠ turn.name → after.cache.lookup other = before.cache.lookup other
  stays : before.cache.lookup turn.name ≠ none → after.cache.lookup turn.name ≠ none
  known : ∀ value, turn.result = .ok value → ∃ secret, after.cache.lookup turn.name = some secret ∧ secret.known = some value
  again : ∀ secret value, before.cache.lookup turn.name = some secret → secret.known = some value → turn.result = .ok value
  fetches : before.cache.lookup turn.name ≠ none → turn.fetches = []
  failed : ∀ error, turn.result = .error error → after.revealed = before.revealed
  revealed : ∀ value, turn.result = .ok value → ∀ other held, after.revealed.lookup other = some held ↔
    (other = turn.name ∧ held = value ∧ 8 ≤ value.utf8ByteSize) ∨
      (before.revealed.lookup other = some held ∧ ¬ (other = turn.name ∧ 8 ≤ value.utf8ByteSize))

theorem lookup_insert_iff {entries : AList (fun _ : String => β)} : (entries.insert name held).lookup other = some value ↔
    (other = name ∧ value = held) ∨ (other ≠ name ∧ entries.lookup other = some value) := by
  constructor
  · exact lookup_insert_cases
  · intro found
    rcases found with ⟨rfl,rfl⟩ | ⟨apart,found⟩
    · exact AList.lookup_insert _
    · exact (AList.lookup_insert_ne apart).trans found

theorem register_cache (self : SecretRegistry) (name value : String) : (self.register name value).cache = self.cache := by
  unfold SecretRegistry.register
  split <;> rfl

theorem register_revealed (self : SecretRegistry) (name value : String) (other held : String) :
    (self.register name value).revealed.lookup other = some held ↔
      (other = name ∧ held = value ∧ 8 ≤ value.utf8ByteSize) ∨
        (self.revealed.lookup other = some held ∧ ¬ (other = name ∧ 8 ≤ value.utf8ByteSize)) := by
  unfold SecretRegistry.register
  split
  · rename_i long
    simp only [lookup_insert_iff,long,and_true]
    exact or_congr Iff.rfl and_comm
  · rename_i short
    simp only [short,and_false,false_or,not_false_eq_true,and_true]

-- A call that returned a value has stored a secret that will reveal it again.
theorem stored_answers {before : SecretRegistry} (stored : secret.known = some value)
    (fetches : before.cache.lookup name ≠ none → calls = [])
    (again : ∀ held other, before.cache.lookup name = some held → held.known = some other → other = value) :
    Answers before ⟨name,calls,.ok value⟩ ({ before with cache := before.cache.insert name secret }.register name value) where
  others := by
    intro other apart
    rw [register_cache]
    exact AList.lookup_insert_ne apart
  stays := by
    intro _
    rw [register_cache]
    simp
  known := by
    intro other returned
    cases returned
    exact ⟨secret,by rw [register_cache]; exact AList.lookup_insert _,stored⟩
  again := fun held other found known => by rw [again held other found known]
  fetches := fetches
  failed := fun _ returned => nomatch returned
  revealed := by
    intro other returned
    cases returned
    exact register_revealed _ name value

theorem resolve_answers (self : SecretRegistry) (sources : Sources) (name : String) :
    Answers self (turnOf self sources name) (self.resolve sources name).2 := by
  unfold turnOf resolving SecretRegistry.resolve
  cases cached : self.cache.lookup name with
  | some secret =>
    rcases read : secret.reveal sources with ⟨error | value,next⟩
    · have known : ∀ held value, self.cache.lookup name = some held → held.known ≠ some value := by
        intro held value found known
        cases cached.symm.trans found
        cases read.symm.trans (reveal_known known)
      simp only [read]
      exact ⟨fun other apart => AList.lookup_insert_ne apart,fun _ => by simp,fun _ returned => (nomatch returned),
        fun held value found stored => absurd stored (known held value found),fun _ => rfl,fun _ _ => rfl,
        fun _ returned => (nomatch returned)⟩
    · simp only [read]
      apply stored_answers (known_revealed read) (fun _ => rfl)
      intro held other found known
      cases cached.symm.trans found
      cases read.symm.trans (reveal_known known)
      rfl
  | none =>
    cases fetched : sources.fetcher name with
    | error error =>
      simp only
      exact ⟨fun _ _ => rfl,fun present => present,fun _ returned => (nomatch returned),
        fun _ _ found => (nomatch cached.symm.trans found),fun present => absurd cached present,fun _ _ => rfl,
        fun _ returned => (nomatch returned)⟩
    | ok value =>
      simp only
      exact stored_answers rfl (fun present => absurd cached present) fun _ _ found => (nomatch cached.symm.trans found)

-- What the calls so far have left behind.
structure History (secrets : AList (fun _ : String => SecretString)) (past : List Turn) (registry : SecretRegistry) : Prop where
  seeded : ∀ name ∈ secrets, registry.cache.lookup name ≠ none
  spared : ∀ turn ∈ past, turn.name ∈ secrets → turn.fetches = []
  stored : ∀ turn ∈ past, ∀ value, turn.result = .ok value →
    ∃ secret, registry.cache.lookup turn.name = some secret ∧ secret.known = some value
  once : past.Pairwise fun first second =>
    first.name = second.name → ∀ value, first.result = .ok value → second.fetches = []
  revealed : ∀ name value, registry.revealed.lookup name = some value ↔
    8 ≤ value.utf8ByteSize ∧ ∃ turn ∈ past, turn.name = name ∧ turn.result = .ok value

theorem seed_history (secrets : AList (fun _ : String => SecretString)) :
    History secrets [] (SecretRegistry.new.seed secrets) where
  seeded := by
    intro name listed
    exact Option.isSome_iff_ne_none.mp (AList.lookup_isSome.mpr listed)
  spared := fun _ member => nomatch member
  stored := fun _ member => nomatch member
  once := .nil
  revealed := by
    intro name value
    simp [SecretRegistry.new,SecretRegistry.seed]

section step
variable {secrets : AList (fun _ : String => SecretString)} {past : List Turn} {before after : SecretRegistry} {turn : Turn}

theorem History.agree (history : History secrets past before) (first : a ∈ past) (second : b ∈ past) (same : a.name = b.name)
    (one : a.result = .ok v) (other : b.result = .ok w) : v = w := by
  obtain ⟨secret,found,known⟩ := history.stored a first v one
  obtain ⟨held,present,shown⟩ := history.stored b second w other
  rw [same] at found
  cases found.symm.trans present
  exact Option.some.inj (known.symm.trans shown)

-- A name that has been resolved keeps its value, and asks nobody for it.
theorem History.settled (history : History secrets past before) (answers : Answers before turn after) (member : old ∈ past)
    (same : old.name = turn.name) (returned : old.result = .ok value) : turn.result = .ok value ∧ turn.fetches = [] := by
  obtain ⟨secret,found,known⟩ := history.stored old member value returned
  rw [same] at found
  exact ⟨answers.again secret value found known,answers.fetches fun missing => nomatch missing.symm.trans found⟩

theorem History.stored_next (history : History secrets past before) (answers : Answers before turn after) :
    ∀ old ∈ past ++ [turn], ∀ value, old.result = .ok value →
      ∃ secret, after.cache.lookup old.name = some secret ∧ secret.known = some value := by
  intro old member value returned
  rcases List.mem_append.mp member with earlier | last
  · by_cases same : old.name = turn.name
    · rw [same]
      exact answers.known value (history.settled answers earlier same returned).1
    · rw [answers.others old.name same]
      exact history.stored old earlier value returned
  · obtain rfl := List.mem_singleton.mp last
    exact answers.known value returned

theorem History.revealed_next (history : History secrets past before) (answers : Answers before turn after)
    (name value : String) : after.revealed.lookup name = some value ↔
      8 ≤ value.utf8ByteSize ∧ ∃ old ∈ past ++ [turn], old.name = name ∧ old.result = .ok value := by
  simp only [List.mem_append,List.mem_singleton,or_and_right,exists_or,exists_eq_left,and_or_left]
  rw [← history.revealed]
  cases returned : turn.result with
  | error error =>
    rw [answers.failed error returned]
    simp
  | ok given =>
    rw [answers.revealed given returned]
    constructor
    · intro found
      rcases found with ⟨rfl,rfl,long⟩ | ⟨found,_⟩
      · exact .inr ⟨long,rfl,rfl⟩
      · exact .inl found
    · intro shown
      rcases shown with found | ⟨long,rfl,same⟩
      · by_cases own : name = turn.name ∧ 8 ≤ given.utf8ByteSize
        · obtain ⟨_,old,member,same,known⟩ := (history.revealed name value).mp found
          have again := (history.settled answers member (same.trans own.1) known).1
          cases returned.symm.trans again
          exact .inl ⟨own.1,rfl,own.2⟩
        · exact .inr ⟨found,own⟩
      · cases same
        exact .inl ⟨rfl,rfl,long⟩

theorem History.next (history : History secrets past before) (answers : Answers before turn after) :
    History secrets (past ++ [turn]) after where
  seeded := by
    intro name listed
    by_cases same : name = turn.name
    · subst same
      exact answers.stays (history.seeded _ listed)
    · rw [answers.others name same]
      exact history.seeded name listed
  spared := by
    intro old member listed
    rcases List.mem_append.mp member with earlier | last
    · exact history.spared old earlier listed
    · obtain rfl := List.mem_singleton.mp last
      exact answers.fetches (history.seeded _ listed)
  stored := history.stored_next answers
  once := by
    refine List.pairwise_append.mpr ⟨history.once,List.pairwise_singleton _ _,fun old member last is => ?_⟩
    obtain rfl := List.mem_singleton.mp is
    exact fun same value returned => (history.settled answers member same returned).2
  revealed := history.revealed_next answers

end step

theorem turns_history (history : History secrets past registry) (calls : List (Sources × String)) :
    History secrets (past ++ (turns registry calls).1) (turns registry calls).2 := by
  induction calls generalizing registry past with
  | nil => simpa [turns] using history
  | cons call rest ih =>
    obtain ⟨sources,name⟩ := call
    have later := ih (history.next (resolve_answers registry sources name))
    rwa [List.append_assoc,List.singleton_append] at later

-- Two registries that differ in what they hold under one name at most.
structure SameBut (failed : String) (a b : SecretRegistry) : Prop where
  cache : ∀ other, other ≠ failed → a.cache.lookup other = b.cache.lookup other
  revealed : ∀ other, other ≠ failed → ∀ held, a.revealed.lookup other = some held ↔ b.revealed.lookup other = some held

-- A call depends on the entry of its name alone.
theorem resolve_congr {a b : SecretRegistry} (same : a.cache.lookup name = b.cache.lookup name) :
    turnOf a sources name = turnOf b sources name ∧
      (a.resolve sources name).2.cache.lookup name = (b.resolve sources name).2.cache.lookup name := by
  unfold turnOf resolving SecretRegistry.resolve
  rw [same]
  cases cached : b.cache.lookup name with
  | some secret => rcases read : secret.reveal sources with ⟨error | value,next⟩ <;> simp [read,register_cache]
  | none =>
    cases fetched : sources.fetcher name with
    | error error => simp [same,cached]
    | ok value => simp [register_cache]

theorem Answers.revealed_other {turn : Turn} (answers : Answers before turn after) (apart : other ≠ turn.name) :
    after.revealed.lookup other = some held ↔ before.revealed.lookup other = some held := by
  cases returned : turn.result with
  | error error => rw [answers.failed error returned]
  | ok value => simp [answers.revealed value returned,apart]

theorem SameBut.next {a b : SecretRegistry} (same : SameBut failed a b) (sources : Sources) (name : String) :
    (name ≠ failed → turnOf a sources name = turnOf b sources name) ∧
      SameBut failed (a.resolve sources name).2 (b.resolve sources name).2 := by
  have left := resolve_answers a sources name
  have right := resolve_answers b sources name
  refine ⟨fun apart => (resolve_congr (same.cache name apart)).1,?_,?_⟩
  · intro other apart
    by_cases own : other = name
    · subst own
      exact (resolve_congr (same.cache other apart)).2
    · rw [left.others other own,right.others other own]
      exact same.cache other apart
  · intro other apart held
    by_cases own : other = name
    · subst own
      have agree : turnOf a sources other = turnOf b sources other := (resolve_congr (same.cache other apart)).1
      cases returned : (turnOf a sources other).result with
      | error error =>
        rw [left.failed error returned,right.failed error (agree ▸ returned)]
        exact same.revealed other apart held
      | ok value =>
        rw [left.revealed value returned,right.revealed value (agree ▸ returned),same.revealed other apart held]
        rfl
    · rw [left.revealed_other own,right.revealed_other own]
      exact same.revealed other apart held

-- The same calls of two registries, with the same outcome for every other name.
def AlikeBut (failed : String) (ran other : List Turn × SecretRegistry) : Prop :=
  List.Forall₂ (fun a b => a.name = b.name ∧ (a.name ≠ failed → a = b)) ran.1 other.1 ∧ SameBut failed ran.2 other.2

theorem SameBut.turns {a b : SecretRegistry} (same : SameBut failed a b) (calls : List (Sources × String)) :
    AlikeBut failed (turns a calls) (turns b calls) := by
  induction calls generalizing a b with
  | nil => exact ⟨.nil,same⟩
  | cons call rest ih =>
    obtain ⟨sources,name⟩ := call
    obtain ⟨now,kept⟩ := same.next sources name
    obtain ⟨later,last⟩ := ih kept
    exact ⟨.cons ⟨rfl,now⟩ later,last⟩

-- A call that turns to the fetcher asks once, for its own name, and returns the
-- answer.
def AsksOwn (call : Sources × String) (turn : Turn) : Prop :=
  turn.name = call.2 ∧ (turn.fetches = [] ∨ (turn.fetches = [call.2] ∧ turn.result = call.1.fetcher call.2))

theorem turnOf_asks (self : SecretRegistry) (sources : Sources) (name : String) : AsksOwn (sources,name) (turnOf self sources name) := by
  refine ⟨rfl,?_⟩
  unfold turnOf resolving SecretRegistry.resolve
  cases self.cache.lookup name with
  | some secret => rcases read : secret.reveal sources with ⟨error | value,next⟩ <;> simp [read]
  | none => cases fetched : sources.fetcher name <;> simp

theorem turns_ask (self : SecretRegistry) (calls : List (Sources × String)) : List.Forall₂ AsksOwn calls (turns self calls).1 := by
  induction calls generalizing self with
  | nil => exact .nil
  | cons call rest ih => exact .cons (turnOf_asks self call.1 call.2) (ih _)

-- What a run may rely on: one value for a name, no needless fetch, a revealed
-- map that says what was resolved, and failures that touch nothing else.
structure ConsistentRun (secrets : AList (fun _ : String => SecretString)) (calls : List (Sources × String)) : Prop where
  asked : List.Forall₂ AsksOwn calls (turns (SecretRegistry.new.seed secrets) calls).1
  oneValue : ∀ first ∈ (turns (SecretRegistry.new.seed secrets) calls).1,
    ∀ second ∈ (turns (SecretRegistry.new.seed secrets) calls).1, first.name = second.name →
      ∀ v w, first.result = .ok v → second.result = .ok w → v = w
  seeded : ∀ turn ∈ (turns (SecretRegistry.new.seed secrets) calls).1, turn.name ∈ secrets → turn.fetches = []
  fetchedOnce : (turns (SecretRegistry.new.seed secrets) calls).1.Pairwise fun first second =>
    first.name = second.name → ∀ value, first.result = .ok value → second.fetches = []
  revealed : ∀ name value, (turns (SecretRegistry.new.seed secrets) calls).2.revealed.lookup name = some value ↔
    8 ≤ value.utf8ByteSize ∧ ∃ turn ∈ (turns (SecretRegistry.new.seed secrets) calls).1,
      turn.name = name ∧ turn.result = .ok value
  failed : ∀ sources name error after, (turns (SecretRegistry.new.seed secrets) calls).2.resolve sources name = (.error error,after) →
    after.revealed = (turns (SecretRegistry.new.seed secrets) calls).2.revealed ∧
      ∀ later, AlikeBut name (turns after later) (turns (turns (SecretRegistry.new.seed secrets) calls).2 later)

theorem failed_alone {before after : SecretRegistry} (ran : before.resolve sources name = (.error error,after)) :
    after.revealed = before.revealed ∧ SameBut name after before := by
  have answers := resolve_answers before sources name
  have result : (turnOf before sources name).result = .error error := congrArg Prod.fst ran
  rw [ran] at answers
  exact ⟨answers.failed error result,answers.others,fun other apart held => answers.revealed_other apart⟩

theorem registry_consistent (secrets : AList (fun _ : String => SecretString)) (calls : List (Sources × String)) :
    ConsistentRun secrets calls := by
  have history := turns_history (seed_history secrets) calls
  rw [List.nil_append] at history
  refine ⟨turns_ask _ calls,fun _ first _ second same _ _ => history.agree first second same,history.spared,history.once,history.revealed,?_⟩
  intro sources name error after ran
  obtain ⟨kept,same⟩ := failed_alone ran
  exact ⟨kept,same.turns⟩

end Quire.RegistryHistory
