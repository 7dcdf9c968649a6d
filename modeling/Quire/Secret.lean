import Mathlib.Data.List.AList
import Mathlib.Data.List.Sort
import Mathlib.Data.String.Basic
import Quire.Text

namespace Quire.Secret
open Text

inductive Error where
  | resolve (source : String)
  | unknownSecret (name : String)
  deriving DecidableEq, Repr

-- What lies outside the registry when it is asked: the files a secret may name
-- and the answers of the fetcher closure. Both are free to change.
structure Sources where
  readToString : String → Except String String
  fetcher : String → Except Error String

-- `file` holds its `OnceLock`: the contents or the read error, once read.
inductive SecretString where
  | plain (value : String)
  | file (path : String) (resolved : Option (Except String String))

-- s.strip_suffix('\n').unwrap_or(&s)
def stripNewline (s : String) : String :=
  match s.toList.reverse with
  | '\n' :: rest => String.ofList rest.reverse
  | _ => s

-- Returns the secret with its lock filled.
def SecretString.reveal (sources : Sources) : SecretString → Except Error String × SecretString
  | .plain value => (.ok value,.plain value)
  | .file path resolved =>
    let contents := resolved.getD ((sources.readToString path).map stripNewline)
    (contents.mapError .resolve,.file path (some contents))

structure SecretRegistry where
  cache : AList (fun _ : String => SecretString)
  revealed : AList (fun _ : String => String)

def SecretRegistry.new : SecretRegistry := ⟨∅,∅⟩

def SecretRegistry.seed (self : SecretRegistry) (secrets : AList (fun _ : String => SecretString)) :
    SecretRegistry :=
  { self with cache := secrets }

-- Values shorter than 8 bytes are returned but not registered.
def SecretRegistry.register (self : SecretRegistry) (name value : String) : SecretRegistry :=
  if 8 ≤ value.utf8ByteSize then { self with revealed := self.revealed.insert name value } else self

def SecretRegistry.resolve (self : SecretRegistry) (sources : Sources) (name : String) :
    Except Error String × SecretRegistry :=
  match self.cache.lookup name with
  | some secret =>
    let (value,read) := secret.reveal sources
    let self := { self with cache := self.cache.insert name read }
    match value with
    | .ok value => (.ok value,self.register name value)
    | .error error => (.error error,self)
  | none =>
    match sources.fetcher name with
    | .ok fetched =>
      (.ok fetched,{ self with cache := self.cache.insert name (.plain fetched) }.register name fetched)
    | .error error => (.error error,self)

-- Byte order of two names, which is the order of their code points.
def nameLe (a b : String) : Bool := !List.lex (b.toList.map Char.toNat) (a.toList.map Char.toNat) Nat.blt

theorem lex_codes {a b : List Char} : List.lex (a.map Char.toNat) (b.map Char.toNat) Nat.blt = true ↔ a < b := by
  induction a generalizing b with
  | nil => cases b <;> simp
  | cons first rest ih =>
    cases b with
    | nil => simp
    | cons other others =>
      simp only [List.map_cons,List.lex,List.cons_lt_cons_iff,Bool.or_eq_true,Bool.and_eq_true,beq_iff_eq,
        Nat.blt_eq,ih,Char.toNat_inj]
      exact Iff.rfl

theorem nameLe_iff : nameLe a b = true ↔ a ≤ b := by
  rw [nameLe,Bool.not_eq_true',← Bool.not_eq_true,lex_codes,← not_lt]
  exact Iff.rfl

-- Longest value first, names breaking ties.
def entryLe (a b : String × String) : Prop :=
  b.2.utf8ByteSize < a.2.utf8ByteSize ∨ (b.2.utf8ByteSize = a.2.utf8ByteSize ∧ nameLe a.1 b.1 = true)

instance : DecidableRel entryLe := fun a b => inferInstanceAs (Decidable
  (b.2.utf8ByteSize < a.2.utf8ByteSize ∨ (b.2.utf8ByteSize = a.2.utf8ByteSize ∧ nameLe a.1 b.1 = true)))

def SecretRegistry.entries (self : SecretRegistry) : List (String × String) :=
  (self.revealed.entries.map fun entry => (entry.1,entry.2)).insertionSort entryLe

def SecretRegistry.hasRedactions (self : SecretRegistry) : Bool := !self.revealed.entries.isEmpty

-- format!("{{{{ {} }}}}", name)
def marker (name : String) : String := "\x7b\x7b " ++ name ++ " \x7d\x7d"

def redact (text : String) (registry : SecretRegistry) : String :=
  if registry.hasRedactions then
    registry.entries.foldl (fun result (name,value) => replace result value (marker name)) text
  else text

-- The calls of a run with the answers they met, and what they returned.
def SecretRegistry.resolveAll (self : SecretRegistry) :
    List (Sources × String) → List (Except Error String) × SecretRegistry
  | [] => ([],self)
  | (sources,name) :: rest =>
    let (result,next) := self.resolve sources name
    let (results,last) := next.resolveAll rest
    (result :: results,last)

-- The value a secret will reveal whatever the files say by then.
def SecretString.known : SecretString → Option String
  | .plain value => some value
  | .file _ (some (.ok value)) => some value
  | .file _ _ => none

theorem reveal_known (known : SecretString.known secret = some value) :
    secret.reveal sources = (.ok value,secret) := by
  cases secret with
  | plain held => cases known; rfl
  | file path resolved =>
    cases resolved with
    | none => cases known
    | some contents => cases contents with
      | error error => cases known
      | ok held => cases known; rfl

theorem known_revealed {secret read : SecretString} (revealed : secret.reveal sources = (Except.ok value,read)) :
    read.known = some value := by
  cases secret with
  | plain held => cases revealed; rfl
  | file path resolved =>
    simp only [SecretString.reveal,Prod.mk.injEq] at revealed
    obtain ⟨contents,rfl⟩ := revealed
    cases held : resolved.getD ((sources.readToString path).map stripNewline) with
    | error error => rw [held] at contents; cases contents
    | ok stored => rw [held] at contents; cases contents; rfl

-- Every registered value is long, and the one its name will resolve to again.
structure SecretRegistry.Consistent (registry : SecretRegistry) : Prop where
  cached : ∀ name value, registry.revealed.lookup name = some value →
    ∃ secret, registry.cache.lookup name = some secret ∧ secret.known = some value
  long : ∀ name value, registry.revealed.lookup name = some value → 8 ≤ value.utf8ByteSize

-- What one call leaves: nothing registered is lost, and a long value it
-- returned is registered.
structure Resolves (before : SecretRegistry) (result : Except Error String) (after : SecretRegistry) : Prop where
  consistent : after.Consistent
  kept : ∀ name value, before.revealed.lookup name = some value → after.revealed.lookup name = some value
  registered : ∀ value, result = .ok value → 8 ≤ value.utf8ByteSize → ∃ name, after.revealed.lookup name = some value

theorem new_consistent (secrets : AList (fun _ : String => SecretString)) :
    (SecretRegistry.new.seed secrets).Consistent :=
  ⟨fun _ _ found => by simp [SecretRegistry.new,SecretRegistry.seed] at found,
    fun _ _ found => by simp [SecretRegistry.new,SecretRegistry.seed] at found⟩

theorem lookup_insert_cases {entries : AList (fun _ : String => β)}
    (found : (entries.insert name held).lookup other = some value) :
    (other = name ∧ value = held) ∨ (other ≠ name ∧ entries.lookup other = some value) := by
  by_cases same : other = name
  · subst same
    rw [AList.lookup_insert] at found
    exact .inl ⟨rfl,(Option.some.inj found).symm⟩
  · rw [AList.lookup_insert_ne same] at found
    exact .inr ⟨same,found⟩

theorem register_resolves {self : SecretRegistry} (consistent : self.Consistent) (known : secret.known = some value)
    (agrees : ∀ held, self.revealed.lookup name = some held → held = value) :
    Resolves self (.ok value) ({ self with cache := self.cache.insert name secret }.register name value) := by
  have cached : ∀ other held, self.revealed.lookup other = some held →
      ∃ secret', (self.cache.insert name secret).lookup other = some secret' ∧ secret'.known = some held := by
    intro other held found
    by_cases same : other = name
    · subst same
      exact ⟨secret,AList.lookup_insert _,by rw [agrees held found,known]⟩
    · rw [AList.lookup_insert_ne same]
      exact consistent.cached other held found
  unfold SecretRegistry.register
  split
  · rename_i long
    refine ⟨⟨?_,?_⟩,?_,?_⟩
    · intro other held found
      rcases lookup_insert_cases found with ⟨rfl,rfl⟩ | ⟨_,before⟩
      · exact ⟨secret,AList.lookup_insert _,known⟩
      · exact cached other held before
    · intro other held found
      rcases lookup_insert_cases found with ⟨_,rfl⟩ | ⟨_,before⟩
      · exact long
      · exact consistent.long other held before
    · intro other held found
      by_cases same : other = name
      · subst same
        rw [agrees held found]
        exact AList.lookup_insert _
      · exact (AList.lookup_insert_ne same).trans found
    · intro held returned _
      cases returned
      exact ⟨name,AList.lookup_insert _⟩
  · rename_i short
    exact ⟨⟨cached,consistent.long⟩,fun _ _ found => found,fun held returned long => by
      cases returned; exact absurd long short⟩

theorem resolve_resolves {self : SecretRegistry} (consistent : self.Consistent) (sources : Sources) (name : String) :
    Resolves self (self.resolve sources name).1 (self.resolve sources name).2 := by
  unfold SecretRegistry.resolve
  cases cached : self.cache.lookup name with
  | some secret =>
    have agrees : ∀ held, self.revealed.lookup name = some held → secret.known = some held := by
      intro held found
      obtain ⟨other,present,known⟩ := consistent.cached name held found
      cases cached.symm.trans present
      exact known
    rcases revealed : secret.reveal sources with ⟨error | value,read⟩
    · simp only [revealed]
      refine ⟨⟨?_,consistent.long⟩,fun _ _ found => found,fun _ returned => by cases returned⟩
      intro other held found
      by_cases same : other = name
      · subst same
        cases revealed.symm.trans (reveal_known (agrees held found))
      · simp only [AList.lookup_insert_ne same]
        exact consistent.cached other held found
    · simp only [revealed]
      apply register_resolves consistent (known_revealed revealed)
      intro held found
      cases revealed.symm.trans (reveal_known (agrees held found))
      rfl
  | none =>
    cases fetched : sources.fetcher name with
    | error error => exact ⟨consistent,fun _ _ found => found,fun _ returned => by cases returned⟩
    | ok value =>
      apply register_resolves consistent rfl
      intro held found
      obtain ⟨other,present,_⟩ := consistent.cached name held found
      cases cached.symm.trans present

theorem resolveAll_resolves {self : SecretRegistry} (consistent : self.Consistent)
    (calls : List (Sources × String)) : (self.resolveAll calls).2.Consistent ∧
      (∀ name value, self.revealed.lookup name = some value → (self.resolveAll calls).2.revealed.lookup name = some value) ∧
      ∀ value, .ok value ∈ (self.resolveAll calls).1 → 8 ≤ value.utf8ByteSize →
        ∃ name, (self.resolveAll calls).2.revealed.lookup name = some value := by
  induction calls generalizing self with
  | nil => exact ⟨consistent,fun _ _ found => found,by simp [SecretRegistry.resolveAll]⟩
  | cons call rest ih =>
    obtain ⟨sources,name⟩ := call
    have first := resolve_resolves consistent sources name
    obtain ⟨last,kept,registered⟩ := ih first.consistent
    refine ⟨last,fun _ _ found => kept _ _ (first.kept _ _ found),?_⟩
    intro value returned long
    rcases List.mem_cons.mp returned with now | later
    · obtain ⟨under,found⟩ := first.registered value now.symm long
      exact ⟨under,kept under value found⟩
    · exact registered value later long

end Quire.Secret
