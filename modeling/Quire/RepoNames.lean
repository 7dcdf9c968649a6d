import Quire.TextLines

namespace Quire.RepoNames
open Text TextLines

-- A path by its components: repeated separators and single dots do not count.
structure PathBuf where
  absolute : Bool
  parts : List String
  deriving DecidableEq, Repr

def isAbsolute (s : String) : Bool := s.toList.head? == some '/'

def PathBuf.parse (s : String) : PathBuf := ⟨isAbsolute s,(split s '/').filter fun part => part ≠ "" && part ≠ "."⟩

def PathBuf.join (self : PathBuf) (s : String) : PathBuf :=
  let other := PathBuf.parse s
  if other.absolute then other else ⟨self.absolute,self.parts ++ other.parts⟩

def PathBuf.parent (self : PathBuf) : Option PathBuf :=
  if self.parts = [] then none else some ⟨self.absolute,self.parts.dropLast⟩

inductive RepoNameError where
  | empty
  | missingGitSuffix (name : String)
  | tooManySegments (name : String)
  | invalid (name : String)
  deriving DecidableEq, Repr

def Reserved (segment : String) : Prop := segment = "" ∨ segment = "." ∨ segment = ".." ∨ segment = ".git"

instance : DecidablePred Reserved := fun _ => instDecidableOr

-- One or two segments, none of them empty or with a meaning of its own.
structure RepoName where
  text : String
  straight : contains text ".." = false
  suffixed : endsWith text ".git" = true
  grouped : (split text '/').length ≤ 2
  plain : ∀ segment ∈ split text '/', ¬ Reserved segment

def RepoName.fromStr (s : String) : Except RepoNameError RepoName :=
  if s = "" then .error .empty
  else if straight : contains s ".." = true then .error (.invalid s)
  else if suffixed : endsWith s ".git" = true then
    if contains s "//" = true then .error (.invalid s)
    else if grouped : 2 < (split s '/').length then .error (.tooManySegments s)
    else if plain : ∀ segment ∈ split s '/', ¬ Reserved segment then
      .ok ⟨s,Bool.eq_false_iff.mpr straight,suffixed,Nat.le_of_not_lt grouped,plain⟩
    else .error (.invalid s)
  else .error (.missingGitSuffix s)

structure Repo where
  quireRoot : PathBuf
  name : RepoName

def Repo.new (reposBase : PathBuf) (name : RepoName) : Repo := ⟨reposBase.parent.getD reposBase,name⟩

def Repo.path (self : Repo) : PathBuf := (self.quireRoot.join "repos").join self.name.text

-- `isDir` is the file system.
def Repo.exists (isDir : PathBuf → Bool) (self : Repo) : Bool := isDir self.path

structure Quire where
  baseDir : PathBuf
  deriving DecidableEq, Repr

def Quire.reposDir (self : Quire) : PathBuf := self.baseDir.join "repos"

inductive QuireError where
  | repoName (error : RepoNameError)
  | repoNotFound (name : String)
  deriving DecidableEq, Repr

def Quire.repo (isDir : PathBuf → Bool) (self : Quire) (name : String) : Except QuireError Repo :=
  match RepoName.fromStr name with
  | .error error => .error (.repoName error)
  | .ok name =>
    let repo := Repo.new self.reposDir name
    if repo.exists isDir then .ok repo else .error (.repoNotFound name.text)

-- Some names further down, none of which leads up again.
def Inside (dir path : PathBuf) : Prop :=
  path.absolute = dir.absolute ∧ ∃ names, names ≠ [] ∧ path.parts = dir.parts ++ names ∧
    ∀ name ∈ names, name ≠ "" ∧ name ≠ "." ∧ name ≠ ".." ∧ '/' ∉ name.toList

theorem split_free (s : String) (separator : Char) : ∀ segment ∈ split s separator, separator ∉ segment.toList := by
  intro segment member
  obtain ⟨chars,listed,rfl⟩ := List.mem_map.mp member
  simpa using splitOn_free separator s.toList chars listed

theorem split_absolute (absolute : isAbsolute s = true) : "" ∈ split s '/' := by
  obtain ⟨rest,opens⟩ := List.head?_eq_some_iff.mp (beq_iff_eq.mp absolute)
  rw [split,opens,List.splitOn_cons_eq_if_modifyHead]
  simp

variable {isDir : PathBuf → Bool} {quire : Quire}

theorem RepoName.relative (name : RepoName) : isAbsolute name.text = false :=
  Bool.eq_false_iff.mpr fun absolute => name.plain "" (split_absolute absolute) (.inl rfl)

-- A name adds its segments to a path, as they are.
theorem join_name (dir : PathBuf) (name : RepoName) : dir.join name.text = ⟨dir.absolute,dir.parts ++ split name.text '/'⟩ := by
  have kept : (split name.text '/').filter (fun part => part ≠ "" && part ≠ ".") = split name.text '/' := by
    apply List.filter_eq_self.mpr
    intro segment member
    have plain := name.plain segment member
    simp only [Reserved,not_or] at plain
    simp [plain]
  have parsed : PathBuf.parse name.text = ⟨false,split name.text '/'⟩ := by rw [PathBuf.parse,name.relative,kept]
  rw [PathBuf.join,parsed]
  rfl

theorem join_inside (dir : PathBuf) (name : RepoName) : Inside dir (dir.join name.text) := by
  rw [join_name]
  refine ⟨rfl,split name.text '/',by simp [split],rfl,?_⟩
  intro segment member
  have plain := name.plain segment member
  simp only [Reserved,not_or] at plain
  exact ⟨plain.1,plain.2.1,plain.2.2.1,split_free name.text '/' segment member⟩

-- The parent of the repos directory is the base directory again.
theorem repo_path (quire : Quire) (name : RepoName) : (Repo.new quire.reposDir name).path = quire.reposDir.join name.text := by
  have repos : PathBuf.parse "repos" = ⟨false,["repos"]⟩ := by decide
  simp [Repo.path,Repo.new,Quire.reposDir,PathBuf.join,PathBuf.parent,repos]

-- A repository that is found has a valid name, the one it was asked for by.
theorem repo_found {repo : Repo} (found : quire.repo isDir s = .ok repo) :
    ∃ name, RepoName.fromStr s = .ok name ∧ repo.path = quire.reposDir.join name.text ∧ isDir repo.path = true := by
  unfold Quire.repo at found
  split at found
  · cases found
  · rename_i name accepted
    dsimp only at found
    split at found
    · rename_i present
      cases found
      exact ⟨name,accepted,repo_path quire name,present⟩
    · cases found

end Quire.RepoNames
